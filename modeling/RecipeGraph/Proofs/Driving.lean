import RecipeGraph.Proofs.Stacks

/-!
Driving the automaton with the words of a text. What it accepts is a derivation of these words. And
every derivation of a recipe is accepted: wherever something derived from a nonterminal may begin,
the automaton takes it in, if what comes after it is among the terminals that may follow there. The
grammar has few places where these depend on more than the nonterminal.
-/
namespace RecipeGraph.Grammar

/-- Whether a nonterminal may stand for no words at all. -/
def Nonterminal.isOptional (head : Nonterminal) : Bool :=
  (bodies head).contains []

/-- The terminals that what is derived from a nonterminal may begin with. -/
def Nonterminal.beginnings : Nonterminal → List Terminal
  | .rule .recipe | .rule .body | .statements =>
      [.newline, .semicolon, .identifier, .leftBracket, .atSign, .hash, .percent]
  | .statement => [.identifier, .leftBracket, .atSign, .hash, .percent]
  | .rightSide => [.identifier, .leftBracket, .atSign]
  | .rule .scope => [.identifier, .leftBracket]
  | .rule .package => [.identifier, .atSign]
  | .rule .namedStyle | .rule .styleTag => [.hash]
  | .rule .styleBinding => [.percent]
  | .rule .styleBlock | .rule .tagBlock => [.leftBrace]
  | .rule .property => [.propertyName]
  | .rule .propertyValue => [.styleValue, .stringLiteral]
  | .rule .description | .locations => [.stringLiteral]
  | .separator => [.newline, .semicolon]
  | .moreArgs | .moreTargets | .moreValues => [.comma]
  | .moreSegments => [.dot]
  | .styleItems => [.propertyName, .hash, .stringLiteral, .semicolon]
  | .tagItems => [.hash, .semicolon]
  | _ => [.identifier]

/-- The terminals that may come next before some symbols, if others may come after them. -/
def following : List Symbol → List Terminal → List Terminal
  | [], after => after
  | .terminal terminal :: _, _ => [terminal]
  | .nonterminal head :: rest, after =>
      head.beginnings ++ if head.isOptional then following rest after else []

def areOptional (symbols : List Symbol) : Bool :=
  symbols.all fun symbol =>
    match symbol with
    | .terminal _ => false
    | .nonterminal head => head.isOptional

theorem beginnings_closed : (Nonterminal.all.all fun head => (bodies head).all fun body =>
    (following body []).all (head.beginnings.contains ·) &&
      (!areOptional body || head.isOptional)) = true := by
  decide +kernel

section Following

variable {symbols : List Symbol} {after : List Terminal} {terminal : Terminal}
  {head : Nonterminal} {body : List Symbol}

theorem Nonterminal.mem_all (head : Nonterminal) : head ∈ Nonterminal.all := by
  cases head with
  | rule rule => cases rule <;> decide
  | _ => decide

theorem mem_following : terminal ∈ following symbols after ↔
    terminal ∈ following symbols [] ∨ areOptional symbols = true ∧ terminal ∈ after := by
  induction symbols with
  | nil => simp [following, areOptional]
  | cons symbol rest ih =>
    cases symbol with
    | terminal other => simp [following, areOptional]
    | nonterminal head =>
      have hrest : areOptional (.nonterminal head :: rest) =
          (head.isOptional && areOptional rest) := rfl
      cases hoptional : head.isOptional with
      | false => simp [following, hrest, hoptional]
      | true => simp [following, hrest, hoptional, ih, or_assoc]

/-- What may come next before a body may come next before its head. -/
theorem following_body (hbody : body ∈ bodies head) (h : terminal ∈ following body after) :
    terminal ∈ following [.nonterminal head] after := by
  have hclosed := beginnings_closed
  simp only [List.all_eq_true, Bool.and_eq_true, Bool.or_eq_true, Bool.not_eq_true',
    List.contains_iff_mem] at hclosed
  obtain ⟨hbegins, hempty⟩ := hclosed head head.mem_all body hbody
  simp only [following, List.mem_append]
  rcases mem_following.mp h with hfirst | ⟨hoptional, hafter⟩
  · exact .inl (hbegins terminal hfirst)
  · rw [hoptional] at hempty
    simp only [reduceCtorEq, false_or] at hempty
    simp [hempty, hafter]

end Following

namespace Derivation

mutual

/-- What comes next before a derivation and some other words may do so. -/
theorem next_following (ending : Token) {after : List Terminal} {rest : List Token}
    (hafter : (rest.headD ending).kind ∈ after) :
    ∀ derivation : Derivation, derivation.Wellformed →
      ((derivation.tokens ++ rest).headD ending).kind ∈ following [derivation.symbol] after
  | .leaf token, _ => by simp [tokens, symbol, following]
  | .node head children, h =>
      following_body h.1 (next_followingAll ending hafter children h.2)

theorem next_followingAll (ending : Token) {after : List Terminal} {rest : List Token}
    (hafter : (rest.headD ending).kind ∈ after) :
    ∀ derivations : List Derivation, AllWellformed derivations →
      ((tokensOfAll derivations ++ rest).headD ending).kind ∈
        following (derivations.map symbol) after
  | [], _ => hafter
  | first :: others, h => by
      have hothers := next_followingAll ending hafter others h.2
      have hfirst := next_following ending hothers first h.1
      rw [tokensOfAll, List.append_assoc]
      cases hsymbol : first.symbol with
      | terminal terminal => simpa [hsymbol, following] using hfirst
      | nonterminal head => simpa [hsymbol, following] using hfirst

end

end Derivation

namespace Stack

/-- What comes of some words and then the end of the text. -/
def drive (ending : Token) : Stack → List Token → Option Derivation
  | stack, [] =>
      match stack.feed ending with
      | .accepted tree => some tree
      | _ => none
  | stack, token :: rest =>
      match stack.feed token with
      | .shifted stack => drive ending stack rest
      | _ => none

/-- What a word may come to: it is taken in, or the stack holds a recipe. -/
def Outcome.Sound (stack : Stack) (token : Token) : Outcome → Prop
  | .shifted after => Stack.Sound after ∧ after.words = stack.words ++ [token]
  | .accepted tree =>
      tree.Wellformed ∧ tree.symbol = .nonterminal (.rule .recipe) ∧ tree.tokens = stack.words
  | .refused _ => True

/-- What comes of a word within some steps: first reductions, and in the end the word is taken in,
the text is accepted or the word is refused. -/
inductive Feeds (token : Token) : Nat → Stack → Outcome → Prop
  | spent (stack : Stack) : Feeds token 0 stack (.refused stack.state)
  | reduce {fuel : Nat} {stack below : Stack} {production : Production} {outcome : Outcome}
      (haction : action? stack.state token.kind = some (.reduce production))
      (hreduce : stack.reduce? production = some below) (hrest : Feeds token fuel below outcome) :
      Feeds token (fuel + 1) stack outcome
  | shift {fuel next : Nat} {stack : Stack}
      (haction : action? stack.state token.kind = some (.shift next)) :
      Feeds token (fuel + 1) stack (.shifted (⟨next, .leaf token⟩ :: stack))
  | accept {fuel : Nat} {frame : Frame} {below : Stack}
      (haction : action? frame.state token.kind = some .accept) :
      Feeds token (fuel + 1) (frame :: below) (.accepted frame.tree)
  | refuse {fuel : Nat} {stack : Stack} (haction : action? stack.state token.kind = none) :
      Feeds token (fuel + 1) stack (.refused stack.state)
  | short {fuel : Nat} {stack : Stack} {production : Production}
      (haction : action? stack.state token.kind = some (.reduce production))
      (hreduce : stack.reduce? production = none) :
      Feeds token (fuel + 1) stack (.refused stack.state)

section Soundness

variable {stack : Stack} {token ending : Token} {next : Nat} {terminal : Terminal}
  {tokens : List Token} {derivation : Derivation}

theorem action_shift {state : Nat} (h : action? state terminal = some (.shift next)) :
    goto? state (.terminal terminal) = some next := by
  unfold action? at h
  split at h
  · cases h
  · split at h
    · rename_i hshift
      simp only [Option.some.injEq, Action.shift.injEq] at h
      rw [← h]
      exact hshift
    · split at h
      · simp at h
      · cases h

theorem action_accept {state : Nat} (h : action? state terminal = some .accept) :
    state = acceptingState ∧ terminal = .endOfText := by
  unfold action? at h
  split at h
  · assumption
  · split at h
    · simp at h
    · split at h
      · simp at h
      · cases h

theorem feeds_of_eq {fuel : Nat} {outcome : Outcome} (h : stack.feedWithin fuel token = outcome) :
    Feeds token fuel stack outcome := by
  subst h
  induction fuel generalizing stack with
  | zero => exact .spent stack
  | succ fuel ih =>
    unfold feedWithin
    cases haction : action? stack.state token.kind with
    | none => exact .refuse haction
    | some action =>
      cases action with
      | shift next => exact .shift haction
      | accept =>
        cases stack with
        | nil => exact absurd (action_accept haction).1 (by decide)
        | cons frame below => exact .accept haction
      | reduce production =>
        dsimp only
        cases hreduce : stack.reduce? production with
        | none => exact .short haction hreduce
        | some below => exact .reduce haction hreduce ih

/-- Nothing is accepted before the end of the text. -/
theorem feedWithin_accepted {fuel : Nat}
    (h : stack.feedWithin fuel token = .accepted derivation) : token.kind = .endOfText := by
  have hfeeds := feeds_of_eq h
  clear h
  generalize hends : Outcome.accepted derivation = outcome at hfeeds
  induction hfeeds with
  | accept haction => exact (action_accept haction).2
  | reduce _ _ _ ih => exact ih hends
  | spent | shift | refuse | short => cases hends

/-- In the accepting state the stack holds one recipe and nothing else. -/
theorem Sound.accepting {frame : Frame} {below : Stack} (h : Sound (frame :: below))
    (hstate : frame.state = acceptingState) :
    below = [] ∧ frame.tree.symbol = .nonterminal (.rule .recipe) := by
  cases h with
  | push hbelow hgoto _ =>
    have hfound := accepting_found
    simp only [List.all_eq_true] at hfound
    have hedge := hfound _ (mem_edges hgoto)
    simp only [hstate, bne_self_eq_false, Bool.false_or, Bool.and_eq_true, beq_iff_eq,
      decide_eq_true_eq] at hedge
    exact ⟨hbelow.state_zero hedge.2.1, hedge.2.2⟩

theorem Feeds.sound {fuel : Nat} {outcome : Outcome} (hfeeds : Feeds token fuel stack outcome)
    (h : Sound stack) : outcome.Sound stack token := by
  induction hfeeds with
  | spent | refuse | short => trivial
  | shift haction =>
    exact ⟨.push h (action_shift haction) trivial, words_push ⟨_, .leaf token⟩ _⟩
  | reduce haction hreduce _ ih =>
    obtain ⟨hbelow, hwords⟩ := h.reduce haction hreduce
    have hrest := ih hbelow
    unfold Outcome.Sound at hrest ⊢
    rwa [hwords] at hrest
  | @accept _ frame below haction =>
    obtain ⟨rfl, hsymbol⟩ := h.accepting (action_accept haction).1
    exact ⟨h.wellformed frame (by simp), hsymbol, (words_push frame []).symm⟩

theorem Sound.feed_sound (h : Sound stack) (token : Token) :
    (stack.feed token).Sound stack token :=
  (feeds_of_eq rfl).sound h

/-- What is accepted is a derivation of a recipe, of the words that were taken in. -/
theorem Sound.drive_sound (h : Sound stack)
    (haccepted : stack.drive ending tokens = some derivation) :
    derivation.Wellformed ∧ derivation.symbol = .nonterminal (.rule .recipe) ∧
      derivation.tokens = stack.words ++ tokens := by
  induction tokens generalizing stack with
  | nil =>
    have hfed := h.feed_sound ending
    unfold drive at haccepted
    generalize stack.feed ending = outcome at hfed haccepted
    cases outcome with
    | accepted tree =>
      simp only [Option.some.injEq] at haccepted
      subst haccepted
      rw [List.append_nil]
      exact hfed
    | shifted after => cases haccepted
    | refused state => cases haccepted
  | cons token rest ih =>
    have hfed := h.feed_sound token
    unfold drive at haccepted
    generalize stack.feed token = outcome at hfed haccepted
    cases outcome with
    | shifted after =>
      obtain ⟨hafter, hwords⟩ := hfed
      have hderived := ih hafter haccepted
      rwa [hwords, List.append_assoc, List.singleton_append] at hderived
    | accepted tree => cases haccepted
    | refused state => cases haccepted

end Soundness

end Stack

/-- The terminals that may follow a statement or what is assigned. -/
def statementEnds : List Terminal :=
  [.newline, .semicolon, .rightBracket, .endOfText]

/-- The terminals that may follow an item of a style. -/
def itemEnds : List Terminal :=
  [.stringLiteral, .propertyName, .hash, .semicolon, .rightBrace]

/-- The terminals that may follow what is derived from a nonterminal that begins in a state. Only
for names the state matters: they may be arguments, or statements or assigned, or name a style. -/
def followers (state : Nat) : Nonterminal → List Terminal
  | .rule .recipe => [.endOfText]
  | .rule .body => [.rightBracket]
  | .rule .argList => [.rightParen]
  | .value | .moreArgs => [.comma, .rightParen]
  | .rule .reference | .rule .qualifiedName =>
      if (jump? state .value).isSome then [.comma, .rightParen]
      else if (jump? state (.rule .reference)).isSome then statementEnds
      else itemEnds
  | .moreSegments => .dot :: .comma :: .rightParen :: statementEnds ++ itemEnds
  | .rule .call => .comma :: .rightParen :: statementEnds
  | .rule .target | .moreTargets => [.comma, .equal]
  | .rule .styleBlock => .comma :: .equal :: .rightParen :: statementEnds
  | .rule .property | .rule .styleTag | .rule .description | .styleItems => itemEnds
  | .rule .propertyValue | .moreValues => .comma :: itemEnds
  | .tagItems => [.hash, .semicolon, .rightBrace]
  | .locations => .stringLiteral :: statementEnds
  | .separator | .statements =>
      .identifier :: .atSign :: .hash :: .percent :: .leftBracket :: statementEnds
  | _ => statementEnds

/-- What may come next after a nonterminal at the front may follow it. -/
def isFollowed (state : Nat) (symbol : Symbol) (rest : List Symbol) (after : List Terminal) :
    Bool :=
  match symbol with
  | .terminal _ => true
  | .nonterminal head => (following rest after).all ((followers state head).contains ·)

/-- From the state one can go on along the symbols, and then the production is complete before all
of the terminals. -/
def goesOn (production : Production) : Nat → List Symbol → List Terminal → Bool
  | state, [], after =>
      after.all fun terminal =>
        match action? state terminal with
        | some (.reduce found) => found = production
        | _ => false
  | state, symbol :: rest, after =>
      match goto? state symbol with
      | some next => isFollowed state symbol rest after && goesOn production next rest after
      | none => false

/-- Wherever a nonterminal may begin, so may each of its bodies. -/
theorem bodies_go_on : (rows.zipIdx.all fun row => row.1.jumps.all fun jump =>
    (bodies jump.1).all fun body =>
      goesOn ⟨jump.1, body⟩ row.2 body (followers row.2 jump.1)) = true := by
  decide +kernel

namespace Stack

/-- The stack when some derivations have been put on it. -/
def pushAll : Stack → List Derivation → Stack
  | stack, [] => stack
  | stack, derivation :: rest =>
      pushAll (⟨(goto? stack.state derivation.symbol).getD 0, derivation⟩ :: stack) rest

section Completeness

variable {stack other : Stack} {ending token : Token} {next : Nat} {tokens : List Token}
  {head : Nonterminal} {body : List Symbol} {children : List Derivation}

theorem pushAll_eq (stack : Stack) (children : List Derivation) :
    ∃ frames : List Frame, stack.pushAll children = frames.reverse ++ stack ∧
      frames.map (·.tree) = children := by
  induction children generalizing stack with
  | nil => exact ⟨[], rfl, rfl⟩
  | cons first rest ih =>
    obtain ⟨frames, hstack, htrees⟩ :=
      ih (⟨(goto? stack.state first.symbol).getD 0, first⟩ :: stack)
    refine ⟨⟨(goto? stack.state first.symbol).getD 0, first⟩ :: frames, ?_, by simp [htrees]⟩
    rw [pushAll, hstack]
    simp

/-- A reduction of all that was put on the stack. -/
theorem reduce_pushAll (hbody : children.map Derivation.symbol = body)
    (hjump : jump? stack.state head = some next) :
    (stack.pushAll children).reduce? ⟨head, body⟩ =
      some (⟨next, .node head children⟩ :: stack) := by
  obtain ⟨frames, hstack, htrees⟩ := pushAll_eq stack children
  have hlength : body.length = frames.reverse.length := by
    rw [← hbody, ← htrees]
    simp
  unfold reduce?
  dsimp only
  rw [hstack, hlength, List.drop_left, List.take_left, hjump, List.reverse_reverse, htrees]
  rfl

theorem goesOn_body (hjump : jump? stack.state head = some next) (hbody : body ∈ bodies head) :
    goesOn ⟨head, body⟩ stack.state body (followers stack.state head) = true := by
  have hentry := mem_of_lookup hjump
  rcases rowOf_cases stack.state with hnone | hrow
  · rw [hnone] at hentry
    simp at hentry
  · have hgo := bodies_go_on
    simp only [List.all_eq_true] at hgo
    exact hgo _ hrow _ hentry body hbody

theorem drive_congr
    (h : stack.feed (tokens.headD ending) = other.feed (tokens.headD ending)) :
    stack.drive ending tokens = other.drive ending tokens := by
  cases tokens with
  | nil =>
    rw [List.headD_nil] at h
    rw [drive, drive, h]
  | cons token rest =>
    rw [List.headD_cons] at h
    rw [drive, drive, h]

theorem action_of_goto {state : Nat} {terminal : Terminal}
    (h : goto? state (.terminal terminal) = some next) :
    action? state terminal = some (.shift next) := by
  have hshift : (rowOf state).shifts.lookup terminal = some next := h
  have hother : ¬ (state = acceptingState ∧ terminal = .endOfText) := by
    rintro ⟨rfl, -⟩
    cases hshift
  unfold action?
  rw [if_neg hother, hshift]

theorem drive_shift (h : goto? stack.state (.terminal token.kind) = some next)
    (rest : List Token) :
    stack.drive ending (token :: rest) = drive ending (⟨next, .leaf token⟩ :: stack) rest := by
  have hfed : stack.feed token = .shifted (⟨next, .leaf token⟩ :: stack) := by
    unfold feed
    rw [show 8 * (stack.length + 2) = 8 * stack.length + 15 + 1 by omega]
    unfold feedWithin
    rw [action_of_goto h]
  rw [drive, hfed]

mutual

/-- A derivation is taken in as a whole. -/
theorem drive_derivation (ending : Token) : ∀ (derivation : Derivation),
    derivation.Wellformed → ∀ {stack : Stack} {next : Nat}, Sound stack →
      goto? stack.state derivation.symbol = some next → ∀ rest : List Token,
      (∀ head, derivation.symbol = .nonterminal head →
        (rest.headD ending).kind ∈ followers stack.state head) →
      stack.drive ending (derivation.tokens ++ rest) =
        drive ending (⟨next, derivation⟩ :: stack) rest
  | .leaf token, _, _, _, _, hgoto, rest, _ => drive_shift hgoto rest
  | .node head children, hwell, stack, next, hsound, hgoto, rest, hnext => by
    obtain ⟨hbody, hchildren⟩ := hwell
    have hjump : jump? stack.state head = some next := hgoto
    have hafter := hnext head rfl
    obtain ⟨hdriven, hpushed, haction⟩ := drive_children ending ⟨head, children.map (·.symbol)⟩
      children hchildren hsound (goesOn_body hjump hbody) rest hafter
    refine hdriven.trans (drive_congr ?_)
    exact hpushed.feed_reduce (haction _ hafter) (reduce_pushAll rfl hjump)

/-- Derivations are taken in one after the other, and then the production is complete. -/
theorem drive_children (ending : Token) (production : Production) :
    ∀ (children : List Derivation), Derivation.AllWellformed children → ∀ {stack : Stack},
      Sound stack → ∀ {after : List Terminal},
      goesOn production stack.state (children.map (·.symbol)) after = true →
      ∀ rest : List Token, (rest.headD ending).kind ∈ after →
      stack.drive ending (Derivation.tokensOfAll children ++ rest) =
          (stack.pushAll children).drive ending rest ∧
        Sound (stack.pushAll children) ∧
        ∀ terminal ∈ after,
          action? (stack.pushAll children).state terminal = some (.reduce production)
  | [], _, stack, hsound, after, hgo, rest, _ => by
    refine ⟨rfl, hsound, fun terminal hin => ?_⟩
    have hcomplete := List.all_eq_true.mp hgo terminal hin
    show action? stack.state terminal = some (.reduce production)
    split at hcomplete
    · rename_i found hfound
      rw [hfound, of_decide_eq_true hcomplete]
    · cases hcomplete
  | first :: others, hwell, stack, hsound, after, hgo, rest, hafter => by
    rw [List.map_cons, goesOn] at hgo
    cases hgoto : goto? stack.state first.symbol with
    | none => simp [hgoto] at hgo
    | some next =>
      simp only [hgoto, Bool.and_eq_true] at hgo
      obtain ⟨hfollowed, hgo⟩ := hgo
      have hpushed : Sound (⟨next, first⟩ :: stack) := .push hsound hgoto hwell.1
      -- After the first one comes the beginning of the others, or what comes after them all.
      have hfirst := drive_derivation ending first hwell.1 hsound hgoto
        (Derivation.tokensOfAll others ++ rest) fun head hsymbol => by
          have hnext := Derivation.next_followingAll ending hafter others hwell.2
          rw [hsymbol] at hfollowed
          simp only [isFollowed, List.all_eq_true, List.contains_iff_mem] at hfollowed
          exact hfollowed _ hnext
      have hothers := drive_children ending production others hwell.2 hpushed hgo rest hafter
      rw [Derivation.tokensOfAll, List.append_assoc, hfirst, pushAll, hgoto]
      exact hothers

end

/-- At the end of the text a recipe on the stack is accepted. -/
theorem feed_accept (hending : ending.kind = .endOfText) (derivation : Derivation) :
    feed [⟨acceptingState, derivation⟩] ending = .accepted derivation := by
  have haction : action? (state [⟨acceptingState, derivation⟩]) ending.kind = some .accept := by
    unfold action?
    exact if_pos ⟨rfl, hending⟩
  unfold feed
  rw [show 8 * (List.length [(⟨acceptingState, derivation⟩ : Frame)] + 2) = 23 + 1 from rfl]
  unfold feedWithin
  rw [haction]

/-- Every derivation of a recipe is accepted. -/
theorem drive_complete (hending : ending.kind = .endOfText) {derivation : Derivation}
    (hwell : derivation.Wellformed)
    (hsymbol : derivation.symbol = .nonterminal (.rule .recipe)) :
    drive ending [] derivation.tokens = some derivation := by
  have hgoto : goto? (state []) derivation.symbol = some acceptingState := by
    rw [hsymbol]
    decide +kernel
  have hdriven := drive_derivation ending derivation hwell .empty hgoto [] fun head hhead => by
    rw [hsymbol] at hhead
    cases hhead
    simp [hending, followers]
  rw [List.append_nil] at hdriven
  rw [hdriven, drive, feed_accept hending]

end Completeness

end Stack

end RecipeGraph.Grammar
