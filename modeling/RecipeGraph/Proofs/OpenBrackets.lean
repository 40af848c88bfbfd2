import RecipeGraph.Proofs.Viability

/-!
Which brackets are open where the automaton stands. The words of every derivation close all that
they open, so what is on a stack leaves those brackets open that stand on it for themselves. The
innermost of them shows in the state: on every way back the same one is left open. Before a word
that is refused the automaton stands on a stack with the words that it was fed.
-/
namespace RecipeGraph.Grammar

open Source

def isOpener (kind : Terminal) : Bool :=
  (Brackets.closerOf? kind).isSome

def isCloser (kind : Terminal) : Bool :=
  kind = .rightParen || kind = .rightBrace || kind = .rightBracket

/-- The open brackets behind a word, innermost first. A closer must be that of the innermost. -/
def close? (brackets : Brackets) (kind : Terminal) : Option Brackets :=
  if isOpener kind then some (kind :: brackets)
  else if isCloser kind then
    brackets.head?.bind fun opener =>
      if Brackets.closerOf? opener = some kind then some brackets.tail else none
  else some brackets

/-- The brackets that some words leave open, innermost first, if every closer among them is that of
the innermost bracket. -/
def openAfter (kinds : List Terminal) : Option Brackets :=
  kinds.foldlM close? []

/-- The terminals of a body are read like words, what its nonterminals stand for is passed over. -/
def closeSymbol? (brackets : Brackets) : Symbol → Option Brackets
  | .terminal kind => close? brackets kind
  | .nonterminal _ => some brackets

/-- The open bracket with so many others inside, looked for from behind a symbol: it is the symbol
itself, or is open before it with so many others inside. -/
def outward (depth : Nat) : Symbol → Terminal ⊕ Nat
  | .nonterminal _ => .inr depth
  | .terminal kind =>
      if isOpener kind then
        match depth with
        | 0 => .inl kind
        | depth + 1 => .inr depth
      else .inr (if isCloser kind then depth + 1 else depth)

/-- Whether on every way back from a state the open bracket with so many others inside passes a
test. None is open at the start. -/
def enclosedBy (test : Option Terminal → Bool) : Nat → Nat → Nat → Bool
  | _, 0, _ => false
  | depth, steps + 1, state =>
      if state = 0 then test none
      else (entering state).all fun edge =>
        match outward depth edge.symbol with
        | .inl kind => test (some kind)
        | .inr further => enclosedBy test further steps edge.source

section Brackets

variable {kinds more : List Terminal} {brackets after : Brackets} {kind closer : Terminal}
  {symbol : Symbol} {symbols : List Symbol}

theorem close?_frame (h : close? brackets kind = some after) (outer : Brackets) :
    close? (brackets ++ outer) kind = some (after ++ outer) := by
  unfold close? at h ⊢
  cases hopens : isOpener kind with
  | true =>
    simp only [hopens, if_true, Option.some.injEq] at h ⊢
    rw [← h, List.cons_append]
  | false =>
    cases hcloses : isCloser kind with
    | false =>
      simp only [hopens, hcloses, Bool.false_eq_true, if_false, Option.some.injEq] at h ⊢
      rw [h]
    | true =>
      simp only [hopens, hcloses, Bool.false_eq_true, if_false, if_true] at h ⊢
      obtain ⟨opener, hopener, hmatches⟩ := Option.bind_eq_some_iff.mp h
      obtain ⟨inner, rfl⟩ := List.head?_eq_some_iff.mp hopener
      split at hmatches
      · rename_i hmatch
        cases hmatches
        simp [hmatch]
      · cases hmatches

theorem closeSymbol?_frame (h : closeSymbol? brackets symbol = some after) (outer : Brackets) :
    closeSymbol? (brackets ++ outer) symbol = some (after ++ outer) := by
  cases symbol with
  | terminal kind => exact close?_frame h outer
  | nonterminal head =>
    cases h
    rfl

/-- What closes all that it opens leaves the brackets around it as they are. -/
theorem foldlM_closeSymbol?_frame (h : symbols.foldlM closeSymbol? brackets = some after)
    (outer : Brackets) :
    symbols.foldlM closeSymbol? (brackets ++ outer) = some (after ++ outer) := by
  induction symbols generalizing brackets with
  | nil =>
    cases h
    rfl
  | cons symbol symbols ih =>
    rw [List.foldlM_cons] at h ⊢
    obtain ⟨middle, hmiddle, hrest⟩ := Option.bind_eq_some_iff.mp h
    rw [closeSymbol?_frame hmiddle]
    exact ih hrest

theorem close?_closer (hopens : isOpener kind = false) (hcloses : isCloser kind = true)
    (h : close? brackets kind = some after) : ∃ opener, brackets = opener :: after := by
  simp only [close?, hopens, hcloses, Bool.false_eq_true, if_false, if_true] at h
  obtain ⟨opener, hopener, hmatches⟩ := Option.bind_eq_some_iff.mp h
  obtain ⟨outer, rfl⟩ := List.head?_eq_some_iff.mp hopener
  split at hmatches
  · cases hmatches
    exact ⟨opener, rfl⟩
  · cases hmatches

theorem head?_drop_outward (h : closeSymbol? brackets symbol = some after) (depth : Nat) :
    (after.drop depth).head? =
      match outward depth symbol with
      | .inl kind => some kind
      | .inr further => (brackets.drop further).head? := by
  cases symbol with
  | nonterminal head =>
    cases h
    rfl
  | terminal kind =>
    simp only [closeSymbol?] at h
    cases hopens : isOpener kind with
    | true =>
      simp only [close?, hopens, if_true, Option.some.injEq] at h
      subst h
      cases depth <;> simp [outward, hopens]
    | false =>
      cases hcloses : isCloser kind with
      | true =>
        obtain ⟨opener, rfl⟩ := close?_closer hopens hcloses h
        simp [outward, hopens, hcloses]
      | false =>
        simp only [close?, hopens, hcloses, Bool.false_eq_true, if_false, Option.some.injEq] at h
        simp [outward, hopens, hcloses, h]

theorem openAfter_append : openAfter (kinds ++ more) =
    (openAfter kinds).bind fun brackets => more.foldlM close? brackets :=
  List.foldlM_append

theorem openAfter_prefix (h : kinds <+: more) (hopen : (openAfter more).isSome = true) :
    (openAfter kinds).isSome = true := by
  obtain ⟨rest, rfl⟩ := h
  rw [openAfter_append] at hopen
  cases hkinds : openAfter kinds with
  | none => simp [hkinds] at hopen
  | some brackets => rfl

end Brackets

/-- Every body closes all that it opens. -/
theorem bodies_closed : (Nonterminal.all.all fun head => (bodies head).all fun body =>
    body.foldlM closeSymbol? [] = some []) = true := by
  decide +kernel

namespace Derivation

variable {brackets : Brackets}

mutual

/-- The words of a derivation do to the open brackets what its symbol does. -/
theorem close_tokens (brackets : Brackets) : ∀ derivation : Derivation, derivation.Wellformed →
    (derivation.tokens.map (·.kind)).foldlM close? brackets =
      closeSymbol? brackets derivation.symbol
  | .leaf token, _ => by
      rw [tokens, List.map_singleton, List.foldlM_cons]
      exact bind_pure _
  | .node head children, h => by
      have hclosed := bodies_closed
      simp only [List.all_eq_true, decide_eq_true_eq] at hclosed
      have hbody := hclosed head head.mem_all _ h.1
      rw [tokens, close_tokensOfAll brackets children h.2]
      exact foldlM_closeSymbol?_frame hbody brackets

theorem close_tokensOfAll (brackets : Brackets) : ∀ derivations : List Derivation,
    AllWellformed derivations →
      ((tokensOfAll derivations).map (·.kind)).foldlM close? brackets =
        (derivations.map symbol).foldlM closeSymbol? brackets
  | [], _ => rfl
  | first :: rest, h => by
      rw [tokensOfAll, List.map_append, List.foldlM_append, close_tokens brackets first h.1,
        List.map_cons, List.foldlM_cons]
      exact congrArg _ (funext fun outer => close_tokensOfAll outer rest h.2)

end

/-- A whole recipe leaves no bracket open. -/
theorem openAfter_tokens {derivation : Derivation} {head : Nonterminal}
    (h : derivation.Wellformed) (hsymbol : derivation.symbol = .nonterminal head) :
    openAfter (derivation.tokens.map (·.kind)) = some [] := by
  rw [openAfter, close_tokens [] derivation h, hsymbol]
  rfl

end Derivation

/-- There is a row for every state that awaits something, apart from the end of the text. -/
theorem row_of_action {state : Nat} {kind : Terminal} (h : (action? state kind).isSome = true)
    (hend : kind ≠ .endOfText) : (rowOf state, state) ∈ rows.zipIdx := by
  rcases rowOf_cases state with hnone | hrow
  · unfold action? at h
    simp [hnone, hend] at h
  · exact hrow

/-- A reduction leads on from where the body of its production begins. -/
theorem reductions_lead : (rows.zipIdx.all fun row => row.1.reductions.all fun entry =>
    match productions[entry.1]? with
    | some production => comesFrom production.head row.2 production.body.reverse
    | none => false) = true := by
  decide +kernel

namespace Stack

variable {stack below : Stack} {test : Option Terminal → Bool} {steps state : Nat}
  {terminal : Terminal} {production : Production} {token : Token} {brackets : Brackets}

/-- The words on a stack close only what they open. -/
theorem Sound.openAfter_isSome (h : Sound stack) :
    (openAfter (stack.words.map (·.kind))).isSome = true := by
  obtain ⟨derivation, hwell, hsymbol, hwords⟩ := h.viable
  refine openAfter_prefix (hwords.map _) ?_
  rw [Derivation.openAfter_tokens hwell hsymbol]
  rfl

theorem openAfter_push (frame : Frame) (below : Stack) (hwell : frame.tree.Wellformed) :
    openAfter ((words (frame :: below)).map (·.kind)) =
      (openAfter (below.words.map (·.kind))).bind fun brackets =>
        closeSymbol? brackets frame.tree.symbol := by
  rw [words_push, List.map_append, openAfter_append]
  exact congrArg _ (funext fun brackets => Derivation.close_tokens brackets frame.tree hwell)

/-- The bracket that is open on every way back from the top state is open behind the words. -/
theorem Sound.enclosed {depth : Nat} (h : Sound stack)
    (hopen : openAfter (stack.words.map (·.kind)) = some brackets)
    (henclosed : enclosedBy test depth steps stack.state = true) :
    test (brackets.drop depth).head? = true := by
  induction steps generalizing stack depth brackets with
  | zero => cases henclosed
  | succ steps ih =>
    unfold enclosedBy at henclosed
    split at henclosed
    · rename_i hstart
      obtain rfl := h.state_zero hstart
      cases hopen
      simpa using henclosed
    · rename_i hstart
      cases h with
      | empty => exact absurd rfl hstart
      | @push frame below hbelow hgoto hwell =>
        have hentering : ⟨below.state, frame.tree.symbol, frame.state⟩ ∈ entering frame.state :=
          List.mem_filter.mpr ⟨mem_edges hgoto, beq_self_eq_true _⟩
        have hway := List.all_eq_true.mp henclosed _ hentering
        rw [openAfter_push frame below hwell] at hopen
        obtain ⟨outer, houter, hclosed⟩ := Option.bind_eq_some_iff.mp hopen
        rw [head?_drop_outward hclosed]
        cases houtward : outward depth frame.tree.symbol with
        | inl kind => simpa [houtward] using hway
        | inr further =>
          simp only [houtward] at hway
          exact ih hbelow houter hway

theorem Sound.reduce?_isSome (h : Sound stack)
    (haction : action? stack.state terminal = some (.reduce production)) :
    (stack.reduce? production).isSome = true := by
  obtain ⟨entry, hentry, hproduction⟩ := mem_reductions haction
  rcases rowOf_cases stack.state with hnone | hrow
  · rw [hnone] at hentry
    simp at hentry
  · have hlead := reductions_lead
    simp only [List.all_eq_true] at hlead
    have hfrom := hlead _ hrow entry hentry
    rw [hproduction] at hfrom
    obtain ⟨-, hjump⟩ := h.comesFrom hfrom
    rw [List.length_reverse] at hjump
    simpa [reduce?] using hjump

theorem Sound.feedWithin_refused (h : Sound stack) {fuel : Nat} (hfuel : stack.load < fuel)
    (hrefused : stack.feedWithin fuel token = .refused state) :
    ∃ below : Stack, Sound below ∧ below.words = stack.words ∧ below.state = state ∧
      action? state token.kind = none := by
  have hfeeds := feeds_of_eq hrefused
  clear hrefused
  generalize hends : Outcome.refused state = outcome at hfeeds
  induction hfeeds with
  | spent => omega
  | reduce haction hreduce _ ih =>
    obtain ⟨hbelow, hwords⟩ := h.reduce haction hreduce
    have hless := h.load_lt haction hreduce
    obtain ⟨last, hlast, hsame, hstate⟩ := ih hbelow (by omega) hends
    exact ⟨last, hlast, hsame.trans hwords, hstate⟩
  | @refuse _ stack haction =>
    obtain rfl := Outcome.refused.inj hends
    exact ⟨stack, h, rfl, rfl, haction⟩
  | short haction hreduce =>
    have hsome := h.reduce?_isSome haction
    simp [hreduce] at hsome
  | shift | accept => cases hends

/-- The state that a refusal names is that of a stack with the words that were taken in. -/
theorem Sound.refused (h : Sound stack) (hrefused : stack.feed token = .refused state) :
    ∃ below : Stack, Sound below ∧ below.words = stack.words ∧ below.state = state ∧
      action? state token.kind = none := by
  have hload := h.load_le
  exact h.feedWithin_refused (by omega) hrefused

end Stack

end RecipeGraph.Grammar
