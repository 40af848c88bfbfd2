import RecipeGraph.Proofs.OpenBrackets

/-!
What the automaton does at the end of a statement. Behind a separator that is a semicolon it stands
in one state only, but in braces. From there it takes in whatever a statement begins with, and the
reductions before that lead to states which await the same. So they do for a square bracket that
could close a scope where the semicolon stands.
-/
namespace RecipeGraph.Grammar

open Source

/-- Every way into the state ends with these symbols, the last of them first, and where it begins
the head leads on to a state that passes a test. -/
def landsOn (good : Nat → Bool) (head : Nonterminal) : Nat → List Symbol → Bool
  | state, [] => (jump? state head).any good
  | state, symbol :: rest =>
      state != 0 && (entering state).all fun edge =>
        edge.symbol = symbol && landsOn good head edge.source rest

/-- A terminal is awaited where no brace could close and no assignment could go on. -/
def carries (kind : Terminal) (state : Nat) : Bool :=
  (action? state kind).isSome && (action? state .rightBrace).isNone &&
    (action? state .equal).isNone

/-- Where a terminal is awaited, the reductions that it brings about lead to where it is awaited, if
that is not set apart. -/
def carriedOn (kind : Terminal) (apart : Nat → Bool) : Bool :=
  rows.zipIdx.all fun row => !carries kind row.2 || row.1.reductions.all fun entry =>
    !entry.2.contains kind ||
      match productions[entry.1]? with
      | some production =>
          landsOn (fun next => carries kind next || apart next) production.head row.2
            production.body.reverse
      | none => false

/-- The state behind a semicolon between statements. -/
def behindSeparator : Nat := 13

section Table

theorem beginnings_carried :
    ((Nonterminal.beginnings .statement).all fun kind =>
      carries kind behindSeparator && carriedOn kind fun _ => false) = true := by
  decide +kernel

theorem closers_carried :
    carriedOn .rightBracket (enclosedBy (· ≠ some .leftBracket) 0 8) = true := by
  decide +kernel

/-- Where a semicolon is taken in between statements, so is the bracket that closes a scope. -/
theorem separators_shifted : (rows.zipIdx.all fun row =>
    match row.1.shifts.lookup .semicolon with
    | some next =>
        if next = behindSeparator then carries .rightBracket row.2 ||
          enclosedBy (· ≠ some .leftBracket) 0 8 row.2
        else enclosedBy (· = some .leftBrace) 0 8 row.2
    | none => true) = true := by
  decide +kernel

/-- A semicolon is awaited where no brace could close only if no brace is open. -/
theorem separators_unbraced : (rows.zipIdx.all fun row => (action? row.2 .semicolon).isNone ||
    (action? row.2 .rightBrace).isSome || enclosedBy (· ≠ some .leftBrace) 0 16 row.2) = true := by
  decide +kernel

end Table

namespace Stack

variable {stack below after : Stack} {head : Nonterminal} {symbols : List Symbol}
  {good apart : Nat → Bool} {kind : Terminal} {production : Production} {token : Token}
  {brackets : Brackets}

theorem Sound.landsOn (h : Sound stack)
    (hlands : Grammar.landsOn good head stack.state symbols = true) :
    ∃ next, jump? (Stack.state (stack.drop symbols.length)) head = some next ∧
      good next = true := by
  induction symbols generalizing stack with
  | nil =>
    unfold Grammar.landsOn at hlands
    cases hnext : jump? stack.state head with
    | none => simp [hnext] at hlands
    | some next => exact ⟨next, hnext, by simpa [hnext] using hlands⟩
  | cons symbol rest ih =>
    simp only [Grammar.landsOn, entering, Bool.and_eq_true, bne_iff_ne, List.all_eq_true,
      List.mem_filter, beq_iff_eq, decide_eq_true_eq, and_imp] at hlands
    obtain ⟨hstart, hinto⟩ := hlands
    cases h with
    | empty => exact absurd rfl hstart
    | @push frame below hbelow hgoto _ => exact ih hbelow (hinto _ (mem_edges hgoto) rfl).2

/-- What takes in a word stands on a stack with the words before it. -/
theorem Sound.feedWithin_shifts (h : Sound stack) {fuel : Nat}
    (hfed : stack.feedWithin fuel token = .shifted after) :
    ∃ (below : Stack) (next : Nat), Sound below ∧ below.words = stack.words ∧
      action? below.state token.kind = some (.shift next) ∧
      after = ⟨next, .leaf token⟩ :: below := by
  have hfeeds := feeds_of_eq hfed
  clear hfed
  generalize hends : Outcome.shifted after = outcome at hfeeds
  induction hfeeds with
  | @shift _ next stack haction =>
    exact ⟨stack, next, h, rfl, haction, Outcome.shifted.inj hends⟩
  | reduce haction hreduce _ ih =>
    obtain ⟨hreduced, hwords⟩ := h.reduce haction hreduce
    obtain ⟨below, next, hbelow, hsame, hshift⟩ := ih hreduced hends
    exact ⟨below, next, hbelow, hsame.trans hwords, hshift⟩
  | spent | accept | refuse | short => cases hends

theorem reduction_for {state : Nat} (h : action? state kind = some (.reduce production)) :
    ∃ entry ∈ (rowOf state).reductions, entry.2.contains kind = true ∧
      productions[entry.1]? = some production := by
  unfold action? at h
  split at h
  · cases h
  · split at h
    · cases h
    · split at h
      · rename_i entry hentry
        obtain ⟨found, hfound, hsame⟩ := Option.map_eq_some_iff.mp h
        cases hsame
        have hlookahead := List.find?_some hentry
        exact ⟨entry, List.mem_of_find?_eq_some hentry, hlookahead, hfound⟩
      · cases h

/-- A reduction that a word brings about leads to where it is awaited. -/
theorem Sound.carried (h : Sound stack) (hcarried : carriedOn kind apart = true)
    (hend : kind ≠ .endOfText) (hcarries : carries kind stack.state = true)
    (haction : action? stack.state kind = some (.reduce production))
    (hreduce : stack.reduce? production = some below) :
    carries kind below.state = true ∨ apart below.state = true := by
  obtain ⟨entry, hentry, hlookahead, hproduction⟩ := reduction_for haction
  have hrow := row_of_action (Option.isSome_of_eq_some haction) hend
  simp only [carriedOn, List.all_eq_true] at hcarried
  have hchecked := hcarried _ hrow
  simp only [hcarries, Bool.not_true, Bool.false_or, List.all_eq_true] at hchecked
  have hlands := hchecked entry hentry
  rw [hlookahead, hproduction, Bool.not_true, Bool.false_or] at hlands
  obtain ⟨next, hnext, hgood⟩ := h.landsOn hlands
  obtain ⟨next', hnext', rfl⟩ := reduce?_eq hreduce
  rw [List.length_reverse] at hnext
  obtain rfl := Option.some.inj (hnext.symm.trans hnext')
  exact Bool.or_eq_true_iff.mp hgood

/-- So the word is taken in, if no stack with the same words stands where it is set apart. -/
theorem Sound.feedWithin_carried (h : Sound stack) (hcarried : carriedOn token.kind apart = true)
    (hend : token.kind ≠ .endOfText) (hcarries : carries token.kind stack.state = true)
    (hapart : ∀ other : Stack, Sound other → other.words = stack.words → apart other.state = false)
    {fuel : Nat} (hfuel : stack.load < fuel) :
    ∃ after, stack.feedWithin fuel token = .shifted after := by
  induction fuel generalizing stack with
  | zero => omega
  | succ fuel ih =>
    have hsome : (action? stack.state token.kind).isSome = true := by
      simp only [carries, Bool.and_eq_true] at hcarries
      exact hcarries.1.1
    obtain ⟨action, haction⟩ := Option.isSome_iff_exists.mp hsome
    unfold feedWithin
    cases action with
    | shift next => exact ⟨_, by rw [haction]⟩
    | accept => exact absurd (action_accept haction).2 hend
    | reduce production =>
      obtain ⟨below, hreduce⟩ := Option.isSome_iff_exists.mp (h.reduce?_isSome haction)
      obtain ⟨hbelow, hwords⟩ := h.reduce haction hreduce
      have hless := h.load_lt haction hreduce
      have hon := (h.carried hcarried hend hcarries haction hreduce).resolve_right
        (by simp [hapart below hbelow hwords])
      simp only [haction, hreduce]
      exact ih hbelow hon (fun other hother hsame => hapart other hother (hsame.trans hwords))
        (by omega)

theorem Sound.feed_carried (h : Sound stack) (hcarried : carriedOn token.kind apart = true)
    (hend : token.kind ≠ .endOfText) (hcarries : carries token.kind stack.state = true)
    (hapart : ∀ other : Stack, Sound other → other.words = stack.words →
      apart other.state = false) : ∃ after, stack.feed token = .shifted after := by
  have hload := h.load_le
  exact h.feedWithin_carried hcarried hend hcarries hapart (by omega)

/-- Behind a separator whatever begins a statement is taken in. -/
theorem Sound.feed_beginning (h : Sound stack) (hstate : stack.state = behindSeparator)
    (hbegins : token.kind ∈ Nonterminal.beginnings .statement) :
    ∃ after, stack.feed token = .shifted after := by
  have hcarried := beginnings_carried
  simp only [List.all_eq_true, Bool.and_eq_true] at hcarried
  obtain ⟨hcarries, hon⟩ := hcarried token.kind hbegins
  refine h.feed_carried hon ?_ (hstate ▸ hcarries) fun _ _ _ => rfl
  rintro hend
  rw [hend] at hbegins
  exact absurd hbegins (by decide)

/-- Where a square bracket is open and its closer is awaited, the closer is taken in. -/
theorem Sound.feed_bracket (h : Sound stack) (hkind : token.kind = .rightBracket)
    (hcarries : carries .rightBracket stack.state = true)
    (hopen : openAfter (stack.words.map (·.kind)) = some brackets)
    (hscope : brackets.head? = some .leftBracket) : ∃ after, stack.feed token = .shifted after := by
  have hapart : ∀ other : Stack, Sound other → other.words = stack.words →
      enclosedBy (· ≠ some .leftBracket) 0 8 other.state = false := by
    intro other hother hsame
    refine Bool.eq_false_iff.mpr fun henclosed => ?_
    exact of_decide_eq_true (hother.enclosed (hsame ▸ hopen) henclosed) hscope
  exact h.feed_carried (hkind ▸ closers_carried) (by simp [hkind]) (hkind ▸ hcarries) hapart

/-- Where no brace is open a semicolon leads behind a separator, and where it does so within a
scope, the bracket that closes the scope is awaited as well. -/
theorem Sound.shift_separator {next : Nat} (h : Sound stack)
    (hshift : action? stack.state .semicolon = some (.shift next))
    (hopen : openAfter (stack.words.map (·.kind)) = some brackets)
    (hbrace : brackets.head? ≠ some .leftBrace) :
    next = behindSeparator ∧
      (brackets.head? = some .leftBracket → carries .rightBracket stack.state = true) := by
  have hrow := row_of_action (Option.isSome_of_eq_some hshift) (by simp)
  have hchecked := List.all_eq_true.mp separators_shifted _ hrow
  have hlookup : (rowOf stack.state).shifts.lookup .semicolon = some next := action_shift hshift
  simp only [hlookup] at hchecked
  split at hchecked
  · rename_i hnext
    refine ⟨hnext, fun hscope => ?_⟩
    refine (Bool.or_eq_true_iff.mp hchecked).resolve_right fun henclosed => ?_
    exact of_decide_eq_true (h.enclosed hopen henclosed) hscope
  · exact absurd (of_decide_eq_true (h.enclosed hopen hchecked)) hbrace

/-- A semicolon that is taken in where no brace is open leads behind a separator. Where it is taken
in within a scope, so is the bracket that closes the scope. -/
theorem Sound.feed_separator (h : Sound stack) (hkind : token.kind = .semicolon)
    (hfed : stack.feed token = .shifted after)
    (hopen : openAfter (stack.words.map (·.kind)) = some brackets)
    (hbrace : brackets.head? ≠ some .leftBrace) :
    after.state = behindSeparator ∧ ∀ closer : Token, closer.kind = .rightBracket →
      brackets.head? = some .leftBracket →
        ∃ below closed : Stack, Sound below ∧ below.words = stack.words ∧
          below.feed closer = .shifted closed := by
  obtain ⟨below, next, hbelow, hwords, hshift, rfl⟩ := h.feedWithin_shifts hfed
  rw [← hwords] at hopen
  obtain ⟨hnext, hcarries⟩ := hbelow.shift_separator (hkind ▸ hshift) hopen hbrace
  refine ⟨hnext, fun closer hcloser hscope => ?_⟩
  obtain ⟨closed, hclosed⟩ := hbelow.feed_bracket hcloser (hcarries hscope) hopen hscope
  exact ⟨below, closed, hbelow, hwords, hclosed⟩

/-- Where a semicolon is awaited and no brace could close, none is open. -/
theorem Sound.unbraced (h : Sound stack) (hawaited : (action? stack.state .semicolon).isSome = true)
    (hcloses : action? stack.state .rightBrace = none) :
    ∃ brackets, openAfter (stack.words.map (·.kind)) = some brackets ∧
      brackets.head? ≠ some .leftBrace := by
  have hchecked := List.all_eq_true.mp separators_unbraced _ (row_of_action hawaited (by simp))
  simp only [Option.isNone_eq_false_iff.mpr hawaited, hcloses, Option.isSome_none,
    Bool.false_or] at hchecked
  obtain ⟨brackets, hbrackets⟩ := Option.isSome_iff_exists.mp h.openAfter_isSome
  exact ⟨brackets, hbrackets, of_decide_eq_true (h.enclosed hbrackets hchecked)⟩

end Stack

end RecipeGraph.Grammar
