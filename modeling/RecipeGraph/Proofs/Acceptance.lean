import RecipeGraph.Proofs.Driving
import RecipeGraph.Proofs.Patterns
import RecipeGraph.Source.Reader

/-!
What the reader accepts. Fed with any words and then the end of the text, it accepts exactly those
that the grammar derives, and then it has found their only derivation.
-/
namespace RecipeGraph.Source

open Grammar

namespace Reader

/-- What comes of some words, whatever the text they are in, and then of its end. -/
def readAll : Reader → List Token → Option Derivation
  | reader, [] =>
      match reader.feed reader.endToken with
      | .done tree => some tree
      | _ => none
  | reader, token :: rest =>
      match reader.feed token with
      | .next reader => readAll reader rest
      | _ => none

section Reading

variable {reader next : Reader} {token : Token} {derivation : Derivation}

theorem endToken_kind (reader : Reader) : reader.endToken.kind = .endOfText := by
  unfold endToken
  cases reader.last <;> rfl

/-- The reader drives the automaton. -/
theorem readAll_driven (reader : Reader) (tokens : List Token) :
    ∃ ending : Token, ending.kind = .endOfText ∧
      reader.readAll tokens = Stack.drive ending reader.stack tokens := by
  induction tokens generalizing reader with
  | nil =>
    refine ⟨reader.endToken, reader.endToken_kind, ?_⟩
    unfold readAll feed Stack.drive
    cases reader.stack.feed reader.endToken <;> rfl
  | cons token rest ih =>
    cases hfed : reader.stack.feed token with
    | shifted stack =>
      obtain ⟨ending, hkind, hdriven⟩ := ih { reader with stack := stack, last := some token }
      refine ⟨ending, hkind, ?_⟩
      unfold readAll feed Stack.drive
      rw [hfed]
      exact hdriven
    | accepted tree =>
      refine ⟨reader.endToken, reader.endToken_kind, ?_⟩
      unfold readAll feed Stack.drive
      rw [hfed]
    | refused state =>
      refine ⟨reader.endToken, reader.endToken_kind, ?_⟩
      unfold readAll feed Stack.drive
      rw [hfed]

/-- What comes of words does not depend on where in the text they are. -/
theorem readAll_moved (reader : Reader) (cursor : Cursor) (brackets : Brackets)
    (tokens : List Token) :
    { reader with cursor := cursor, brackets := brackets }.readAll tokens =
      reader.readAll tokens := by
  induction tokens generalizing reader with
  | nil =>
    have hending : { reader with cursor := cursor, brackets := brackets }.endToken =
        reader.endToken := rfl
    unfold readAll feed
    rw [hending]
    cases reader.stack.feed reader.endToken <;> rfl
  | cons token rest ih =>
    unfold readAll feed
    cases hfed : reader.stack.feed token with
    | shifted stack => exact ih { reader with stack := stack, last := some token }
    | accepted tree => rfl
    | refused state => rfl

theorem feed_next (h : reader.feed token = .next next) :
    ∃ stack, reader.stack.feed token = .shifted stack ∧
      next = { reader with stack := stack, last := some token } := by
  unfold feed at h
  cases hfed : reader.stack.feed token with
  | shifted stack =>
    rw [hfed] at h
    exact ⟨stack, rfl, (Progress.next.inj h).symm⟩
  | accepted tree => simp [hfed] at h
  | refused state => simp [hfed] at h

theorem feed_accepted (h : reader.feed token = .done derivation) :
    reader.stack.feed token = .accepted derivation := by
  unfold feed at h
  cases hfed : reader.stack.feed token with
  | shifted stack => simp [hfed] at h
  | accepted tree => simpa [hfed] using h
  | refused state => simp [hfed] at h

theorem feed_failed {rejection : Rejection} (h : reader.feed token = .failed rejection) :
    ∃ state, reader.stack.feed token = .refused state ∧
      rejection = .word token (expectedIn state) := by
  unfold feed at h
  cases hfed : reader.stack.feed token with
  | shifted stack => simp [hfed] at h
  | accepted tree => simp [hfed] at h
  | refused state =>
    rw [hfed] at h
    exact ⟨state, rfl, (Progress.failed.inj h).symm⟩

theorem feed_done (h : reader.feed token = .done derivation) : token.kind = .endOfText :=
  Stack.feedWithin_accepted (feed_accepted h)

theorem readAll_next (h : reader.feed token = .next next) (rest : List Token) :
    reader.readAll (token :: rest) = next.readAll rest := by
  rw [readAll, h]

theorem firstMatch_kind {allowed : Terminal → Bool} {chars : List Char} {found : Match}
    (h : firstMatch? allowed chars = some found) : found.kind ≠ .endOfText := by
  unfold firstMatch? at h
  obtain ⟨kind, hin, hfound⟩ := List.exists_of_findSome?_eq_some h
  split at hfound
  · obtain ⟨split, -, rfl⟩ := Option.map_eq_some_iff.mp hfound
    rintro rfl
    simp [Terminal.lexical] at hin
  · cases hfound

/-- Reading a text comes to reading some words. -/
theorem run_reads {steps : Nat} (h : reader.run steps = .ok derivation) :
    ∃ tokens, reader.readAll tokens = some derivation := by
  induction steps generalizing reader with
  | zero => cases h
  | succ steps ih =>
    unfold run step at h
    cases hrest : reader.cursor.rest with
    | nil =>
      simp only [hrest] at h
      cases hfed : reader.feed reader.endToken with
      | next after =>
        simp only [hfed] at h
        obtain ⟨tokens, htokens⟩ := ih h
        exact ⟨reader.endToken :: tokens, (readAll_next hfed tokens).trans htokens⟩
      | done tree =>
        simp only [hfed, Except.ok.injEq] at h
        subst h
        refine ⟨[], ?_⟩
        rw [readAll, hfed]
      | failed rejection => simp [hfed] at h
    | cons c rest =>
      simp only [hrest] at h
      cases hmatch : firstMatch? (allows reader.stack.state) (c :: rest) with
      | none => simp [hmatch] at h
      | some found =>
        simp only [hmatch] at h
        by_cases hskipped : (found.kind.isSkipped || reader.brackets.drops found.kind) = true
        · simp only [hskipped, if_true] at h
          obtain ⟨tokens, htokens⟩ := ih h
          exact ⟨tokens, (reader.readAll_moved _ _ tokens).symm.trans htokens⟩
        · simp only [hskipped, if_false, Bool.false_eq_true] at h
          generalize hmoved : ({ reader with
            cursor := reader.cursor.advance found
            brackets := reader.brackets.pass found.kind } : Reader) = moved at h
          cases hfed : moved.feed (reader.cursor.token found.kind found.word) with
          | next after =>
            simp only [hfed] at h
            obtain ⟨tokens, htokens⟩ := ih h
            refine ⟨reader.cursor.token found.kind found.word :: tokens, ?_⟩
            rw [← readAll_next hfed, ← hmoved, readAll_moved] at htokens
            exact htokens
          -- No word of a text is its end, and nothing else makes the automaton accept.
          | done tree => exact absurd (feed_done hfed) (firstMatch_kind hmatch)
          | failed rejection => simp [hfed] at h

end Reading

end Reader

/-- The derivation that is accepted for some words. -/
def accept? (tokens : List Token) : Option Derivation :=
  (Reader.start "").readAll tokens

/-- A recipe, in the grammar as it is written. -/
abbrev recipe : Pattern :=
  .name (.rule .recipe)

section Acceptance

variable {tokens : List Token} {derivation : Derivation} {text : String}

theorem readAll_start (text : String) (tokens : List Token) :
    (Reader.start text).readAll tokens = accept? tokens :=
  (Reader.start "").readAll_moved { rest := text.toList } [] tokens

/-- The automaton finds the derivations of the expanded grammar and no others. -/
theorem accept?_eq_some : accept? tokens = some derivation ↔
    derivation.Wellformed ∧ derivation.symbol = .nonterminal (.rule .recipe) ∧
      derivation.tokens = tokens := by
  obtain ⟨ending, hending, hdriven⟩ := (Reader.start "").readAll_driven tokens
  unfold accept?
  rw [hdriven]
  constructor
  · intro h
    exact Stack.Sound.drive_sound .empty h
  · rintro ⟨hwell, hsymbol, rfl⟩
    exact Stack.drive_complete hending hwell hsymbol

/-- A text that is read has words that are accepted, with the same derivation. -/
theorem derive_accepted (h : derive text = .ok derivation) :
    accept? derivation.tokens = some derivation := by
  obtain ⟨tokens, htokens⟩ := Reader.run_reads h
  rw [readAll_start] at htokens
  obtain ⟨-, -, rfl⟩ := accept?_eq_some.mp htokens
  exact htokens

theorem recipe_clear : recipe.isClear = true := rfl

/-- A reading of a recipe is accepted. -/
theorem accept_reading (reading : Reading recipe) :
    ∃ derivation, accept? reading.tokens = some derivation ∧
      reading.derivations = [derivation] := by
  obtain ⟨hsymbols, hwell⟩ := reading.derivations_sound recipe_clear
  obtain ⟨derivation, hderivation, hsymbol⟩ :=
    map_symbol_singleton (List.mem_singleton.mp hsymbols)
  have htokens := reading.tokensOfAll_derivations
  rw [hderivation] at hwell htokens
  simp only [Derivation.tokensOfAll, List.append_nil] at htokens
  exact ⟨derivation, accept?_eq_some.mpr ⟨hwell.1, hsymbol, htokens⟩, hderivation⟩

/-- What is accepted has a reading. -/
theorem reading_of_accepted (h : accept? tokens = some derivation) :
    ∃ reading : Reading recipe, reading.tokens = tokens ∧
      reading.derivations = [derivation] := by
  obtain ⟨hwell, hsymbol, rfl⟩ := accept?_eq_some.mp h
  obtain ⟨reading, hreading⟩ := (derivation.readable hwell).1 (.rule .recipe) hsymbol
  have htokens := reading.tokensOfAll_derivations
  rw [hreading] at htokens
  simp only [Derivation.tokensOfAll, List.append_nil] at htokens
  exact ⟨reading, htokens.symm, hreading⟩

/-- Words are accepted if and only if they are derived from a recipe in the grammar as it is
written. They have only one derivation in it, and one in the expanded grammar, and the tree that is
built is the tree of it. -/
theorem accepts_exactly_the_grammar (tokens : List Token) :
    ((∃ derivation, accept? tokens = some derivation) ↔
      ∃ reading : Reading recipe, reading.tokens = tokens) ∧
    (∀ reading other : Reading recipe,
      reading.tokens = tokens → other.tokens = tokens → reading = other) ∧
    ∀ derivation, accept? tokens = some derivation →
      (∀ other : Derivation,
        (other.Wellformed ∧ other.symbol = .nonterminal (.rule .recipe) ∧ other.tokens = tokens) ↔
          other = derivation) ∧
      ∀ reading : Reading recipe, reading.tokens = tokens → derivation.trees = reading.trees := by
  refine ⟨⟨?_, ?_⟩, ?_, ?_⟩
  · rintro ⟨derivation, h⟩
    obtain ⟨reading, htokens, -⟩ := reading_of_accepted h
    exact ⟨reading, htokens⟩
  · rintro ⟨reading, rfl⟩
    obtain ⟨derivation, h, -⟩ := accept_reading reading
    exact ⟨derivation, h⟩
  · rintro reading other rfl htokens
    obtain ⟨derivation, h, hreading⟩ := accept_reading reading
    obtain ⟨derivation', h', hother⟩ := accept_reading other
    rw [htokens, h, Option.some.injEq] at h'
    subst h'
    exact reading.derivations_injective recipe_clear other (hreading.trans hother.symm)
  · intro derivation h
    refine ⟨fun other => ?_, ?_⟩
    · rw [← accept?_eq_some, h, Option.some.injEq, eq_comm]
    · rintro reading rfl
      obtain ⟨derivation', h', hreading⟩ := accept_reading reading
      rw [h, Option.some.injEq] at h'
      subst h'
      have htrees := reading.treesOfAll_derivations recipe_clear
      rw [hreading] at htrees
      simpa only [Derivation.treesOfAll, List.append_nil] using htrees

/-- A name may go on after a dot, but it may not end with one. -/
example :
    let word : Terminal → Token := fun kind => ⟨kind, "", 0, 0, 1, 1⟩
    (accept? [word .identifier, word .dot, word .identifier]).isSome = true ∧
      (accept? [word .identifier, word .dot]).isSome = false := by
  decide +kernel

end Acceptance

end RecipeGraph.Source
