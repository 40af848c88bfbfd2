import RecipeGraph.Proofs.Building
import RecipeGraph.Proofs.Gaps
import RecipeGraph.Proofs.Pairing

/-!
Words that are written down and read again. If the words of a recipe are written one after the
other, with blanks between them or none where they do not run together, the text is read as these
words. In no state of the automaton a word that is awaited could be taken for another one that is.
-/
namespace RecipeGraph.Source

open Grammar Recipe Relation

/-- The characters write the words down, one after the other, with blanks between some of them. -/
inductive Spelled : List Token → List Char → Prop
  | nil : Spelled [] []
  | blank {tokens : List Token} {rest : List Char} (h : Spelled tokens rest)
      (hrest : ∀ c ∈ rest.head?, isBlankChar c = false) : Spelled tokens (' ' :: rest)
  | word {token : Token} {tokens : List Token} {rest : List Char} (h : Spelled tokens rest)
      (hspells : Spells token.kind token.text.toList) (hends : Ends token.kind rest) :
      Spelled (token :: tokens) (token.text.toList ++ rest)

/-- A word that some state has an action for means something, and is not taken for another one
there. -/
theorem awaited_apart : (rows.zipIdx.all fun row => Terminal.lexical.all fun kind =>
    (action? row.2 kind).isNone || !kind.isSkipped && (triedBefore kind).all fun other =>
      !overlaps other kind || !Reader.allows row.2 other) = true := by
  decide +kernel

section Reading

variable {state : Nat} {kind : Terminal} {reader : Reader} {word rest : List Char}

theorem apart_of_action (hkind : kind ∈ Terminal.lexical)
    (haction : (action? state kind).isSome = true) : kind.isSkipped = false ∧
      ∀ other ∈ triedBefore kind, overlaps other kind = true →
        Reader.allows state other = false := by
  rcases rowOf_cases state with hnone | hrow
  · unfold action? at haction
    rw [hnone] at haction
    split at haction
    · rename_i hend
      rw [hend.2] at hkind
      exact absurd hkind (by decide)
    · simp at haction
  · have happart := awaited_apart
    simp only [List.all_eq_true, Bool.or_eq_true, Bool.and_eq_true, Bool.not_eq_true'] at happart
    have hkinds := (happart _ hrow kind hkind).resolve_left (by
      rw [Option.isNone_eq_false_iff.mpr haction]
      simp)
    exact ⟨hkinds.1, fun other hbefore hoverlaps =>
      (hkinds.2 other hbefore).resolve_left (by simp [hoverlaps])⟩

theorem lexical_of_spells (h : Spells kind word) : kind ∈ Terminal.lexical := by
  have hsplit : split? kind word = some (word, []) := h
  exact mem_lexical (show split? kind word ≠ none by simp [hsplit])

/-- A word that is ahead is found if the automaton has an action for it. -/
theorem Reader.found?_awaited (haction : (action? reader.stack.state kind).isSome = true)
    (hspells : Spells kind word) (hends : Ends kind rest)
    (hrest : reader.cursor.rest = word ++ rest) :
    reader.found? = some ⟨kind, word, rest⟩ := by
  have happart := (apart_of_action (lexical_of_spells hspells) haction).2
  unfold Reader.found?
  rw [hrest]
  refine firstMatch?_spelled (by simp [allows, awaits, haction]) hspells hends
    fun other hoverlaps hallowed hbefore => ?_
  rw [happart other hbefore hoverlaps] at hallowed
  cases hallowed

theorem action_of_shifted {stack after : Stack} {token : Token}
    (h : stack.feed token = .shifted after) : (action? stack.state token.kind).isSome = true := by
  by_contra hnone
  rw [Reader.feed_refused (by simpa using hnone)] at h
  cases h

/-- A reader takes in a word that is ahead like an automaton with the same on its stack. -/
theorem Reader.moves_awaited {stack after : Stack} {token : Token}
    (hstack : stack.relabel Token.bare = reader.stack.relabel Token.bare)
    (hfed : stack.feed token = .shifted after) (hspells : Spells token.kind token.text.toList)
    (hends : Ends token.kind rest) (hrest : reader.cursor.rest = token.text.toList ++ rest)
    (hkept : reader.brackets.drops token.kind = false) :
    ∃ after', reader.Moves (reader.handing ⟨token.kind, token.text.toList, rest⟩ after') ∧
      after.relabel Token.bare = after'.relabel Token.bare := by
  have hstate := congrArg Stack.state hstack
  rw [Stack.state_relabel, Stack.state_relabel] at hstate
  have haction := action_of_shifted hfed
  rw [hstate] at haction
  have hpass : reader.passesOver token.kind = false := by
    rw [Reader.passesOver, (apart_of_action (lexical_of_spells hspells) haction).1, hkept]
    rfl
  let found : Match := ⟨token.kind, token.text.toList, rest⟩
  have hword : Token.bare token = Token.bare (reader.wordOf found) := by
    simp [Token.bare, Reader.wordOf, Cursor.token, found]
  have hsame := Stack.feed_congr Token.keepsKind_bare hstack hword
  rw [hfed] at hsame
  cases hfed' : reader.stack.feed (reader.wordOf found) with
  | shifted after' =>
    rw [hfed'] at hsame
    have hfound := Reader.found?_awaited haction hspells hends hrest
    exact ⟨after', Reader.StepTo.moves hfound (.handing hpass hfed'),
      Stack.Outcome.shifted.inj hsame⟩
  | accepted tree => simp [hfed', Stack.Outcome.relabel] at hsame
  | refused state => simp [hfed', Stack.Outcome.relabel] at hsame

/-- So it takes in all the words that are ahead. -/
theorem Spelled.read {chars : List Char} {tokens : List Token} (h : Spelled tokens chars)
    {stack : Stack} {ending : Token} {derivation : Derivation} (hchars : reader.cursor.rest = chars)
    (hkept : reader.brackets.KeepsAll tokens)
    (hstack : stack.relabel Token.bare = reader.stack.relabel Token.bare)
    (hending : ending.kind = .endOfText) (hdriven : stack.drive ending tokens = some derivation) :
    ∃ last derivation', ReflTransGen Reader.Moves reader last ∧ last.cursor.rest = [] ∧
      last.stack.feed last.endToken = .accepted derivation' ∧
      derivation.relabel Token.bare = derivation'.relabel Token.bare := by
  induction h generalizing reader stack with
  | nil =>
    unfold Stack.drive at hdriven
    cases hfed : stack.feed ending with
    | accepted tree =>
      simp only [hfed, Option.some.injEq] at hdriven
      subst hdriven
      obtain ⟨derivation', haccepted, hsame⟩ := Stack.feed_accepted_congr Token.keepsKind_bare
        (hending.trans reader.endToken_kind.symm) hstack hfed
      exact ⟨reader, derivation', .refl, hchars, haccepted, hsame⟩
    | shifted after => simp [hfed] at hdriven
    | refused state => simp [hfed] at hdriven
  | @blank tokens rest _ hrest ih =>
    have hfound : reader.found? = some ⟨.blank, [' '], rest⟩ :=
      Reader.found?_blank hchars (by simp) (List.forall_mem_singleton.mpr rfl) hrest (by simp)
    have hpassed : (reader.passing ⟨.blank, [' '], rest⟩).cursor.rest = rest := rfl
    obtain ⟨last, derivation', hsteps, hresult⟩ := ih hpassed hkept hstack hdriven
    exact ⟨last, derivation', hsteps.head (Reader.StepTo.moves hfound (.passing rfl)), hresult⟩
  | @word token tokens rest _ hspells hends ih =>
    unfold Stack.drive at hdriven
    cases hfed : stack.feed token with
    | shifted after =>
      simp only [hfed] at hdriven
      obtain ⟨after', hmoves, hsame⟩ :=
        Reader.moves_awaited hstack hfed hspells hends hchars hkept.1
      let next := reader.handing ⟨token.kind, token.text.toList, rest⟩ after'
      have hhanded : next.cursor.rest = rest := rfl
      obtain ⟨last, derivation', hsteps, hresult⟩ := ih hhanded hkept.2 hsame hdriven
      exact ⟨last, derivation', hsteps.head hmoves, hresult⟩
    | accepted tree => simp [hfed] at hdriven
    | refused state => simp [hfed] at hdriven

/-- A text that writes down the words of a recipe is read as these words. -/
theorem derive_spelled {text : String} {tokens : List Token} {derivation : Derivation}
    (haccepted : accept? tokens = some derivation) (h : Spelled tokens text.toList) :
    ∃ derivation', derive text = .ok derivation' ∧
      derivation.relabel Token.bare = derivation'.relabel Token.bare := by
  obtain ⟨hwell, hsymbol, rfl⟩ := accept?_eq_some.mp haccepted
  obtain ⟨ending, hending, hdriven⟩ := (Reader.start "").readAll_driven derivation.tokens
  rw [show (Reader.start "").readAll derivation.tokens = some derivation from haccepted] at hdriven
  have hkept : (Reader.start text).brackets.KeepsAll derivation.tokens :=
    (derivation.keeps_words hwell hsymbol fun _ => rfl).2
  have hstart : (Reader.start text).cursor.rest = text.toList := rfl
  obtain ⟨last, derivation', hsteps, hend, hfed, hsame⟩ :=
    h.read hstart hkept rfl hending hdriven.symm
  exact ⟨derivation', derive_iff.mpr ⟨last, hsteps, hend, hfed⟩, hsame⟩

end Reading

end RecipeGraph.Source
