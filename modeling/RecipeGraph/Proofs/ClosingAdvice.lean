import RecipeGraph.Proofs.Locations
import RecipeGraph.Proofs.OpenBrackets

/-!
Whether the bracket that is said to be missing is the right one. At the end of a text a state of the
automaton awaits only that closer which the innermost open bracket needs, although it was reached by
reductions that a merged lookahead brought about. So the first closer among those that are awaited
is the only one, and the one to be named.
-/
namespace RecipeGraph.Grammar

open Source

/-- A state that does not take the end of the text awaits no closer but that of the bracket which is
left open on every way back. -/
theorem closers_awaited : (rows.zipIdx.all fun row => (action? row.2 .endOfText).isSome ||
    [Terminal.rightParen, .rightBrace, .rightBracket].all fun closer =>
      (action? row.2 closer).isNone ||
        enclosedBy (fun opener => opener.bind Brackets.closerOf? = some closer) 0 8 row.2) =
          true := by
  decide +kernel

theorem Stack.Sound.closed_by {stack : Stack} {closer : Terminal} (h : stack.Sound)
    (hend : action? stack.state .endOfText = none) (hcloser : isCloser closer = true)
    (hawaited : (action? stack.state closer).isSome = true) :
    ∃ opener outer, openAfter (stack.words.map (·.kind)) = some (opener :: outer) ∧
      Brackets.closerOf? opener = some closer := by
  have hin : closer ∈ [Terminal.rightParen, .rightBrace, .rightBracket] := by
    simpa [isCloser, or_assoc] using hcloser
  have hword : closer ≠ .endOfText := by
    rintro rfl
    simp at hin
  have hchecked := List.all_eq_true.mp closers_awaited _ (row_of_action hawaited hword)
  simp only [hend, Option.isSome_none, Bool.false_or, List.all_eq_true] at hchecked
  have henclosed := hchecked closer hin
  rw [Option.isNone_eq_false_iff.mpr hawaited, Bool.false_or] at henclosed
  obtain ⟨brackets, hbrackets⟩ := Option.isSome_iff_exists.mp h.openAfter_isSome
  have htest := h.enclosed hbrackets henclosed
  cases brackets with
  | nil => simp at htest
  | cons opener outer => exact ⟨opener, outer, hbrackets, of_decide_eq_true htest⟩

end RecipeGraph.Grammar

namespace RecipeGraph.Source

open Grammar Relation Text

namespace Reader

/-- What stops a reader at a word: the end of the text, a word that was awaited but is refused after
some reductions, or one that was not awaited. -/
inductive Fails (reader : Reader) : Token → List Terminal → Prop
  | ending {state : Nat} (hrest : reader.cursor.rest = [])
      (hfed : reader.stack.feed reader.endToken = .refused state) :
      Fails reader reader.endToken (expectedIn state)
  | refused {found : Match} {state : Nat} (hfound : reader.found? = some found)
      (hpass : reader.passesOver found.kind = false)
      (hfed : reader.stack.feed (reader.wordOf found) = .refused state) :
      Fails reader (reader.wordOf found) (expectedIn state)
  | stray {found : Match} (hnone : reader.found? = none)
      (hany : firstMatch? (fun _ => true) reader.cursor.rest = some found) :
      Fails reader (reader.cursor.token (nameFor found.kind found.word) found.word)
        (Terminal.lexical.filter (awaits reader.stack.state))

section Failing

variable {reader : Reader} {token : Token} {expected : List Terminal}

theorem step_word_failed (h : reader.step = .failed (.word token expected)) :
    reader.Fails token expected := by
  cases hfound : reader.found? with
  | some found =>
    rw [step_found hfound] at h
    cases hpass : reader.passesOver found.kind with
    | true => simp [hpass] at h
    | false =>
      simp only [hpass, Bool.false_eq_true, if_false] at h
      obtain ⟨state, hfed, hsame⟩ := feed_failed h
      obtain ⟨rfl, rfl⟩ := Rejection.word.inj hsame
      exact .refused hfound hpass hfed
  | none =>
    cases hrest : reader.cursor.rest with
    | nil =>
      rw [step_end hrest] at h
      obtain ⟨state, hfed, hsame⟩ := feed_failed h
      obtain ⟨rfl, rfl⟩ := Rejection.word.inj hsame
      exact .ending hrest hfed
    | cons c tail =>
      rw [step_stray hfound hrest, Progress.failed.injEq] at h
      unfold stray at h
      dsimp only at h
      split at h
      · rename_i found hany
        obtain ⟨rfl, rfl⟩ := Rejection.word.inj h
        exact .stray hfound hany
      · cases h

theorem nameFor_kind {kind : Terminal} (hkind : kind ≠ .endOfText) (chars : List Char) :
    nameFor kind chars ≠ .endOfText := by
  unfold nameFor
  split
  · rename_i c
    cases hmark : Terminal.lexical.find? fun mark => mark.mark? = some c with
    | none => exact hkind
    | some mark =>
      have hmarked := List.find?_some hmark
      rintro rfl
      exact absurd (of_decide_eq_true hmarked) (by simp [Terminal.mark?])
  · exact hkind

/-- A word that has characters is not the end of the text. -/
theorem Fails.ended (h : reader.Fails token expected)
    (hend : token.text = "" ∨ token.kind = .endOfText) : reader.cursor.rest = [] ∧
      ∃ state, reader.stack.feed reader.endToken = .refused state ∧
        expected = expectedIn state := by
  have hword : ∀ {allowed : Terminal → Bool} {found : Match} {kind : Terminal},
      firstMatch? allowed reader.cursor.rest = some found → kind ≠ .endOfText →
      ¬ ((reader.cursor.token kind found.word).text = "" ∨
        (reader.cursor.token kind found.word).kind = .endOfText) := by
    rintro allowed found kind hfound hkind (htext | hkind')
    · refine (taken_of_split (firstMatch?_iff.mp hfound).2.1).nonempty ?_
      simpa [Cursor.token] using htext
    · exact hkind hkind'
  cases h with
  | ending hrest hfed => exact ⟨hrest, _, hfed, rfl⟩
  | refused hfound hpass hfed => exact absurd hend (hword hfound (firstMatch_kind hfound))
  | stray hnone hany =>
    exact absurd hend (hword hany (nameFor_kind (firstMatch_kind hany) _))

end Failing

end Reader

/-- The word of a rejection as it is complained about. -/
def wordFor (token : Token) : Word :=
  ⟨token.kind.name, token.text, token.line, token.column⟩

/-- How a fault is told of: advice on a word or on a character, with the place where the fault
starts. -/
inductive Fault.Told (text filename : String) (fault : Fault) : Prop
  | word {token : Token} {expected : List Terminal}
      (hderive : derive text = .error (.word token expected))
      (hstart : fault.extent.start = token.start)
      (hplace : Advice.placeText filename token.line token.column =
        placeNamed text filename fault.extent.start)
      (hmessage : fault.message =
        Advice.forWord (wordFor token) (expected.map (·.name)) text filename)
  | character {c : Char} {offset line column : Nat}
      (hderive : derive text = .error (.character c offset line column))
      (hstart : fault.extent.start = offset)
      (hplace : Advice.placeText filename line column =
        placeNamed text filename fault.extent.start)
      (hmessage : fault.message = Advice.forCharacter c line column text filename)

theorem parse_told {text filename : String} {fault : Fault}
    (h : parse text filename = .error fault) : fault.Told text filename := by
  unfold parse at h
  cases hderive : derive text with
  | ok derivation =>
    simp only [hderive] at h
    split at h <;> cases h
  | error rejection =>
    simp only [hderive, Except.error.injEq] at h
    subst h
    have hlocated := derive_located hderive
    cases rejection with
    | word token expected =>
      have hplace : Token.Located text token := hlocated
      exact .word hderive rfl (placeText_at hplace.place) rfl
    | character c offset line column =>
      have hplace : At text offset line column := hlocated
      exact .character hderive rfl (placeText_at hplace) rfl

/-- After the place a message says something, and then perhaps more. -/
def Says (place said message : String) : Prop :=
  ∃ told, message = "error: " ++ place ++ said ++ told

section Messages

variable {place said said' message : String}

/-- Two things that a message says after the place agree as far as both of them go. -/
theorem Says.same (h : Says place said message) (h' : Says place said' message) {index : Nat}
    (hindex : index < said.toList.length) (hindex' : index < said'.toList.length) :
    said.toList[index]? = said'.toList[index]? := by
  obtain ⟨told, rfl⟩ := h
  obtain ⟨told', hsame⟩ := h'
  have hchars := congrArg String.toList hsame
  simp only [String.toList_append, List.append_assoc, List.append_cancel_left_eq] at hchars
  rw [← List.getElem?_append_left hindex, hchars, List.getElem?_append_left hindex']

theorem says_missingStyleValue (place line : String) : Says place
    ": Style property is missing its value.\n" (Advice.missingStyleValue place line) :=
  ⟨_, by unfold Advice.missingStyleValue; simp only [String.append_assoc]; rfl⟩

theorem says_missingSeparator (place line : String) (word : Word) :
    Says place ": Unexpected " (Advice.missingSeparator place word line) :=
  ⟨_, by unfold Advice.missingSeparator; simp only [String.append_assoc]; rfl⟩

theorem says_unexpectedWord (place line : String) (word : Word) (around expected : List String) :
    Says place ": Unexpected " (Advice.unexpectedWord place word line around expected) :=
  ⟨_, by unfold Advice.unexpectedWord; simp only [String.append_assoc]; rfl⟩

theorem says_unclosedString (place line quote : String) (column : Int) : Says place
    ": String literal is never closed.\n" (Advice.unclosedString place line column quote) :=
  ⟨_, by unfold Advice.unclosedString; simp only [String.append_assoc]; rfl⟩

theorem says_unexpectedCharacter (place line : String) (c : Char) (column : Int) : Says place
    ": Unexpected character " (Advice.unexpectedCharacter place c line column) :=
  ⟨_, by unfold Advice.unexpectedCharacter; simp only [String.append_assoc]; rfl⟩

/-- Only one of the messages says that a closer is missing. -/
theorem closer_of_said (word : Word) {expected : List String} {source filename : String}
    (h : Says (Advice.placeText filename word.line word.column)
      ": Input ended before a closing '" (Advice.forWord word expected source filename)) :
    Advice.kindForAdvice word = "$END" ∧
      ∃ closer, Advice.missingCloser? (Advice.relevant expected) = some closer ∧
        Advice.forWord word expected source filename =
          Advice.unclosed (Advice.placeText filename word.line word.column) closer
            (Advice.lineNumbered source word.line) := by
  have hapart : ∀ {said : String}, 2 < said.toList.length → said.toList[2]? ≠ some 'I' →
      ¬ Says (Advice.placeText filename word.line word.column) said
        (Advice.forWord word expected source filename) := by
    intro said hlength hother hsaid
    exact hother (hsaid.same h hlength (by decide))
  unfold Advice.forWord at h hapart ⊢
  dsimp only at h hapart ⊢
  split
  · rename_i closer hcloser
    split at hcloser
    · rename_i hkind
      exact ⟨hkind, closer, hcloser, rfl⟩
    · cases hcloser
  · rename_i hnone
    simp only [hnone] at hapart
    exfalso
    split at hapart
    · exact hapart (by decide) (by decide) (says_missingStyleValue _ _)
    · split at hapart
      · exact hapart (by decide) (by decide) (says_missingSeparator _ _ _)
      · exact hapart (by decide) (by decide) (says_unexpectedWord _ _ _ _ _)

theorem not_says_character {c : Char} {line column : Int} {source filename : String} :
    ¬ Says (Advice.placeText filename line column) ": Input ended before a closing '"
      (Advice.forCharacter c line column source filename) := by
  intro h
  unfold Advice.forCharacter at h
  dsimp only at h
  split at h
  · have hsame := (says_unclosedString _ _ _ _).same h (show 2 < _ by decide) (by decide)
    exact absurd hsame (by decide)
  · have hsame := (says_unexpectedCharacter _ _ _ _).same h (show 2 < _ by decide) (by decide)
    exact absurd hsame (by decide)

end Messages

section Naming

variable {expected : List Terminal} {closer : String}

/-- Terminals are known by their names. -/
theorem name_inj {kind other : Terminal} (h : kind.name = other.name) : kind = other := by
  revert h
  cases kind <;> cases other <;> decide

theorem mem_of_relevant {name : String} {names : List String}
    (h : name ∈ Advice.relevant names) : name ∈ names := by
  unfold Advice.relevant at h
  split at h
  · exact h
  · exact (List.mem_filter.mp h).1

/-- The closer that is named is the mark of one that is awaited. -/
theorem mark_of_missingCloser?
    (h : Advice.missingCloser? (Advice.relevant (expected.map (·.name))) = some closer) :
    ∃ kind ∈ expected, isCloser kind = true ∧ ∃ c, kind.mark? = some c ∧ closer = c.toString := by
  have hawaited : ∀ kind : Terminal, kind.name ∈ Advice.relevant (expected.map (·.name)) →
      kind ∈ expected := by
    intro kind hin
    obtain ⟨other, hother, hsame⟩ := List.mem_map.mp (mem_of_relevant hin)
    exact name_inj hsame ▸ hother
  unfold Advice.missingCloser? at h
  split at h
  · rename_i hin
    cases h
    exact ⟨.rightParen, hawaited .rightParen hin, rfl, ')', rfl, rfl⟩
  · split at h
    · rename_i hin
      cases h
      exact ⟨.rightBrace, hawaited .rightBrace hin, rfl, '\x7d', rfl, rfl⟩
    · split at h
      · rename_i hin
        cases h
        exact ⟨.rightBracket, hawaited .rightBracket hin, rfl, ']', rfl, rfl⟩
      · cases h

theorem kind_of_kindForAdvice {token : Token}
    (h : Advice.kindForAdvice (wordFor token) = "$END") :
    token.text = "" ∨ token.kind = .endOfText := by
  unfold Advice.kindForAdvice at h
  split at h
  · rename_i htext
    exact .inl htext
  · exact .inr (name_inj h)

theorem closer_eq {place line told : String} {c d : Char}
    (h : Advice.unclosed place c.toString line = "error: " ++ place ++
      ": Input ended before a closing '" ++ d.toString ++ told) : c = d := by
  have hsingle : ∀ e : Char, e.toString.toList = [e] := String.toList_singleton
  unfold Advice.unclosed at h
  simp only [String.append_assoc, String.append_right_inj] at h
  have hchars := congrArg String.toList h
  simp only [String.toList_append, hsingle, List.singleton_append] at hchars
  exact (List.cons.inj hchars).1

/-- A message that a text ended before some closer names the closer of the innermost bracket that
the words of the text leave open, and the text was read to its end. -/
theorem named_closer_right (text filename told : String) (fault : Fault) (c : Char)
    (h : parse text filename = .error fault)
    (hmessage : fault.message = "error: " ++ placeNamed text filename fault.extent.start ++
      ": Input ended before a closing '" ++ c.toString ++ told) :
    (∃ last ∈ course text, last.cursor.rest = [] ∧ last.stack.words = handed text) ∧
      ∃ opener outer closer,
        openAfter ((handed text).map (·.kind)) = some (opener :: outer) ∧
        Brackets.closerOf? opener = some closer ∧ closer.mark? = some c := by
  have hsaid : Says (placeNamed text filename fault.extent.start)
      ": Input ended before a closing '" fault.message :=
    ⟨c.toString ++ told, by rw [hmessage, String.append_assoc]⟩
  cases parse_told h with
  | character hderive hstart hplace htold =>
    rw [htold, ← hplace] at hsaid
    exact absurd hsaid not_says_character
  | @word token expected hderive hstart hplace htold =>
    rw [← hplace, htold] at hsaid hmessage
    obtain ⟨hkind, closer, hcloser, hadvice⟩ := closer_of_said (wordFor token) hsaid
    obtain ⟨last, hsteps, hfailed⟩ := derive_error hderive
    have hwords := words_handed hsteps fun next hmoves => by
      simp [Reader.Moves, hfailed] at hmoves
    obtain ⟨hrest, state, hfed, rfl⟩ :=
      (Reader.step_word_failed hfailed).ended (kind_of_kindForAdvice hkind)
    refine ⟨⟨last, mem_course.mpr hsteps, hrest, hwords⟩, ?_⟩
    -- The state that refuses the end of the text is that of a stack with the same words.
    obtain ⟨below, hbelow, hsame, hstate, hnone⟩ := (stands_of_steps hsteps).sound.refused hfed
    obtain ⟨closing, hin, hcloses, d, hmark, rfl⟩ := mark_of_missingCloser? hcloser
    have hawaited : (action? below.state closing).isSome = true := by
      rw [hstate]
      exact (List.mem_filter.mp hin).2
    rw [last.endToken_kind, ← hstate] at hnone
    obtain ⟨opener, outer, hopen, hmatches⟩ := hbelow.closed_by hnone hcloses hawaited
    obtain rfl := closer_eq (hadvice.symm.trans hmessage)
    exact ⟨opener, outer, closing, by rw [← hwords, ← hsame, hopen], hmatches, hmark⟩

/-- The bracket of the call is the innermost one, the one of the scope stays open around it. -/
theorem named_closer_right_nested :
    ∃ fault, parse "n[\ng(x); f(a" "r.fiz" = .error fault ∧
      fault.message = Advice.unclosed "r.fiz:2:9" ")" "g(x); f(a" ∧
      ∃ opener outer closer,
        openAfter ((handed "n[\ng(x); f(a").map (·.kind)) = some (opener :: outer) ∧
        Brackets.closerOf? opener = some closer ∧ closer.mark? = some ')' := by
  obtain ⟨fault, hfault⟩ :=
    parse_error_of_isNone "n[\ng(x); f(a" "r.fiz" (by decide +kernel)
  have hread : (match parse "n[\ng(x); f(a" "r.fiz" with
      | .error fault => (fault.message, fault.extent.start)
      | .ok _ => ("", 0)) = (Advice.unclosed "r.fiz:2:9" ")" "g(x); f(a", 11) := by
    decide +kernel
  rw [hfault] at hread
  obtain ⟨hmessage, hstart⟩ := Prod.mk.inj hread
  have hplace : placeNamed "n[\ng(x); f(a" "r.fiz" fault.extent.start = "r.fiz:2:9" := by
    rw [show fault.extent.start = 11 from hstart]
    decide +kernel
  obtain ⟨told, htold⟩ : ∃ told, Advice.unclosed "r.fiz:2:9" ")" "g(x); f(a" =
      "error: " ++ "r.fiz:2:9" ++ ": Input ended before a closing '" ++ ')'.toString ++ told :=
    ⟨_, by unfold Advice.unclosed; simp only [String.append_assoc]; rfl⟩
  exact ⟨fault, hfault, hmessage, (named_closer_right _ "r.fiz" told fault ')' hfault
    (by rw [hmessage, hplace, htold])).2⟩

end Naming

end RecipeGraph.Source
