import RecipeGraph.Proofs.Building
import RecipeGraph.Proofs.Gaps

/-!
Line breaks inside round brackets and braces. There a line break can be exchanged for a blank and a
blank for a line break: all of what lies between two words is passed over, and what is read is the
same recipe at the same places. Only behind a comment that runs to the end of its line the line
break is needed.
-/
namespace RecipeGraph.Source

open Grammar Recipe Relation

/-- The character at the index is in a word of the terminal, which the reader finds where line
breaks mean nothing. -/
def Reader.hides (reader : Reader) (kind : Terminal) (index : Nat) : Bool :=
  match reader.found? with
  | some found =>
      found.kind = kind && reader.brackets.hidesBreaks && reader.cursor.offset ≤ index &&
        index < reader.cursor.offset + found.word.length
  | none => false

/-- The character at the index is in a word of the terminal where line breaks mean nothing. -/
def isHidden (text : String) (kind : Terminal) (index : Nat) : Bool :=
  (course text).any (·.hides kind index)

section Exchange

variable {reader other next last : Reader} {found : Match} {x y : Char}
  {chars before after : List Char}

/-- Where line breaks mean nothing, readers that have read the same pass over stretches of one
length together. -/
theorem Peers.skip_white {chars' rest : List Char} (h : Peers Token.unlined reader other)
    (hhides : reader.brackets.hidesBreaks = true) (hrest : reader.cursor.rest = chars ++ rest)
    (hrest' : other.cursor.rest = chars' ++ rest) (hlength : chars.length = chars'.length)
    (hwhite : ∀ c ∈ chars, isWhite c = true) (hwhite' : ∀ c ∈ chars', isWhite c = true)
    (hends : ∀ c ∈ rest.head?, isWhite c = false) :
    Meet Token.unlined reader other := by
  obtain ⟨next, hsteps, hnext, hoffset, hstack, hbrackets⟩ :=
    Reader.skip_white hhides hrest hwhite hends
  obtain ⟨next', hsteps', hnext', hoffset', hstack', hbrackets'⟩ :=
    Reader.skip_white (h.brackets ▸ hhides) hrest' hwhite' hends
  have hlevel := level_unlined.mp h.level
  refine Meet.further (Peers.meet ⟨?_, ?_, level_unlined.mpr ?_⟩ (hnext.trans hnext'.symm))
    hsteps hsteps'
  · rw [hbrackets, hbrackets', h.brackets]
  · rw [hstack, hstack', h.frames]
  · rw [hoffset, hoffset', hlevel, hlength]

/-- Before a white character that is passed over, other white characters are passed over. -/
theorem hides_of_white (hsteps : ReflTransGen Reader.Moves reader last)
    (hhides : last.brackets.hidesBreaks = true) (hlast : last.cursor.rest = before ++ x :: after)
    (hrest : reader.cursor.rest = chars ++ x :: after) (hwhite : ∀ c ∈ chars, isWhite c = true) :
    reader.brackets.hidesBreaks = true := by
  obtain ⟨front, hfront, -⟩ := Reader.rest_of_steps hsteps
  have hchars : chars = front ++ before := by
    rw [hrest, hlast, ← List.append_assoc] at hfront
    exact List.append_cancel_right hfront
  have hbrackets := Reader.brackets_of_white hsteps hfront fun c hc =>
    hwhite c (by simp [hchars, hc])
  rw [← hbrackets, hhides]

/-- If there is nothing but white before the white character, all of it is passed over. -/
theorem Peers.skip_around (h : Peers Token.unlined reader other)
    (hhides : reader.brackets.hidesBreaks = true) (hx : isWhite x = true) (hy : isWhite y = true)
    (hrest : reader.cursor.rest = chars ++ x :: after)
    (hrest' : other.cursor.rest = chars ++ y :: after) (hwhite : ∀ c ∈ chars, isWhite c = true) :
    Meet Token.unlined reader other := by
  obtain ⟨stretch, rest, rfl, hstretch, hends⟩ := exists_stretch isWhite after
  have hjoined : ∀ c, chars ++ c :: (stretch ++ rest) = (chars ++ c :: stretch) ++ rest := by
    intro c
    rw [List.append_assoc, List.cons_append]
  have hall : ∀ c, isWhite c = true → ∀ d ∈ chars ++ c :: stretch, isWhite d = true := by
    intro c hc
    rw [List.forall_mem_append, List.forall_mem_cons]
    exact ⟨hwhite, hc, hstretch⟩
  rw [hjoined] at hrest hrest'
  exact h.skip_white hhides hrest hrest' (by simp) (hall x hx) (hall y hy) hends

/-- Before the white character readers that have read the same step on together, unless there is
nothing but white between it and them. -/
theorem Peers.step_before (h : Peers Token.unlined reader other) (hy : isWhite y = true)
    (hmoves : reader.Moves next) (hfound : reader.found? = some found)
    (hrest : reader.cursor.rest = found.word ++ (chars ++ x :: after))
    (hrest' : other.cursor.rest = found.word ++ (chars ++ y :: after))
    (hfirm : found.kind = .blank ∨ found.kind = .newline → ¬ ∀ c ∈ chars, isWhite c = true)
    (hcomment : carriesOn .lineComment y = true → found.kind = .lineComment → chars ≠ []) :
    ∃ next', other.Moves next' ∧ next'.cursor.rest = chars ++ y :: after ∧
      Peers Token.unlined next next' := by
  by_cases hchars : chars = []
  · subst hchars
    have hkind : ¬ (found.kind = .blank ∨ found.kind = .newline) :=
      fun hkind => hfirm hkind (by simp)
    rw [not_or] at hkind
    refine h.again Token.keepsKind_unlined steady_unlined hmoves hfound hrest'
      ⟨fun c hc => ?_, fun hnewline => absurd hnewline hkind.2⟩ fun hblank => absurd hblank hkind.1
    obtain rfl : y = c := by simpa using hc
    by_contra hcarries
    rw [Bool.not_eq_false] at hcarries
    rcases carriesOn_white hy hcarries with hblank | hnewline | hline
    · exact hkind.1 hblank
    · exact hkind.2 hnewline
    · rw [hline] at hcarries
      exact hcomment hcarries hline rfl
  · refine h.along Token.keepsKind_unlined steady_unlined hmoves hfound hrest hrest' hchars
      fun hnewline hreturn => ?_
    exact absurd (by simp [hreturn, isWhite, isBlankChar]) (hfirm (.inr hnewline))

/-- Readers that have read the same and have the same before them, but for a white character where
line breaks mean nothing, come to the same. -/
theorem Peers.over_white (h : Peers Token.unlined reader other) (hx : isWhite x = true)
    (hy : isWhite y = true) (hsteps : ReflTransGen Reader.Moves reader last)
    (hhides : last.brackets.hidesBreaks = true) (hfound : last.found? = some found)
    (hkind : found.kind = .blank ∨ found.kind = .newline)
    (hlast : last.cursor.rest = before ++ x :: after) (hbefore : before.length < found.word.length)
    (hcomment : carriesOn .lineComment y = true → ∀ reader' found',
      ReflTransGen Reader.Moves reader reader' → reader'.found? = some found' →
        reader'.cursor.rest = found'.word ++ x :: after → found'.kind ≠ .lineComment)
    (hrest : reader.cursor.rest = chars ++ x :: after)
    (hrest' : other.cursor.rest = chars ++ y :: after) :
    Meet Token.unlined reader other := by
  induction hsteps using ReflTransGen.head_induction_on generalizing other chars with
  | refl =>
    have hchars : chars = before := List.append_cancel_right (hrest.symm.trans hlast)
    have hjoined := (Reader.found?_taken hfound).joined
    have hwhite : ∀ c ∈ chars, isWhite c = true := by
      intro c hc
      refine Reader.white_of_kind hfound hkind c ?_
      rw [hlast] at hjoined
      have hword : before = found.word.take before.length := by
        rw [← List.take_append_of_le_length (Nat.le_of_lt hbefore), ← hjoined, List.take_left]
      rw [hchars, hword] at hc
      exact List.mem_of_mem_take hc
    exact h.skip_around hhides hx hy hrest hrest' hwhite
  | @head reader middle hmoves hsteps ih =>
    by_cases hwhite : ∀ c ∈ chars, isWhite c = true
    · have hhides' := hides_of_white (hsteps.head hmoves) hhides hlast hrest hwhite
      exact h.skip_around hhides' hx hy hrest hrest' hwhite
    obtain ⟨word, hword, hstep⟩ := hmoves.finds
    have htaken := Reader.found?_taken hword
    obtain ⟨front, hfront, -⟩ := Reader.rest_of_steps hsteps
    rw [hlast, ← List.append_assoc] at hfront
    have hchars : chars = word.word ++ (front ++ before) := by
      rw [htaken.joined, ← hstep.rest, hfront, ← List.append_assoc] at hrest
      exact (List.append_cancel_right hrest).symm
    have hfirm : word.kind = .blank ∨ word.kind = .newline →
        ¬ ∀ c ∈ front ++ before, isWhite c = true := by
      intro hkind hmore
      refine hwhite ?_
      rw [hchars, List.forall_mem_append]
      exact ⟨Reader.white_of_kind hword hkind, hmore⟩
    rw [hchars, List.append_assoc] at hrest hrest'
    obtain ⟨next', hmoves', hnext', hpeers⟩ :=
      h.step_before hy hmoves hword hrest hrest' hfirm fun hy' hline hnone => by
        rw [hnone] at hrest
        exact hcomment hy' reader word .refl hword hrest hline
    have hmeet := ih hpeers
      (fun hy' reader' found' hreader' => hcomment hy' reader' found' (hreader'.head hmoves))
      hfront hnext'
    exact hmeet.step hmoves hmoves'

/-- A hidden character is in a word that some reader finds. -/
theorem reader_of_isHidden {text : String} {kind : Terminal}
    (htext : text.toList = chars ++ x :: after) (h : isHidden text kind chars.length = true) :
    ∃ reader found before, ReflTransGen Reader.Moves (Reader.start text) reader ∧
      reader.brackets.hidesBreaks = true ∧ reader.found? = some found ∧ found.kind = kind ∧
      reader.cursor.rest = before ++ x :: after ∧ before.length < found.word.length := by
  obtain ⟨reader, hreader, hhides⟩ := List.any_eq_true.mp h
  have hreached := mem_course.mp hreader
  obtain ⟨front, hfront, hoffset⟩ := (stands_of_steps hreached).place
  unfold Reader.hides at hhides
  split at hhides
  · rename_i found hfound
    simp only [Bool.and_eq_true, decide_eq_true_eq] at hhides
    obtain ⟨⟨⟨hkind, hbrackets⟩, hstart⟩, hstop⟩ := hhides
    have hwithin : ∃ before, chars = front ++ before ∧
        reader.cursor.rest = before ++ x :: after := by
      rw [htext] at hfront
      rcases List.append_eq_append_iff.mp hfront with ⟨others, hlonger, hrest⟩ | hsplit
      · have hnone : others = [] := by
          rw [← List.length_eq_zero_iff]
          have hlength := congrArg List.length hlonger
          rw [List.length_append] at hlength
          omega
        subst hnone
        exact ⟨[], by simpa using hlonger.symm, hrest.symm⟩
      · exact hsplit
    obtain ⟨before, hchars, hrest⟩ := hwithin
    refine ⟨reader, found, before, hreached, hbrackets, hfound, hkind, hrest, ?_⟩
    rw [hchars, List.length_append] at hstop
    omega
  · cases hhides

/-- A text is read like one with another white character in the place of a hidden one. -/
theorem derive_exchange {text text' : String} {kind : Terminal} {derivation : Derivation}
    (h : derive text = .ok derivation) (hx : isWhite x = true) (hy : isWhite y = true)
    (hkind : kind = .blank ∨ kind = .newline) (htext : text.toList = chars ++ x :: after)
    (htext' : text'.toList = chars ++ y :: after)
    (hhidden : isHidden text kind chars.length = true)
    (hcomment : carriesOn .lineComment y = true → isBehindComment text chars.length = false) :
    ∃ derivation', derive text' = .ok derivation' ∧
      derivation.relabel Token.unlined = derivation'.relabel Token.unlined := by
  obtain ⟨hidden, found, before, hreached, hhides, hfound, rfl, hrest, hlength⟩ :=
    reader_of_isHidden htext hhidden
  have hpeers : Peers Token.unlined (Reader.start text) (Reader.start text') :=
    ⟨rfl, rfl, level_unlined.mpr rfl⟩
  have hmeet := hpeers.over_white hx hy hreached hhides hfound hkind hrest hlength
    (fun hy' _ _ => kind_of_not_behind htext (hcomment hy')) htext htext'
  exact hmeet.derive Token.keepsKind_unlined steady_unlined h

end Exchange

/-- In an accepted text a line break that is hidden in round brackets or braces, and does not follow
a comment that runs to the end of its line, can be exchanged for a blank, and a blank there for a
line break. The text is accepted as the same recipe with the same places. -/
theorem breaks_hidden_by_brackets (before after filename : String) :
    ((∃ tree, parse (before ++ "\n" ++ after) filename = .ok tree) →
      isHidden (before ++ "\n" ++ after) .newline before.length = true →
      isBehindComment (before ++ "\n" ++ after) before.length = false →
        (∃ tree, parse (before ++ " " ++ after) filename = .ok tree) ∧
          ofText (before ++ " " ++ after) filename =
            ofText (before ++ "\n" ++ after) filename) ∧
    ((∃ tree, parse (before ++ " " ++ after) filename = .ok tree) →
      isHidden (before ++ " " ++ after) .blank before.length = true →
        (∃ tree, parse (before ++ "\n" ++ after) filename = .ok tree) ∧
          ofText (before ++ "\n" ++ after) filename =
            ofText (before ++ " " ++ after) filename) := by
  have hbreak : (before ++ "\n" ++ after).toList = before.toList ++ '\n' :: after.toList := by
    simp
  have hspace : (before ++ " " ++ after).toList = before.toList ++ ' ' :: after.toList := by
    simp
  have hlength : (before ++ " " ++ after).length = (before ++ "\n" ++ after).length := by
    simp only [← String.length_toList, hbreak, hspace, List.length_append, List.length_cons]
  rw [parse_ok_iff, parse_ok_iff]
  refine ⟨?_, ?_⟩
  · rintro ⟨derivation, h⟩ hhidden hcomment
    rw [← String.length_toList] at hhidden hcomment
    obtain ⟨derivation', h', hsame⟩ := derive_exchange h rfl rfl (.inr rfl) hbreak hspace hhidden
      fun _ => hcomment
    exact ⟨⟨derivation', h'⟩, (ofText_unlined h h' hsame hlength.symm filename).symm⟩
  · rintro ⟨derivation, h⟩ hhidden
    rw [← String.length_toList] at hhidden
    obtain ⟨derivation', h', hsame⟩ := derive_exchange h rfl rfl (.inl rfl) hspace hbreak hhidden
      fun hnone => nomatch hnone
    exact ⟨⟨derivation', h'⟩, (ofText_unlined h h' hsame hlength filename).symm⟩

/-- A line break with a carriage return and before a comment, in a call within a nested scope, and a
blank in a style. -/
theorem breaks_hidden_by_brackets_nested :
    ((∃ tree, parse ("n[g(a,\r" ++ " " ++ "// c\n b)\n]") "" = .ok tree) ∧
      ofText ("n[g(a,\r" ++ " " ++ "// c\n b)\n]") "" =
        ofText ("n[g(a,\r" ++ "\n" ++ "// c\n b)\n]") "") ∧
    (∃ tree, parse ("f()\x7bk: v" ++ "\n" ++ "#t\x7d") "" = .ok tree) ∧
      ofText ("f()\x7bk: v" ++ "\n" ++ "#t\x7d") "" =
        ofText ("f()\x7bk: v" ++ " " ++ "#t\x7d") "" := by
  refine ⟨(breaks_hidden_by_brackets "n[g(a,\r" "// c\n b)\n]" "").1 ?_ ?_ ?_,
    (breaks_hidden_by_brackets "f()\x7bk: v" "#t\x7d" "").2 ?_ ?_⟩
  · exact parse_ok_of_isSome (by decide +kernel)
  · decide +kernel
  · decide +kernel
  · exact parse_ok_of_isSome (by decide +kernel)
  · decide +kernel

end RecipeGraph.Source
