import RecipeGraph.Proofs.Locations
import RecipeGraph.Proofs.Quotations

/-!
Whether the line that is shown holds the place that is meant. The place lies in a shown line, behind
as many others as there are line breaks before it. Its line number counts the line feeds only, so it
names that line as long as every line break before the place is a line feed, perhaps with a carriage
return before it.
-/
namespace RecipeGraph.Text

/-- How many lines are cut off before the end of some characters. -/
def breaks : List Char → Nat
  | [] => 0
  | '\r' :: '\n' :: rest => breaks rest + 1
  | c :: rest => breaks rest + if isLineBreak c then 1 else 0

/-- Every line break is a line feed, perhaps with a carriage return before it. -/
def breaksAtFeeds : List Char → Bool
  | [] => true
  | '\r' :: '\n' :: rest => breaksAtFeeds rest
  | c :: rest => (c = '\n' || !isLineBreak c) && breaksAtFeeds rest

/-- Characters that stand in one line. -/
def Unbroken (chars : List Char) : Prop :=
  ∀ c ∈ chars, isLineBreak c = false

instance (chars : List Char) : Decidable (Unbroken chars) :=
  decidable_of_iff (chars.all (!isLineBreak ·) = true) (by simp [Unbroken])

section Counting

theorem isLineBreak_feed : isLineBreak '\n' = true := by
  decide

theorem isLineBreak_return : isLineBreak '\r' = true := by
  decide

/-- Every line feed ends a line. -/
theorem count_le_breaks (chars : List Char) : chars.count '\n' ≤ breaks chars := by
  fun_induction breaks chars with
  | case1 => simp
  | case2 rest ih => simpa [List.count_cons] using ih
  | case3 c rest hpair ih =>
    rw [List.count_cons]
    by_cases hfeed : c = '\n'
    · simpa [hfeed, isLineBreak_feed] using ih
    · simp only [beq_iff_eq, hfeed, if_false]
      omega

/-- Line feeds and line breaks are equally many if and only if there are no other line breaks. -/
theorem breaks_eq_count (chars : List Char) :
    breaks chars = chars.count '\n' ↔ breaksAtFeeds chars = true := by
  fun_induction breaks chars with
  | case1 => simp [breaksAtFeeds]
  | case2 rest ih => simpa [breaksAtFeeds, List.count_cons] using ih
  | case3 c rest hpair ih =>
    have hle := count_le_breaks rest
    rw [breaksAtFeeds.eq_3 c rest hpair, List.count_cons]
    by_cases hfeed : c = '\n'
    · simpa [hfeed, isLineBreak_feed] using ih
    · cases hbreak : isLineBreak c with
      | false => simpa [hfeed] using ih
      | true =>
        simp only [beq_iff_eq, hfeed, if_true, if_false, decide_false, Bool.not_true, Bool.or_self,
          Bool.false_and, Bool.false_eq_true, iff_false]
        omega

end Counting

section Splitting

variable {word : List Char} {c : Char}

theorem splitLines_unbroken (h : isLineBreak c = false) (chars : List Char) :
    splitLines (c :: chars) = (c :: (splitLines chars).headD []) :: (splitLines chars).tail := by
  have hpair : ∀ rest, c = '\r' → chars = '\n' :: rest → False := by
    rintro rest rfl -
    simp [isLineBreak_return] at h
  rw [splitLines.eq_3 c chars hpair, h]
  cases splitLines chars <;> simp

/-- A word in one line is the beginning of the first line of what it begins. -/
theorem splitLines_word (hword : word ≠ []) (hunbroken : Unbroken word) (after : List Char) :
    ∃ rest lines, splitLines (word ++ after) = (word ++ rest) :: lines := by
  induction word with
  | nil => exact absurd rfl hword
  | cons c word ih =>
    rw [List.cons_append, splitLines_unbroken (hunbroken c List.mem_cons_self)]
    cases word with
    | nil => exact ⟨_, _, rfl⟩
    | cons d word =>
      obtain ⟨rest, lines, hrest⟩ :=
        ih (List.cons_ne_nil _ _) fun x hx => hunbroken x (List.mem_cons_of_mem c hx)
      exact ⟨rest, (splitLines (d :: word ++ after)).tail, by rw [hrest]; rfl⟩

/-- A word in one line stands in the shown line that comes after all line breaks before it. -/
theorem splitLines_shows (hword : word ≠ []) (hunbroken : Unbroken word)
    (before after : List Char) :
    ∃ left right, (splitLines (before ++ (word ++ after)))[breaks before]? =
      some (left ++ (word ++ right)) := by
  fun_induction breaks before with
  | case1 =>
    obtain ⟨rest, lines, hsplit⟩ := splitLines_word hword hunbroken after
    exact ⟨[], rest, by simp [hsplit]⟩
  | case2 rest ih =>
    obtain ⟨left, right, hline⟩ := ih
    exact ⟨left, right, by simpa [splitLines] using hline⟩
  | case3 c rest hpair ih =>
    obtain ⟨left, right, hline⟩ := ih
    cases hbreak : isLineBreak c with
    | true =>
      -- a carriage return at the end of `rest = []` meets the word, which is no line feed
      have hapart : ∀ tail, c = '\r' → rest ++ (word ++ after) = '\n' :: tail → False := by
        intro tail hreturn hfeed
        cases rest with
        | nil =>
          obtain ⟨d, word, rfl⟩ := List.exists_cons_of_ne_nil hword
          have hd := hunbroken d List.mem_cons_self
          obtain rfl : d = '\n' := by simpa using (List.cons.inj hfeed).1
          simp [isLineBreak_feed] at hd
        | cons d rest => exact hpair rest hreturn (by rw [(List.cons.inj hfeed).1])
      refine ⟨left, right, ?_⟩
      rw [List.cons_append, splitLines.eq_3 c _ hapart]
      simpa [hbreak] using hline
    | false =>
      rw [List.cons_append, splitLines_unbroken hbreak]
      cases hlines : splitLines (rest ++ (word ++ after)) with
      | nil => simp [hlines] at hline
      | cons line lines =>
        rw [hlines] at hline
        cases hcount : breaks rest with
        | zero =>
          obtain rfl : line = left ++ (word ++ right) := by simpa [hcount] using hline
          exact ⟨c :: left, right, by simp⟩
        | succ count => exact ⟨left, right, by simpa [hcount] using hline⟩

end Splitting

section Numbering

variable {text : String} {start stop : Nat} {word : List Char}

/-- The line number of a place counts the shown lines up to it if and only if all line breaks before
it are line feeds. -/
theorem lineAt_eq_iff (hstart : start ≤ text.length) :
    lineAt text start = breaks (text.toList.take start) + 1 ↔
      breaksAtFeeds (text.toList.take start) = true := by
  have hclamp : clampOffset text start = start := by
    unfold clampOffset
    omega
  rw [lineAt, hclamp, ← breaks_eq_count]
  omega

/-- What stands in one line at a place in a text is in the shown line of the number of the place, if
the line breaks before the place are line feeds. -/
theorem line_shows (hstands : Source.StandsAt text.toList start stop word) (hword : word ≠ [])
    (hunbroken : Unbroken word) (hfeeds : breaksAtFeeds (text.toList.take start) = true) :
    ∃ line, (linesOf text)[lineAt text start - 1]? = some line ∧ word <:+: line.toList := by
  obtain ⟨before, after, htext, hstart, -⟩ := hstands
  have htake : text.toList.take start = before := by
    rw [htext, hstart, List.take_left]
  have hwithin : start ≤ text.length := by
    rw [← String.length_toList, htext, hstart, List.length_append]
    omega
  obtain ⟨left, right, hline⟩ := splitLines_shows hword hunbroken before after
  have hnumber := (lineAt_eq_iff hwithin).mpr hfeeds
  rw [htake] at hnumber
  refine ⟨String.ofList (left ++ (word ++ right)), ?_, left, right, by simp⟩
  rw [hnumber, Nat.add_sub_cancel, linesOf, List.getElem?_map, htext, hline]
  rfl

end Numbering

end RecipeGraph.Text

namespace RecipeGraph.Source

open Grammar Relation Text

section Showing

variable {source text : String} {start stop : Nat} {word : List Char} {token : Token}
  {expected : List Terminal} {line : String} {number : Nat}

theorem standsAt_slice (hstart : start ≤ stop) (hstop : stop ≤ source.length) :
    StandsAt source.toList start stop (slice source.toList start stop) := by
  have hlength : source.toList.length = source.length := String.length_toList
  have hstands : StandsAt source.toList start stop
      ((source.toList.drop start).take (stop - start)) := by
    refine ⟨source.toList.take start, source.toList.drop stop, ?_, ?_, ?_⟩
    · have hdrop : source.toList.drop stop = (source.toList.drop start).drop (stop - start) := by
        rw [List.drop_drop]
        congr 1
        omega
      rw [hdrop, List.take_append_drop, List.take_append_drop]
    · rw [List.length_take]
      omega
    · simp only [List.length_take, List.length_drop]
      omega
  rw [hstands.slice]
  exact hstands

/-- The lines of a stretch that stands in one line are that line alone. -/
theorem snippet_eq (hstands : StandsAt source.toList start stop word) (hunbroken : Unbroken word)
    (hline : (linesOf source)[lineAt source start - 1]? = some line) :
    Report.snippet source start stop = line := by
  obtain ⟨before, after, htext, hstart, hstop⟩ := hstands
  have hfeed : word.count '\n' = 0 := by
    rw [List.count_eq_zero]
    intro hin
    simpa [isLineBreak_feed] using hunbroken '\n' hin
  have hlast : lineAt source stop = lineAt source start := by
    have hlength := congrArg List.length htext
    simp only [String.length_toList, List.length_append] at hlength
    have hclamp : ∀ offset : Nat, offset ≤ source.length → clampOffset source offset = offset := by
      intro offset hoffset
      unfold clampOffset
      omega
    have htake : source.toList.take stop = before ++ word := by
      rw [htext, hstop, ← List.length_append, ← List.append_assoc, List.take_left]
    have htake' : source.toList.take start = before := by
      rw [htext, hstart, List.take_left]
    rw [lineAt, lineAt, hclamp stop (by omega), hclamp start (by omega), htake, htake',
      List.count_append, hfeed, Nat.add_zero]
  have hpositive : 0 < lineAt source start := Nat.succ_pos _
  obtain ⟨hlt, hget⟩ := List.getElem?_eq_some_iff.mp hline
  unfold Report.snippet
  rw [hlast]
  -- of the first lines all but the last are dropped
  have hlines : ((linesOf source).take (lineAt source start)).drop (lineAt source start - 1) =
      [line] := by
    rw [List.drop_take, show lineAt source start - (lineAt source start - 1) = 1 by omega,
      List.drop_eq_getElem_cons hlt, hget]
    rfl
  simp [hlines]

theorem lineNumbered_eq (hnumber : 0 < number) (hline : (linesOf text)[number - 1]? = some line) :
    Advice.lineNumbered text number = line := by
  obtain ⟨hlt, hget⟩ := List.getElem?_eq_some_iff.mp hline
  have hin : 1 ≤ (number : Int) ∧ (number : Int) ≤ (linesOf text).length := by omega
  have hindex : ((number : Int) - 1).toNat = number - 1 := by omega
  simp only [Advice.lineNumbered, if_pos hin, hindex, hline, Option.getD_some]

/-- A word that a text is rejected at stands in the text, but for the end of the text. -/
theorem Reader.Stops.inPlace {reader : Reader} {rejection : Rejection}
    (hstands : Stands text reader) (h : reader.Stops rejection)
    (hword : rejection = .word token expected) (htext : token.text ≠ "") :
    InPlace text.toList token := by
  have hahead : ∀ {kind : Terminal} {word rest : List Char}, reader.cursor.rest = word ++ rest →
      InPlace text.toList (reader.cursor.token kind word) := by
    intro kind word rest hsplit
    obtain ⟨before, hjoined, hoffset⟩ := hstands.place
    have hspelled : (reader.cursor.token kind word).text.toList = word := String.toList_ofList
    refine ⟨before, rest, by rw [hspelled, hjoined, hsplit], hoffset.symm, ?_⟩
    rw [hspelled, hoffset]
    rfl
  cases h with
  | ending expected =>
    cases hword
    exfalso
    unfold Reader.endToken at htext
    split at htext <;> exact htext rfl
  | @stray c tail hrest =>
    unfold Reader.stray at hword
    dsimp only at hword
    split at hword
    · rename_i found hfound
      cases hword
      exact hahead (taken_of_split (firstMatch?_iff.mp hfound).2.1).joined
    · cases hword
  | refused hfound expected =>
    cases hword
    exact hahead (Reader.found?_taken hfound).joined

theorem derive_inPlace (h : derive text = .error (.word token expected)) (htext : token.text ≠ "") :
    InPlace text.toList token := by
  obtain ⟨last, hsteps, hfailed⟩ := derive_error h
  exact (Reader.step_failed hfailed).inPlace (stands_of_steps hsteps) rfl htext

/-- The code shown for a stretch in one line holds the stretch, and the line shown for a word that a
text is rejected at holds the word, if the line breaks before it are line feeds. -/
theorem places_shown (source : String) :
    (∀ start stop : Nat, start < stop → stop ≤ source.length →
      Unbroken (slice source.toList start stop) →
      breaksAtFeeds (source.toList.take start) = true →
      slice source.toList start stop <:+: (Report.snippet source start stop).toList) ∧
    ∀ (token : Token) (expected : List Terminal),
      derive source = .error (.word token expected) → token.text ≠ "" →
      Unbroken token.text.toList → breaksAtFeeds (source.toList.take token.start) = true →
      token.text.toList <:+: (Advice.lineNumbered source token.line).toList := by
  constructor
  · intro start stop hstart hstop hunbroken hfeeds
    have hstands := standsAt_slice (Nat.le_of_lt hstart) hstop
    have hword : slice source.toList start stop ≠ [] := by
      obtain ⟨before, after, -, hbefore, hlength⟩ := hstands
      intro hempty
      rw [hempty, List.length_nil] at hlength
      omega
    obtain ⟨line, hline, hshown⟩ := line_shows hstands hword hunbroken hfeeds
    rw [snippet_eq hstands hunbroken hline]
    exact hshown
  · intro token expected herror htext hunbroken hfeeds
    obtain ⟨before, after, hjoined, hstart, hstop⟩ := derive_inPlace herror htext
    have hword : token.text.toList ≠ [] := by simpa using htext
    have hlocated : Token.Located source token := derive_located herror
    have hnumber := hlocated.place.line
    obtain ⟨line, hline, hshown⟩ :=
      line_shows ⟨before, after, hjoined, hstart, hstop⟩ hword hunbroken hfeeds
    have hpositive : 0 < lineAt source token.start := Nat.succ_pos _
    rw [hnumber, lineNumbered_eq hpositive hline]
    exact hshown

theorem exists_word (text : String) (check : Token → Bool) (h : (match derive text with
    | .error (.word token _) => check token
    | _ => false) = true) :
    ∃ token expected, derive text = .error (.word token expected) ∧ check token = true := by
  split at h
  · rename_i token expected hrejected
    exact ⟨token, expected, hrejected, h⟩
  · cases h

/-- A carriage return before a line feed does no harm, and neither does a break behind the place. -/
theorem places_shown_in_second_line :
    "b c".toList <:+: (Report.snippet "a()\r\nf(b c)\x0c" 7 10).toList ∧
      ∃ token expected, derive "a()\r\nf(b c)\x0c" = .error (.word token expected) ∧
        token.text = "c)" ∧
        token.text.toList <:+: (Advice.lineNumbered "a()\r\nf(b c)\x0c" token.line).toList := by
  obtain ⟨hrange, hword⟩ := places_shown "a()\r\nf(b c)\x0c"
  refine ⟨hrange 7 10 (by decide) (by decide) (by decide) (by decide), ?_⟩
  obtain ⟨token, expected, hrejected, hcheck⟩ :=
    exists_word "a()\r\nf(b c)\x0c" (fun token => token.text == "c)" &&
      breaksAtFeeds ("a()\r\nf(b c)\x0c".toList.take token.start)) (by decide +kernel)
  simp only [Bool.and_eq_true, beq_iff_eq] at hcheck
  obtain ⟨htext, hfeeds⟩ := hcheck
  refine ⟨token, expected, hrejected, htext, hword token expected hrejected ?_ ?_ hfeeds⟩
  · rw [htext]
    decide
  · rw [htext]
    decide

/-- A form feed, which is a blank between two words, ends a shown line but is not counted as one, so
the line before it is shown in place of the one behind it. -/
theorem form_feed_hides_place :
    slice "x\x0cy".toList 2 3 = ['y'] ∧ Unbroken ['y'] ∧ Report.snippet "x\x0cy" 2 3 = "x" ∧
      ∃ token expected, derive "x\x0cy" = .error (.word token expected) ∧ token.text = "y" ∧
        Advice.lineNumbered "x\x0cy" token.line = "x" := by
  refine ⟨by decide, by decide, by decide +kernel, ?_⟩
  obtain ⟨token, expected, hrejected, hcheck⟩ :=
    exists_word "x\x0cy" (fun token => token.text == "y" &&
      Advice.lineNumbered "x\x0cy" token.line == "x") (by decide +kernel)
  simp only [Bool.and_eq_true, beq_iff_eq] at hcheck
  exact ⟨token, expected, hrejected, hcheck.1, hcheck.2⟩

end Showing

end RecipeGraph.Source
