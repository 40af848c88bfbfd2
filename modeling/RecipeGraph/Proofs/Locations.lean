import Mathlib.Data.List.Induction
import RecipeGraph.Command.Run
import RecipeGraph.Proofs.Building

/-!
Where a text stops being one of a recipe. The reader counts lines and columns as it goes, and the
end of the text borrows those of the last word. A report and the command line count them anew from
an offset in the text. All of them name the same place.
-/
namespace RecipeGraph.Source

open Grammar Relation Text

/-- The place behind some characters, stepped to from the beginning of a text. -/
def placeBehind (chars : List Char) : Nat × Nat :=
  chars.foldl stepPlace (1, 1)

theorem placeBehind_append (before word : List Char) :
    placeBehind (before ++ word) = word.foldl stepPlace (placeBehind before) :=
  List.foldl_append

/-- Stepping counts the line feeds, and the characters after the last of them. -/
theorem placeBehind_eq (chars : List Char) : placeBehind chars =
    (chars.count '\n' + 1, (chars.reverse.takeWhile (· ≠ '\n')).length + 1) := by
  induction chars using List.reverseRecOn with
  | nil => rfl
  | append_singleton before c ih =>
    rw [placeBehind_append, ih, List.foldl_cons, List.foldl_nil]
    unfold stepPlace
    by_cases hbreak : c = '\n'
    · simp [hbreak, List.count_append]
    · simp [hbreak, List.count_append]

/-- A line and a column are those of an offset that is not beyond the end of a text. -/
structure At (text : String) (offset line column : Nat) : Prop where
  within : offset ≤ text.length
  line : line = lineAt text offset
  column : column = columnAt text offset

/-- A word says where it stands: it ends in the text, and its place is that of its start. -/
structure Token.Located (text : String) (token : Token) : Prop where
  ordered : token.start ≤ token.stop
  within : token.stop ≤ text.length
  place : At text token.start token.line token.column

def Rejection.Located (text : String) : Rejection → Prop
  | word token _ => Token.Located text token
  | character _ offset line column => At text offset line column

/-- The counters of a reader are those of its place in a text, and its last word says where it
stands. -/
structure Reader.Tracks (text : String) (reader : Reader) : Prop where
  place : ∃ before, text.toList = before ++ reader.cursor.rest ∧
    reader.cursor.offset = before.length ∧
    (reader.cursor.line, reader.cursor.column) = placeBehind before
  last : ∀ token ∈ reader.last, Token.Located text token

section Tracking

variable {text : String} {before rest : List Char} {reader next : Reader} {found : Match}
  {rejection : Rejection} {kind : Terminal} {word : List Char}

theorem at_of_append (h : text.toList = before ++ rest) :
    At text before.length (placeBehind before).1 (placeBehind before).2 := by
  have hlength : before.length ≤ text.length := by
    rw [← String.length_toList, h, List.length_append]
    omega
  have hclamp : clampOffset text before.length = before.length := by
    unfold clampOffset
    omega
  have htake : text.toList.take (clampOffset text before.length) = before := by
    rw [hclamp, h, List.take_left]
  rw [placeBehind_eq]
  exact ⟨hlength, by rw [lineAt, htake], by rw [columnAt, htake]⟩

theorem at_origin (text : String) : At text 0 1 1 :=
  at_of_append (List.nil_append text.toList).symm

namespace Reader

theorem tracks_start (text : String) : Tracks text (start text) :=
  ⟨⟨[], rfl, rfl, rfl⟩, by simp [start]⟩

theorem Tracks.at (h : Tracks text reader) :
    At text reader.cursor.offset reader.cursor.line reader.cursor.column := by
  obtain ⟨before, hjoined, hoffset, hplace⟩ := h.place
  rw [hoffset, (Prod.mk.inj hplace).1, (Prod.mk.inj hplace).2]
  exact at_of_append hjoined

/-- A word that is split off where the reader stands says where it stands. -/
theorem Tracks.located (h : Tracks text reader)
    (hsplit : reader.cursor.rest = word ++ rest) :
    Token.Located text (reader.cursor.token kind word) := by
  obtain ⟨before, hjoined, hoffset, -⟩ := h.place
  refine ⟨Nat.le_add_right _ _, ?_, h.at⟩
  show reader.cursor.offset + word.length ≤ text.length
  rw [← String.length_toList, hjoined, hsplit, hoffset]
  simp only [List.length_append]
  omega

/-- The end of the text is located where the last word is, or at the beginning of the text. -/
theorem Tracks.located_end (h : Tracks text reader) : Token.Located text reader.endToken := by
  unfold endToken
  cases hlast : reader.last with
  | none => exact ⟨Nat.le_refl 0, Nat.zero_le _, at_origin text⟩
  | some token =>
    have hlocated := h.last token hlast
    exact ⟨hlocated.ordered, hlocated.within, hlocated.place⟩

theorem Tracks.moves (h : Tracks text reader) (hmoves : reader.Moves next) :
    Tracks text next := by
  obtain ⟨found, hfound, hstep⟩ := hmoves.finds
  have hsplit := (found?_taken hfound).joined
  obtain ⟨before, hjoined, hoffset, hplace⟩ := h.place
  refine ⟨⟨before ++ found.word, ?_, ?_, ?_⟩, ?_⟩
  · rw [hstep.rest, hjoined, hsplit, List.append_assoc]
  · rw [hstep.cursor, List.length_append, ← hoffset]
    rfl
  · rw [hstep.cursor, placeBehind_append, ← hplace]
    rfl
  · cases hstep with
    | passing hpass => exact h.last
    | handing hpass hfed =>
      rintro token ⟨⟩
      exact h.located hsplit

theorem tracks_of_steps (h : ReflTransGen Moves (start text) reader) : Tracks text reader := by
  induction h with
  | refl => exact tracks_start text
  | tail _ hmoves ih => exact ih.moves hmoves

/-- What can stop a reader: the end of the text, characters that no awaited word begins with, or a
word that the automaton does not take after all. -/
inductive Stops (reader : Reader) : Rejection → Prop
  | ending (expected : List Terminal) : Stops reader (.word reader.endToken expected)
  | stray {c : Char} {tail : List Char} (hrest : reader.cursor.rest = c :: tail) :
      Stops reader (reader.stray c)
  | refused {found : Match} (hfound : reader.found? = some found) (expected : List Terminal) :
      Stops reader (.word (reader.wordOf found) expected)

theorem step_failed (h : reader.step = .failed rejection) : Stops reader rejection := by
  cases hfound : reader.found? with
  | none =>
    cases hrest : reader.cursor.rest with
    | nil =>
      rw [step_end hrest] at h
      obtain ⟨state, -, rfl⟩ := feed_failed h
      exact .ending (expectedIn state)
    | cons c tail =>
      rw [step_stray hfound hrest, Progress.failed.injEq] at h
      exact h ▸ .stray hrest
  | some found =>
    rw [step_found hfound] at h
    split at h
    · cases h
    · obtain ⟨state, -, rfl⟩ := feed_failed h
      exact .refused hfound (expectedIn state)

theorem Tracks.located_stray (h : Tracks text reader) (c : Char) :
    (reader.stray c).Located text := by
  unfold stray
  dsimp only
  split
  · rename_i found hfound
    exact h.located (taken_of_split (firstMatch?_iff.mp hfound).2.1).joined
  · exact h.at

theorem Stops.located (htracks : Tracks text reader) (h : Stops reader rejection) :
    rejection.Located text := by
  cases h with
  | ending expected => exact htracks.located_end
  | @stray c tail hrest => exact htracks.located_stray c
  | refused hfound expected => exact htracks.located (found?_taken hfound).joined

end Reader

theorem derive_located (h : derive text = .error rejection) : rejection.Located text := by
  obtain ⟨last, hsteps, hfailed⟩ := derive_error h
  exact (Reader.step_failed hfailed).located (Reader.tracks_of_steps hsteps)

end Tracking

/-- A place in a text as it is named before a message. -/
def placeNamed (source filename : String) (offset : Int) : String :=
  filename ++ ":" ++ toString (lineAt source offset) ++ ":" ++ toString (columnAt source offset)

section Naming

variable {source filename : String} {offset line column : Nat} {rejection : Rejection}

theorem placeText_at (h : At source offset line column) :
    Advice.placeText filename line column = placeNamed source filename offset := by
  have hline : max (line : Int) 1 = (lineAt source offset : Nat) := by
    rw [h.line, lineAt]
    omega
  have hcolumn : max (column : Int) 1 = (columnAt source offset : Nat) := by
    rw [h.column, columnAt]
    omega
  unfold Advice.placeText
  rw [hline, hcolumn]
  rfl

/-- A message names a place before it says anything else. -/
def Begins (place message : String) : Prop :=
  ∃ told, message = "error: " ++ place ++ ":" ++ told

theorem begins_of_colon {place opening : String} (h : opening.toList.head? = some ':') :
    Begins place ("error: " ++ place ++ opening) := by
  obtain ⟨tail, hopening⟩ := List.head?_eq_some_iff.mp h
  have hsplit : opening = ":" ++ String.ofList tail := by
    apply String.toList_inj.mp
    simp [hopening]
  exact ⟨String.ofList tail, by rw [hsplit]; simp only [String.append_assoc]⟩

theorem Begins.append {place message : String} (h : Begins place message) (further : String) :
    Begins place (message ++ further) := by
  obtain ⟨told, rfl⟩ := h
  exact ⟨told ++ further, String.append_assoc⟩

section Advice

variable (place line : String)

theorem unclosed_begins (closer : String) : Begins place (Advice.unclosed place closer line) := by
  unfold Advice.unclosed
  iterate 8 refine Begins.append ?_ _
  exact begins_of_colon (by simp)

theorem missingStyleValue_begins : Begins place (Advice.missingStyleValue place line) := by
  unfold Advice.missingStyleValue
  iterate 5 refine Begins.append ?_ _
  exact begins_of_colon (by simp)

theorem missingSeparator_begins (word : Word) :
    Begins place (Advice.missingSeparator place word line) := by
  unfold Advice.missingSeparator
  iterate 10 refine Begins.append ?_ _
  exact begins_of_colon (by simp)

theorem unexpectedWord_begins (word : Word) (around expected : List String) :
    Begins place (Advice.unexpectedWord place word line around expected) := by
  unfold Advice.unexpectedWord
  iterate 4 refine Begins.append ?_ _
  exact begins_of_colon (by simp)

theorem unclosedString_begins (column : Int) (quote : String) :
    Begins place (Advice.unclosedString place line column quote) := by
  unfold Advice.unclosedString
  iterate 13 refine Begins.append ?_ _
  exact begins_of_colon (by simp)

theorem unexpectedCharacter_begins (c : Char) (column : Int) :
    Begins place (Advice.unexpectedCharacter place c line column) := by
  unfold Advice.unexpectedCharacter
  iterate 11 refine Begins.append ?_ _
  exact begins_of_colon (by simp)

end Advice

/-- Whatever advice is given on a word, the place of the word comes first. -/
theorem forWord_begins (word : Word) (expected : List String) (source filename : String) :
    Begins (Advice.placeText filename word.line word.column)
      (Advice.forWord word expected source filename) := by
  unfold Advice.forWord
  dsimp only
  split
  · exact unclosed_begins _ _ _
  · split
    · exact missingStyleValue_begins _ _
    · split
      · exact missingSeparator_begins _ _ _
      · exact unexpectedWord_begins _ _ _ _ _

theorem forCharacter_begins (c : Char) (line column : Int) (source filename : String) :
    Begins (Advice.placeText filename line column)
      (Advice.forCharacter c line column source filename) := by
  unfold Advice.forCharacter
  dsimp only
  split
  · exact unclosedString_begins _ _ _ _
  · exact unexpectedCharacter_begins _ _ _ _

theorem Rejection.Located.begins (h : rejection.Located source) :
    Begins (placeNamed source filename (rejection.extent source).start)
      (rejection.complaint.message source filename) := by
  cases rejection with
  | word token expected =>
    have hplace : Token.Located source token := h
    simp only [Rejection.extent, Rejection.complaint, Complaint.message]
    rw [← placeText_at hplace.place]
    exact forWord_begins ⟨token.kind.name, token.text, token.line, token.column⟩ _ source filename
  | character c offset line column =>
    have hplace : At source offset line column := h
    simp only [Rejection.extent, Rejection.complaint, Complaint.message]
    rw [← placeText_at hplace]
    exact forCharacter_begins c line column source filename

theorem Rejection.Located.within (h : rejection.Located source) :
    0 ≤ (rejection.extent source).start ∧
      (rejection.extent source).start ≤ (rejection.extent source).stop ∧
      (rejection.extent source).stop ≤ source.length := by
  cases rejection with
  | word token expected =>
    have hplace : Token.Located source token := h
    have hordered := hplace.ordered
    have hwithin := hplace.within
    simp only [Rejection.extent]
    omega
  | character c offset line column =>
    have hwithin := At.within h
    simp only [Rejection.extent]
    omega

end Naming

/-- The diagnostic that a fault is reported with. -/
def Fault.diagnostic (fault : Fault) : Diagnostic :=
  ⟨fault.extent, .malformedSource fault.message⟩

/-- A fault lies in its text, and whoever tells of it names the place where it starts: its message,
the lines of the command line, and the report. -/
structure Fault.Pinpointed (source filename : String) (fault : Fault) : Prop where
  within : 0 ≤ fault.extent.start ∧ fault.extent.start ≤ fault.extent.stop ∧
    fault.extent.stop ≤ source.length
  message : Begins (placeNamed source filename fault.extent.start) fault.message
  diagnostics : (Recipe.ofText source filename).diagnostics = [fault.diagnostic]
  lines : ∃ told further, Command.diagnosticLines source filename fault.diagnostic =
    (placeNamed source filename fault.extent.start ++ ":" ++ told) :: further
  report : ∃ before after, Report.block source fault.diagnostic =
    before ++ "Lines: " ++ toString (lineAt source fault.extent.start) ++ "-" ++ after

section Telling

variable {source filename : String} {fault : Fault}

/-- The first line about any diagnostic begins with the place where the diagnostic starts. -/
theorem diagnosticLines_begin (source filename : String) (diagnostic : Diagnostic) :
    ∃ told further, Command.diagnosticLines source filename diagnostic =
      (placeNamed source filename diagnostic.extent.start ++ ":" ++ told) :: further := by
  have hplace : filename ++ s!":{lineAt source diagnostic.extent.start}" ++
      s!":{columnAt source diagnostic.extent.start}: " =
        placeNamed source filename diagnostic.extent.start ++ ":" ++ " " := by
    simp [placeNamed, String.append_assoc, toString]
  unfold Command.diagnosticLines
  dsimp only
  rw [hplace]
  simp only [String.append_assoc]
  split
  · exact ⟨_, _, rfl⟩
  · exact ⟨_, _, rfl⟩

theorem intercalate_contains (gap text : String) (front back : List String) :
    ∃ before after, gap.intercalate (front ++ text :: back) = before ++ text ++ after := by
  induction front with
  | nil =>
    cases back with
    | nil => exact ⟨"", "", by simp⟩
    | cons next back =>
      refine ⟨"", gap ++ gap.intercalate (next :: back), ?_⟩
      simp [String.intercalate_cons_cons, String.append_assoc]
  | cons first front ih =>
    obtain ⟨before, after, hjoined⟩ := ih
    refine ⟨first ++ gap ++ before, after, ?_⟩
    rw [List.cons_append, String.intercalate_cons_of_ne_nil (by simp), hjoined]
    simp only [String.append_assoc]

/-- The report on a diagnostic tells the line where the diagnostic starts. -/
theorem block_tells_line (source : String) (diagnostic : Diagnostic) :
    ∃ before after, Report.block source diagnostic =
      before ++ "Lines: " ++ toString (lineAt source diagnostic.extent.start) ++ "-" ++ after := by
  obtain ⟨before, after, hblock⟩ := intercalate_contains "\n\n"
    s!"Lines: {lineAt source diagnostic.extent.start}-{lineAt source diagnostic.extent.stop}"
    ["Severity: " ++ diagnostic.severity.name, "Source: " ++ diagnostic.origin.name,
      "Message: " ++ diagnostic.message,
      s!"Location: from {diagnostic.extent.start} to {diagnostic.extent.stop}"]
    ["Code:\n" ++ Report.snippet source diagnostic.extent.start diagnostic.extent.stop]
  refine ⟨before, toString (lineAt source diagnostic.extent.stop) ++ after, hblock.trans ?_⟩
  simp [String.append_assoc, toString]

/-- What a text is rejected with names one place. -/
theorem parse_pinpointed (h : parse source filename = .error fault) :
    fault.Pinpointed source filename := by
  have hbuilt : Recipe.ofText source filename = Recipe.malformed fault source := by
    unfold Recipe.ofText
    rw [h]
  unfold parse at h
  cases hderive : derive source with
  | ok derivation =>
    simp only [hderive] at h
    split at h <;> cases h
  | error rejection =>
    simp only [hderive, Except.error.injEq] at h
    have hlocated := derive_located hderive
    refine ⟨?_, ?_, by rw [hbuilt]; rfl, diagnosticLines_begin source filename fault.diagnostic,
      block_tells_line source fault.diagnostic⟩
    · rw [← h]
      exact hlocated.within
    · rw [← h]
      exact hlocated.begins

theorem parse_error_of_isNone (source filename : String)
    (h : (derive source).toOption.isSome = false) :
    ∃ fault, parse source filename = .error fault := by
  unfold parse
  cases hderive : derive source with
  | ok derivation =>
    rw [hderive] at h
    cases h
  | error rejection => exact ⟨_, rfl⟩

/-- A bracket that is never closed is complained about where the last word stands, two lines before
the text ends. -/
theorem unclosed_pinpointed :
    ∃ fault, parse "a()\nf(b /*c*/\n\n" "r.fiz" = .error fault ∧ fault.extent = ⟨6, 7⟩ ∧
      fault.Pinpointed "a()\nf(b /*c*/\n\n" "r.fiz" ∧
      placeNamed "a()\nf(b /*c*/\n\n" "r.fiz" fault.extent.start = "r.fiz:2:3" := by
  obtain ⟨fault, hfault⟩ :=
    parse_error_of_isNone "a()\nf(b /*c*/\n\n" "r.fiz" (by decide +kernel)
  have hextent : (match parse "a()\nf(b /*c*/\n\n" "r.fiz" with
      | .error fault => fault.extent
      | .ok _ => .origin) = ⟨6, 7⟩ := by
    decide +kernel
  rw [hfault] at hextent
  refine ⟨fault, hfault, hextent, parse_pinpointed hfault, ?_⟩
  rw [show fault.extent = ⟨6, 7⟩ from hextent]
  decide +kernel

end Telling

end RecipeGraph.Source
