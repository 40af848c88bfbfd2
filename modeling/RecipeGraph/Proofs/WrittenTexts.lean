import RecipeGraph.Proofs.Rendering
import RecipeGraph.Proofs.Writing

/-!
Names, paths and quoted texts that are written down. A quoted text is taken for a word up to its
closing quote, and read without its quotes and escapes it is the text again.
-/
namespace RecipeGraph.Recipe

open Grammar Source Recipe.Part

section Quoted

variable {chars : List Char} {text : String}

theorem unescapeBreaks_escapeBreaks (h : '\\' ∉ chars) :
    unescapeBreaks (escapeBreaks chars) = chars := by
  induction chars with
  | nil => rfl
  | cons c rest ih =>
    rw [List.mem_cons, not_or] at h
    by_cases hc : c = '\n'
    · simp [escapeBreaks, unescapeBreaks, hc, ih h.2]
    · rw [escapeBreaks, if_neg hc, unescapeBreaks, ih h.2]
      rintro tail rfl
      exact absurd rfl h.1

theorem escapeBreaks_self (h : '\n' ∉ chars) : escapeBreaks chars = chars := by
  induction chars with
  | nil => rfl
  | cons c rest ih =>
    rw [List.mem_cons, not_or] at h
    rw [escapeBreaks, if_neg (Ne.symm h.1), ih h.2]

theorem splitQuoted_escapeBreaks (h : ∀ c ∈ chars, c ≠ '"' ∧ c ≠ '\\') :
    splitQuoted '"' (escapeBreaks chars ++ ['"']) = some (escapeBreaks chars ++ ['"'], []) := by
  induction chars with
  | nil => simp [escapeBreaks, splitQuoted_cons]
  | cons c rest ih =>
    rw [List.forall_mem_cons] at h
    by_cases hc : c = '\n'
    · simp [escapeBreaks, hc, splitQuoted_cons '\\', ih h.2]
    · simp [escapeBreaks, hc, splitQuoted_cons c, h.1.1, h.1.2, ih h.2]

theorem toList_quotedText (text : String) :
    (quotedText text).toList = '"' :: (escapeBreaks text.toList ++ ['"']) := by
  simp [quotedText]

theorem isQuotable_iff :
    isQuotable text = true ↔ ∀ c ∈ text.toList, c ≠ '"' ∧ c ≠ '\\' := by
  simp [isQuotable]

theorem spells_quotedText (h : isQuotable text = true) :
    Spells .stringLiteral (quotedText text).toList := by
  rw [toList_quotedText]
  simp [Spells, split?, splitString, splitQuoted_escapeBreaks (isQuotable_iff.mp h)]

theorem stripQuotes_quotedText (text : String) :
    stripQuotes (quotedText text) = String.ofList (escapeBreaks text.toList) := by
  unfold stripQuotes
  rw [toList_quotedText]
  simp

theorem cleanValue_quotedText (h : isQuotable text = true) :
    cleanValue (quotedText text) = text := by
  have hslash : '\\' ∉ text.toList := fun hin => (isQuotable_iff.mp h _ hin).2 rfl
  rw [cleanValue, stripQuotes_quotedText, String.toList_ofList, unescapeBreaks_escapeBreaks hslash,
    String.ofList_toList]

end Quoted

section Names

variable {name : String} {path : Path} {c : Char} {chars : List Char}

theorem spells_of_isSpelled {kind : Terminal} (h : isSpelled kind name = true) :
    Spells kind name.toList := by
  simpa [isSpelled, Spells] using h

/-- A word that is neither a blank nor a line break begins with neither. -/
theorem starts_word {kind : Terminal} (h : Spells kind chars) (hblank : kind ≠ .blank)
    (hnewline : kind ≠ .newline) : StartsWord chars := by
  obtain ⟨c, tail, rfl⟩ := List.exists_cons_of_ne_nil (taken_of_split h).nonempty
  refine ⟨c, tail, rfl, ?_⟩
  by_contra hwhite
  rcases opens_white (by simpa using hwhite) (opens_of_split h) with hkind | hkind
  · exact hblank hkind
  · exact hnewline hkind

theorem starts_name (h : isSpelled .identifier name = true) : StartsWord name.toList :=
  starts_word (spells_of_isSpelled h) (by decide) (by decide)

theorem signs_end_names : (signs.all fun c => !Text.isWordChar c) = true := by
  decide +kernel

/-- A name may be followed by any sign. -/
theorem ends_name (hc : c ∈ signs) (rest : List Char) : Ends .identifier (c :: rest) := by
  have hends := List.all_eq_true.mp signs_end_names c hc
  exact (ends_iff_head (by decide)).mpr (by simpa [carriesOn] using hends)

theorem renders_name (h : isSpelled .identifier name = true) :
    Renders (Ends .identifier) (.word .identifier) name.toList (wordParts .identifier name) :=
  .word (spells_of_isSpelled h) fun _ hrest => hrest

theorem toList_pathText (path : Path) :
    (pathText path).toList = ['.'].intercalate (path.map String.toList) := by
  simp [pathText]

theorem flatMap_words (path : Path) :
    (path.flatMap (wordParts .identifier)).map text = path := by
  induction path with
  | nil => rfl
  | cons name rest ih =>
    rw [List.flatMap_cons, List.map_append, ih]
    rfl

theorem renders_path (h : isPath path = true) :
    Renders (Ends .identifier) (.name (.rule .qualifiedName)) (pathText path).toList
      [.path path] := by
  simp only [isPath, Bool.and_eq_true, Bool.not_eq_true', List.isEmpty_eq_false_iff,
    List.all_eq_true] at h
  let items := path.map fun name => (name.toList, wordParts .identifier name)
  have hitems : ∀ item ∈ items,
      Renders (Ends .identifier) (.word .identifier) item.1 item.2 := by
    rw [List.forall_mem_map]
    exact fun name hname => renders_name (h.2 name hname)
  have hbetween : ∀ item ∈ items, Renders (Ends .identifier) (.word .identifier) item.1 item.2 →
      Renders (Ends .identifier) (.mark .dot ++ .word .identifier) (['.'] ++ item.1) item.2 :=
    fun item _ hitem => hitem.after_sign rfl
  have hpath := Renders.separated (by simpa [items] using h.1) hitems hbetween
    fun rest => ends_name (by decide) rest
  rw [List.map_map, List.flatMap_map] at hpath
  rw [toList_pathText]
  exact .named hpath (congrArg Part.path (flatMap_words path))

end Names

end RecipeGraph.Recipe
