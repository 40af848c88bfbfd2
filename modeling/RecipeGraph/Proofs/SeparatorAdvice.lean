import RecipeGraph.Proofs.FetchOrder
import RecipeGraph.Proofs.Separating

/-!
Whether a new statement starts where a message says so. Only one of the messages ends with the
advice to put a separator there, whatever the text in question is. The advice helps if and only if
the words before the place can be followed by a semicolon and a statement can begin with what stands
there. The message looks at neither: it is given for a closing bracket too, and between round
brackets.
-/
namespace RecipeGraph.Source

open Grammar Text

/-- A message ends with something. -/
def Closes (message ending : String) : Prop :=
  ∃ told, message = told ++ ending

section Endings

variable {message ending ending' place line : String} {names expected : List String}

theorem Closes.prepend (h : Closes message ending) (front : String) :
    Closes (front ++ message) ending := by
  obtain ⟨told, rfl⟩ := h
  exact ⟨front ++ told, String.append_assoc.symm⟩

/-- Two endings of a message agree as far as both of them go back. -/
theorem Closes.same (h : Closes message ending) (h' : Closes message ending') {index : Nat}
    (hindex : index < ending.toList.reverse.length)
    (hindex' : index < ending'.toList.reverse.length) :
    ending.toList.reverse[index]? = ending'.toList.reverse[index]? := by
  obtain ⟨told, rfl⟩ := h
  obtain ⟨told', hsame⟩ := h'
  have hchars := congrArg (List.reverse ∘ String.toList) hsame
  simp only [Function.comp_apply, String.toList_append, List.reverse_append] at hchars
  rw [← List.getElem?_append_left hindex, hchars, List.getElem?_append_left hindex']

theorem intercalate_closes (gap : String) (hnames : names ≠ []) :
    ∃ last ∈ names, Closes (gap.intercalate names) last := by
  induction names with
  | nil => exact absurd rfl hnames
  | cons first rest ih =>
    cases rest with
    | nil => exact ⟨first, by simp, "", by simp⟩
    | cons second others =>
      obtain ⟨last, hlast, hcloses⟩ := ih (List.cons_ne_nil _ _)
      refine ⟨last, List.mem_cons_of_mem first hlast, ?_⟩
      rw [String.intercalate_cons_of_ne_nil (List.cons_ne_nil _ _)]
      exact hcloses.prepend _

theorem join_closes {parts : List String} (hparts : parts ≠ [])
    (hcloses : ∀ part ∈ parts, Closes part ending) : Closes (String.join parts) ending := by
  induction parts with
  | nil => exact absurd rfl hparts
  | cons first rest ih =>
    rw [String.join_cons]
    cases rest with
    | nil =>
      obtain ⟨told, hfirst⟩ := hcloses first (by simp)
      exact ⟨told, by rw [hfirst]; simp⟩
    | cons second others =>
      exact (ih (List.cons_ne_nil _ _)
        fun part hpart => hcloses part (List.mem_cons_of_mem first hpart)).prepend first

theorem contextBlock_closes (line : String) (around : List String) :
    Closes (Advice.contextBlock line around) "\n" := by
  unfold Advice.contextBlock
  split
  · rename_i hlong
    refine (join_closes ?_ ?_).prepend "\nContext:\n"
    · intro hnone
      have hlength := congrArg List.length hnone
      rw [List.length_mapIdx, List.length_nil] at hlength
      omega
    · intro part hpart
      obtain ⟨index, hindex, rfl⟩ := List.mem_mapIdx.mp hpart
      exact ⟨_, rfl⟩
  · exact ⟨_, rfl⟩

/-- What was expected ends with how a terminal is called, or with the number of others. -/
theorem expectedLine_closes (hkinds : ∀ name ∈ expected, ∃ kind : Terminal, kind.name = name) :
    Advice.expectedLine expected = "" ∨ Closes (Advice.expectedLine expected) " more)" ∨
      ∃ kind : Terminal,
        Closes (Advice.expectedLine expected) (Advice.friendlyName kind.name) := by
  unfold Advice.expectedLine
  cases hnames : (sortedDistinct expected).map Advice.friendlyName with
  | nil => exact .inl rfl
  | cons first rest =>
    dsimp only
    split
    · exact .inr (.inl ⟨_, String.append_assoc.symm.trans rfl⟩)
    · rw [← hnames]
      obtain ⟨last, hlast, hcloses⟩ := intercalate_closes ", "
        (show ((sortedDistinct expected).map Advice.friendlyName).take 5 ≠ [] by simp [hnames])
      obtain ⟨name, hname, rfl⟩ := List.mem_map.mp (List.mem_of_mem_take hlast)
      obtain ⟨kind, rfl⟩ := hkinds name (mem_sortedDistinct.mp hname)
      refine .inr (.inr ⟨kind, ?_⟩)
      rw [String.append_empty]
      exact hcloses.prepend "\nExpected: "

/-- No terminal is called by anything that ends like the advice on separators. -/
theorem friendlyName_apart (kind : Terminal) :
    0 < (Advice.friendlyName kind.name).toList.reverse.length ∧
      (Advice.friendlyName kind.name).toList.reverse[0]? ≠ some ')' := by
  cases kind <;> decide

end Endings

/-- What the advice on separators ends with. -/
def separatorAdvice : String :=
  " a new statement starts here\n\nSeparate statements with a line break or ';':\n    x = f(); g(x)"

section Reading

variable {word : Word} {expected : List Terminal} {source filename : String} {message : String}

theorem not_closes (ending : String) (index : Nat) (h : Closes message ending)
    (hindex : index < ending.toList.reverse.length) (hsmall : index < 5)
    (hother : ending.toList.reverse[index]? ≠ separatorAdvice.toList.reverse[index]?) :
    ¬ Closes message separatorAdvice := by
  intro h'
  exact hother (h.same h' hindex (Nat.lt_trans hsmall (by decide)))

theorem unexpectedWord_apart (place line : String) (around : List String) :
    ¬ Closes (Advice.unexpectedWord place word line around
      (Advice.relevant (expected.map (·.name)))) separatorAdvice := by
  have hkinds : ∀ name ∈ Advice.relevant (expected.map (·.name)),
      ∃ kind : Terminal, kind.name = name := by
    intro name hin
    obtain ⟨kind, -, hkind⟩ := List.mem_map.mp (mem_of_relevant hin)
    exact ⟨kind, hkind⟩
  unfold Advice.unexpectedWord
  rcases expectedLine_closes hkinds with hnone | hmore | ⟨kind, hkind⟩
  · rw [hnone, String.append_empty]
    exact not_closes "\n" 0 ((contextBlock_closes line around).prepend _)
      (by decide) (by decide) (by decide)
  · exact not_closes " more)" 1 (hmore.prepend _) (by decide) (by decide) (by decide)
  · obtain ⟨hlength, hother⟩ := friendlyName_apart kind
    exact not_closes _ 0 (hkind.prepend _) hlength (by decide) hother

/-- Whether a statement can end does not depend on line breaks being awaited. -/
theorem statementCanEnd_relevant (names : List String) :
    Advice.statementCanEnd (Advice.relevant names) = Advice.statementCanEnd names := by
  have hkept : ∀ name, name ≠ "_NL" →
      (names.filter (· ≠ "_NL")).contains name = names.contains name := by
    intro name hname
    rw [Bool.eq_iff_iff, List.contains_iff_mem, List.contains_iff_mem, List.mem_filter]
    simp [hname]
  unfold Advice.relevant
  split
  · rfl
  · simp only [Advice.statementCanEnd, hkept "SEMICOLON" (by decide),
      hkept "_RBRACE" (by decide)]

/-- Only where a statement could end and no separator stands is the advice on separators given. -/
theorem separator_of_closes
    (h : Closes (Advice.forWord word (expected.map (·.name)) source filename) separatorAdvice) :
    Advice.statementCanEnd (expected.map (·.name)) = true ∧
      Advice.separates (Advice.kindForAdvice word) = false := by
  unfold Advice.forWord at h
  dsimp only at h
  split at h
  · exact absurd h (not_closes "    g(f(x))\x7b#style\x7d" 0 ⟨_, rfl⟩
      (by decide) (by decide) (by decide))
  · split at h
    · exact absurd h (not_closes "    f()\x7bcolor: red; font: \"Fira Sans\", mono\x7d" 0 ⟨_, rfl⟩
        (by decide) (by decide) (by decide))
    · split at h
      · rename_i hends
        simp only [Bool.and_eq_true, Bool.not_eq_true', statementCanEnd_relevant] at hends
        exact hends
      · exact absurd h (unexpectedWord_apart _ _ _)

theorem not_closes_character {c : Char} {line column : Int} :
    ¬ Closes (Advice.forCharacter c line column source filename) separatorAdvice := by
  unfold Advice.forCharacter
  dsimp only
  split
  · rename_i hquote
    refine not_closes c.toString 0 ⟨_, rfl⟩ ?_ (by decide) ?_
    · rcases hquote with rfl | rfl <;> decide
    · rcases hquote with rfl | rfl <;> decide
  · exact not_closes "  - style values outside a '\x7b...\x7d' block\n" 0 ⟨_, rfl⟩
      (by decide) (by decide) (by decide)

end Reading

section Advised

variable {text : String} {token : Token} {expected : List Terminal} {reader : Reader}

theorem mem_of_statementCanEnd (h : Advice.statementCanEnd (expected.map (·.name)) = true) :
    .semicolon ∈ expected ∧ .rightBrace ∉ expected := by
  simp only [Advice.statementCanEnd, Bool.and_eq_true, List.contains_iff_mem, Bool.not_eq_true']
    at h
  obtain ⟨hends, hbrace⟩ := h
  obtain ⟨kind, hkind, hname⟩ := List.mem_map.mp hends
  obtain rfl : kind = .semicolon := name_inj hname
  refine ⟨hkind, fun hin => ?_⟩
  have hcontains : (expected.map (·.name)).contains "_RBRACE" = true :=
    List.contains_iff_mem.mpr (List.mem_map.mpr ⟨.rightBrace, hin, rfl⟩)
  rw [hcontains] at hbrace
  cases hbrace

/-- Where a statement could end by what is awaited, no brace is open. -/
theorem Reader.Fails.unbraced (h : reader.Fails token expected) (hsound : reader.stack.Sound)
    (hkind : token.kind ≠ .endOfText)
    (hends : Advice.statementCanEnd (expected.map (·.name)) = true) :
    ∃ brackets, openAfter (reader.stack.words.map (·.kind)) = some brackets ∧
      brackets.head? ≠ some .leftBrace := by
  obtain ⟨hsemicolon, hbrace⟩ := mem_of_statementCanEnd hends
  cases h with
  | ending hrest hfed => exact absurd reader.endToken_kind hkind
  | @refused found state hfound hpass hfed =>
    obtain ⟨below, hbelow, hwords, rfl, -⟩ := hsound.refused hfed
    rw [← hwords]
    refine hbelow.unbraced (List.mem_filter.mp hsemicolon).2 ?_
    by_contra hawaited
    refine hbrace (List.mem_filter.mpr ⟨by decide, ?_⟩)
    simpa [Option.ne_none_iff_isSome] using hawaited
  | stray hnone hany =>
    refine hsound.unbraced ?_ ?_
    · simpa [awaits] using (List.mem_filter.mp hsemicolon).2
    · by_contra hawaited
      refine hbrace (List.mem_filter.mpr ⟨by decide, ?_⟩)
      simpa [awaits, Option.ne_none_iff_isSome] using hawaited

theorem kinds_of_separates (h : Advice.separates (Advice.kindForAdvice (wordFor token)) = false) :
    token.kind ≠ .endOfText ∧ token.kind ≠ .newline ∧ token.kind ≠ .semicolon := by
  have hseparates : ∀ kind : Terminal, token.kind = kind →
      Advice.separates kind.name = true → False := by
    rintro kind rfl hkind
    unfold Advice.kindForAdvice at h
    split at h
    · cases h
    · rw [show (wordFor token).kind = token.kind.name from rfl, hkind] at h
      cases h
  exact ⟨fun hkind => hseparates _ hkind (by decide), fun hkind => hseparates _ hkind (by decide),
    fun hkind => hseparates _ hkind (by decide)⟩

/-- With a semicolon put in where a new statement is said to start, the parser gets past that place
if and only if some recipe goes on with a semicolon behind the words before it, and a statement can
begin with the character there. -/
theorem separator_advice_helps_iff (text filename told : String) (fault : Fault)
    (h : parse text filename = .error fault) (hmessage : fault.message = told ++ separatorAdvice) :
    GetsPast (withSeparator text fault.extent.start.toNat) (fault.extent.start.toNat + 1) ↔
      Viable ((handed text).map (·.kind) ++ [.semicolon]) ∧
        ∃ c, text.toList[fault.extent.start.toNat]? = some c ∧ beginsStatement c = true := by
  cases parse_told h with
  | character hderive hstart hplace htold =>
    exact absurd ⟨told, htold.symm.trans hmessage⟩ not_closes_character
  | @word token expected hderive hstart hplace htold =>
    obtain ⟨hends, hseparates⟩ := separator_of_closes ⟨told, htold.symm.trans hmessage⟩
    obtain ⟨hend, hnewline, hseparator⟩ := kinds_of_separates hseparates
    obtain ⟨last, place, c, tail, hparted⟩ := exists_parted hderive hend hnewline hseparator
    obtain ⟨brackets, hopen, hbrace⟩ :=
      hparted.fails.unbraced (stands_of_steps hparted.steps).sound hend hends
    rw [hstart, Int.toNat_natCast, hparted.getsPast_iff hopen hbrace hnewline hseparator,
      hparted.words, hparted.first]
    simp

/-- Between two calls on one line the advice helps, so a semicolon could stand there. -/
theorem separator_advice_helps_call :
    ∃ fault, parse "x = f() g(x)" "r.fiz" = .error fault ∧ fault.extent.start = 8 ∧
      Viable [.identifier, .equal, .identifier, .leftParen, .rightParen, .semicolon] := by
  obtain ⟨fault, hfault⟩ := parse_error_of_isNone "x = f() g(x)" "r.fiz" (by decide +kernel)
  have hread : (match parse "x = f() g(x)" "r.fiz" with
      | .error fault => (fault.message, fault.extent.start)
      | .ok _ => ("", 0)) = ("error: r.fiz:1:9: Unexpected 'g(x)'.\n    x = f() g(x)\n" ++
        "            ^" ++ separatorAdvice, 8) := by
    decide +kernel
  rw [hfault] at hread
  obtain ⟨hmessage, hstart⟩ := Prod.mk.inj hread
  have hhelps := separator_advice_helps_iff _ "r.fiz" _ fault hfault hmessage
  have hhanded : (handed "x = f() g(x)").map (·.kind) =
      [.identifier, .equal, .identifier, .leftParen, .rightParen] := by
    decide +kernel
  rw [show fault.extent.start = 8 from hstart, hhanded] at hhelps
  exact ⟨fault, hfault, hstart, (hhelps.mp (by decide +kernel)).1⟩

/-- Behind a call the advice is also given for a bracket that closes nothing. No statement begins
with it, and the parser does not get past it when a semicolon stands before it. -/
theorem separator_advice_for_closer :
    ∃ fault, parse "f() )" "<string>" = .error fault ∧ fault.extent.start = 4 ∧
      fault.message = "error: <string>:1:5: Unexpected ')'.\n    f() )\n        ^" ++
        separatorAdvice ∧
      ¬ GetsPast (withSeparator "f() )" 4) 5 := by
  obtain ⟨fault, hfault⟩ := parse_error_of_isNone "f() )" "<string>" (by decide +kernel)
  have hread : (match parse "f() )" "<string>" with
      | .error fault => (fault.extent.start, fault.message)
      | .ok _ => (0, "")) = (4, "error: <string>:1:5: Unexpected ')'.\n    f() )\n        ^" ++
        separatorAdvice) := by
    decide +kernel
  rw [hfault] at hread
  obtain ⟨hstart, hmessage⟩ := Prod.mk.inj hread
  exact ⟨fault, hfault, hstart, hmessage, by decide +kernel⟩

end Advised

end RecipeGraph.Source
