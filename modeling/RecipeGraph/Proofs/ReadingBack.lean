import RecipeGraph.Proofs.WrittenNodes

/-!
Recipes that are written down and read back. Each kind of node is read back if what it consists of
is, so by induction on the node everything that can be written down is, and a recipe is the same
again, apart from where its nodes stand.
-/
namespace RecipeGraph.Recipe

open Grammar Source Recipe.Part Node

section Lines

variable {nodes : List Node}

/-- A line break on its own, or behind a statement. -/
abbrev line : Pattern :=
  .optional (.name .statement) ++ .name .separator

/-- A statement and the line break behind it. -/
def lineItem (node : Node) : List Char × List Part :=
  ((written node).toList ++ ['\n'], [.node (cleared node)])

theorem renders_break : Renders (Ends .newline) (.name .separator) ['\n'] [] := by
  have hspells : Spells .newline "\n".toList := rfl
  have hbreak : Renders (Ends .newline) (.word .newline) "\n".toList [] :=
    .word hspells fun _ hrest => hrest
  exact .choice (by simp) hbreak.left

theorem renders_lineItem {node : Node} (hkind : isStatement node = true) (h : Rendered node) :
    Renders (Ends .newline) line (lineItem node).1 (lineItem node).2 :=
  (renders_statement hkind h).present.both renders_break fun rest _ => ends_name (by decide) rest

theorem ends_lineItem {node : Node} (h : StartsWord (written node).toList) (rest : List Char) :
    Ends .newline ((lineItem node).1 ++ rest) :=
  (h.append ['\n']).ends_newline rest

theorem renders_lines {items : List (List Char × List Part)}
    (hitems : ∀ item ∈ items, Renders (Ends .newline) line item.1 item.2)
    (hnext : ∀ item ∈ items.tail, ∀ rest, Ends .newline (item.1 ++ rest)) :
    Renders (Ends .newline) (.repeated line ++ .optional (.name .statement))
      (items.flatMap (·.1)) (items.flatMap (·.2)) := by
  have hnone : Renders (Ends .newline) (.optional (.name .statement)) [] [] := .absent
  have hlines := (Renders.repeated hitems hnext).both hnone fun _ hrest => hrest
  rwa [List.append_nil, List.append_nil] at hlines

theorem toList_lines (nodes : List Node) :
    (lines (allWritten nodes)).toList = (nodes.map lineItem).flatMap (·.1) := by
  simp [lines, allWritten_eq_map, List.flatMap_map, lineItem]

theorem parts_lines (nodes : List Node) :
    (nodes.map lineItem).flatMap (·.2) = nodes.map fun node => .node (cleared node) := by
  simp [List.map_eq_flatMap, List.flatMap_assoc, lineItem]

theorem filterMap_statements (nodes : List Node) :
    (nodes.map fun node => Part.node (cleared node)).filterMap node? = allCleared nodes :=
  filterMap_nodes fun _ _ => rfl

variable (h : ∀ node ∈ nodes, isStatement node = true ∧ StartsWord (written node).toList ∧
  Rendered node)

include h

theorem renders_recipe (extent : Option Span) : Rendered (recipe nodes extent) := by
  have hitems : ∀ item ∈ nodes.map lineItem, Renders (Ends .newline) line item.1 item.2 := by
    rw [List.forall_mem_map]
    exact fun node hnode => renders_lineItem (h node hnode).1 (h node hnode).2.2
  have hnext : ∀ item ∈ nodes.map lineItem, ∀ rest, Ends .newline (item.1 ++ rest) := by
    rw [List.forall_mem_map]
    exact fun node hnode => ends_lineItem (h node hnode).2.1
  have hlines := renders_lines hitems fun item hitem => hnext item (List.mem_of_mem_tail hitem)
  rw [← toList_lines, parts_lines] at hlines
  exact .named hlines (congrArg (Part.node <| .recipe · none) (filterMap_statements nodes))

/-- The statements in square brackets begin on a line of their own. -/
theorem renders_statementList (extent : Option Span) : Rendered (statementList nodes extent) := by
  let items : List (List Char × List Part) := (['\n'], []) :: nodes.map lineItem
  have hbreak : Renders (Ends .newline) line ['\n'] [] :=
    Renders.both (.absent : Renders (fun _ => True) _ [] []) renders_break fun _ _ => trivial
  have hitems : ∀ item ∈ items, Renders (Ends .newline) line item.1 item.2 := by
    rw [List.forall_mem_cons, List.forall_mem_map]
    exact ⟨hbreak, fun node hnode => renders_lineItem (h node hnode).1 (h node hnode).2.2⟩
  have hnext : ∀ item ∈ items.tail, ∀ rest, Ends .newline (item.1 ++ rest) := by
    rw [List.tail_cons, List.forall_mem_map]
    exact fun node hnode => ends_lineItem (h node hnode).2.1
  have hlines := renders_lines hitems hnext
  have hwritten : (written (statementList nodes extent)).toList = items.flatMap (·.1) := by
    simp [written, toList_lines, items]
  rw [← hwritten] at hlines
  refine .named hlines ?_
  have hparts : items.flatMap (·.2) = nodes.map fun node => .node (cleared node) :=
    parts_lines nodes
  rw [hparts]
  exact congrArg (Part.node <| .statementList · none) (filterMap_statements nodes)

end Lines

section Kinds

variable {name : String} {path : Path} {args targets body : List Node} {styling : Option Node}
  {own : Node}

theorem renders_variable (h : isPath path = true) (extent : Option Span) :
    Rendered (.variable path extent) :=
  .named (renders_path h) rfl

theorem renders_valueList (hargs : args ≠ [])
    (h : ∀ arg ∈ args, isArgument arg = true ∧ StartsWord (written arg).toList ∧ Rendered arg)
    (extent : Option Span) : Rendered (valueList args extent) := by
  have hlisted := renders_nodes hargs fun arg harg =>
    ⟨(h arg harg).2.1, renders_value (h arg harg).1 (h arg harg).2.2⟩
  exact .named hlisted
    (congrArg (Part.node <| .valueList · none) (filterMap_nodes fun _ _ => rfl))

theorem styling_cases (hkind : styling.all isStyle = true) :
    styling = none ∨ ∃ properties tags extent, styling = some (style properties tags extent) := by
  cases styling with
  | none => exact .inl rfl
  | some own =>
    cases own with
    | style properties tags extent => exact .inr ⟨properties, tags, extent, rfl⟩
    | _ => cases hkind

theorem ends_styling (hkind : styling.all isStyle = true) {rest : List Char}
    (hrest : Ends .identifier rest) :
    Ends .identifier ((shownWritten styling).toList ++ rest) := by
  rcases styling_cases hkind with rfl | ⟨properties, tags, extent, rfl⟩
  · exact hrest
  · rw [shownWritten, written, toList_braced]
    exact ends_name (by decide) _

theorem renders_target (hname : isSpelled .identifier name = true)
    (hkind : styling.all isStyle = true) (h : ∀ own ∈ styling, Rendered own)
    (extent : Option Span) : Rendered (target name styling extent) := by
  have htarget := (renders_name hname).both (renders_styling hkind h) fun _ hrest =>
    ends_styling hkind hrest
  have hwritten : (written (target name styling extent)).toList =
      name.toList ++ (shownWritten styling).toList := by
    simp [written]
  rw [Rendered, hwritten]
  refine .named htarget ?_
  rcases styling_cases hkind with rfl | ⟨properties, tags, extent, rfl⟩ <;> rfl

theorem renders_call (hname : isSpelled .identifier name = true)
    (hargs : ∀ arg ∈ args, isArgument arg = true ∧ StartsWord (written arg).toList ∧ Rendered arg)
    (hkind : styling.all isStyle = true) (hstyling : ∀ own ∈ styling, Rendered own)
    (extent : Option Span) : Rendered (call name args styling extent) := by
  have hopen : Renders (fun _ => True) (.word .leftParen) ['('] [] := .bracket rfl
  have hclose : Renders (fun _ => True) (.word .rightParen) [')'] [] := .bracket rfl
  have hnamed := (renders_name hname).both hopen fun rest _ => ends_name (by decide) rest
  have hinside := (hnamed.both (renders_args hargs) fun _ _ => trivial).both hclose
    fun rest _ => ends_name (by decide) rest
  have hcall := hinside.both (renders_styling hkind hstyling) fun _ _ => trivial
  have hwritten : (written (call name args styling extent)).toList = name.toList ++ ['('] ++
      (", ".intercalate (allWritten args)).toList ++ [')'] ++ (shownWritten styling).toList := by
    simp [written, bracketed]
  rw [Rendered, hwritten]
  refine .named hcall ?_
  rcases styling_cases hkind with rfl | ⟨properties, tags, extent, rfl⟩ <;>
    cases args <;> rfl

/-- A scope may be without a name. -/
def nameParts (name : String) : List Part :=
  if name = "" then [] else wordParts .identifier name

theorem renders_optionalName (hname : name = "" ∨ isSpelled .identifier name = true) :
    Renders (Ends .identifier) (.optional (.word .identifier)) name.toList (nameParts name) := by
  unfold nameParts
  by_cases hempty : name = ""
  · subst hempty
    exact .absent
  · rw [if_neg hempty]
    exact (renders_name (hname.resolve_left hempty)).present

/-- The arguments of a scope, with their brackets if there are any. -/
theorem renders_bracketed {follow : List Char → Prop}
    (hargs : ∀ arg ∈ args, isArgument arg = true ∧ StartsWord (written arg).toList ∧ Rendered arg) :
    Renders follow (.optional (.word .leftParen ++ .optional (.name (.rule .argList)) ++
        .word .rightParen))
      (if args.isEmpty then "" else bracketed (allWritten args)).toList (argParts args) := by
  cases args with
  | nil => exact .absent
  | cons first rest =>
    have hopen : Renders (fun _ => True) (.word .leftParen) ['('] [] := .bracket rfl
    have hclose : Renders follow (.word .rightParen) [')'] [] := .bracket rfl
    have hinside := (hopen.both (renders_args hargs) fun _ _ => trivial).both hclose
      fun rest _ => ends_name (by decide) rest
    have hchars : (bracketed (allWritten (first :: rest))).toList =
        ['('] ++ (", ".intercalate (allWritten (first :: rest))).toList ++ [')'] := by
      simp [bracketed]
    rw [List.append_nil] at hinside
    rw [List.isEmpty_cons, if_neg Bool.false_ne_true, hchars]
    exact hinside.present

theorem renders_scope (hname : name = "" ∨ isSpelled .identifier name = true)
    (hbody : Rendered (statementList body none))
    (hargs : ∀ arg ∈ args, isArgument arg = true ∧ StartsWord (written arg).toList ∧ Rendered arg)
    (hkind : styling.all isStyle = true) (hstyling : ∀ own ∈ styling, Rendered own)
    (bodyExtent argsExtent extent : Option Span) :
    Rendered (scope name body bodyExtent args argsExtent styling extent) := by
  have hopen : Renders (fun _ => True) (.word .leftBracket) ['['] [] := .bracket rfl
  have hclose : Renders (fun _ => True) (.word .rightBracket) [']'] [] := .bracket rfl
  have hstarts : StartsWord [']'] := ⟨']', [], rfl, by decide⟩
  have hnamed := (renders_optionalName hname).both hopen fun rest _ => ends_name (by decide) rest
  have hinside := (hnamed.both hbody fun _ _ => trivial).both hclose
    fun rest _ => hstarts.ends_newline rest
  have hflow : Renders (Ends .identifier) _ _ (argParts args) := renders_bracketed hargs
  have hscope := (hinside.both hflow fun _ _ => trivial).both (renders_styling hkind hstyling)
    fun _ hrest => ends_styling hkind hrest
  have hwritten : (written (scope name body bodyExtent args argsExtent styling extent)).toList =
      name.toList ++ ['['] ++ (written (statementList body none)).toList ++ [']'] ++
        (if args.isEmpty then "" else bracketed (allWritten args)).toList ++
          (shownWritten styling).toList := by
    simp [written]
  rw [Rendered, hwritten]
  refine .named hscope ?_
  unfold nameParts
  rcases styling_cases hkind with rfl | ⟨properties, tags, extent, rfl⟩ <;>
    cases args <;> by_cases hempty : name = "" <;> simp only [hempty, if_true, if_false] <;> rfl

theorem made_assignment (htargets : ∀ target ∈ targets, isTarget target = true)
    (hkind : isRightSide own = true) :
    made .assignment ((targets.map fun target => .node (cleared target)) ++ [.node (cleared own)])
      none = .node (.assignment (allCleared targets) (shownCleared (some own)) none) := by
  have hpicked : (targets.map fun target => Part.node (cleared target)).filterMap target? =
      allCleared targets := by
    refine filterMap_nodes fun target hin => ?_
    have hsort := htargets target hin
    cases target with
    | target name styling extent => rfl
    | _ => cases hsort
  have hskipped : (targets.map fun target => Part.node (cleared target)).filterMap rightSide? =
      [] := by
    rw [List.filterMap_eq_nil_iff, List.forall_mem_map]
    intro target hin
    have hsort := htargets target hin
    cases target with
    | target name styling extent => rfl
    | _ => cases hsort
  have hown : target? (.node (cleared own)) = none ∧
      rightSide? (.node (cleared own)) = some (cleared own) ∧
        shownCleared (some own) = some (cleared own) := by
    cases own <;> cases hkind <;> exact ⟨rfl, rfl, rfl⟩
  simp [made, lastOf, hpicked, hskipped, hown]

theorem renders_assignment (htargets : targets ≠ [])
    (h : ∀ target ∈ targets, isTarget target = true ∧ StartsWord (written target).toList ∧
      Rendered target)
    (hkind : isRightSide own = true) (hstarts : StartsWord (written own).toList)
    (hown : Rendered own) (extent : Option Span) :
    Rendered (assignment targets (some own) extent) := by
  have htarget : ∀ target ∈ targets, StartsWord (written target).toList ∧
      Renders (Ends .identifier) (.name (.rule .target)) (written target).toList
        [.node (cleared target)] := by
    intro target hin
    obtain ⟨hsort, hbegins, hrendered⟩ := h target hin
    cases target with
    | target name styling extent => exact ⟨hbegins, hrendered⟩
    | _ => cases hsort
  have hequal : Renders (fun _ => True) (.mark .equal) [' ', '='] [] :=
    Renders.blank (.sign rfl) ⟨'=', [], rfl, by decide⟩
  have hassigned := ((renders_nodes htargets htarget).both hequal fun rest _ =>
    ends_name (by decide) _).both ((renders_rightSide hkind hown).blank hstarts) fun _ _ => trivial
  have hwritten : (written (assignment targets (some own) extent)).toList =
      (", ".intercalate (allWritten targets)).toList ++ [' ', '='] ++
        ' ' :: (written own).toList := by
    simp [written, shownWritten]
  rw [Rendered, hwritten]
  refine .named hassigned ?_
  rw [List.append_nil]
  exact made_assignment (fun target hin => (h target hin).1) hkind

theorem made_package {location : String} {label : Option String}
    (hline : '\n' ∉ location.toList) (hlabel : label.all (isSpelled .identifier) = true) :
    made .package (label.toList.flatMap (wordParts .identifier) ++
      wordParts .stringLiteral (quotedText location)) none =
        .node (.package location label none) := by
  have htext : stripQuotes (quotedText location) = location := by
    rw [stripQuotes_quotedText, escapeBreaks_self hline, String.ofList_toList]
  have hliteral : "\n".intercalate [location] = location := rfl
  cases label with
  | none => simp [made, wordParts, Terminal.isKept, Terminal.name, word?, packageNamed, htext,
      hliteral]
  | some name =>
    have hname : name ≠ "" := by
      rintro rfl
      exact absurd hlabel (by decide)
    simp [made, wordParts, Terminal.isKept, Terminal.name, word?, packageNamed, htext, hliteral,
      hname]

theorem renders_package {location : String} {label : Option String}
    (hlocation : isQuotable location = true) (hline : '\n' ∉ location.toList)
    (hlabel : label.all (isSpelled .identifier) = true) (extent : Option Span) :
    Rendered (package location label extent) := by
  have hlocated : Renders (Ends .identifier) (.atLeastOnce (.word .stringLiteral))
      (' ' :: (quotedText location).toList) (wordParts .stringLiteral (quotedText location)) :=
    ((renders_quoted hlocation).blank (starts_quoted location)).once
  cases label with
  | none =>
    have hnone : Renders (fun _ => True) (.optional (.word .identifier)) [] [] := .absent
    have hsign : Renders (fun _ => True) (.mark .atSign) ['@'] [] := .sign rfl
    have hpackage := (hnone.both hsign fun _ _ => trivial).both hlocated fun _ _ => trivial
    have hwritten : (written (package location none extent)).toList =
        [] ++ ['@'] ++ ' ' :: (quotedText location).toList := by
      simp [written]
    rw [Rendered, hwritten]
    exact .named hpackage (made_package hline hlabel)
  | some name =>
    have hsign : Renders (fun _ => True) (.mark .atSign) [' ', '@'] [] :=
      Renders.blank (.sign rfl) ⟨'@', [], rfl, by decide⟩
    have hpackage := ((renders_name hlabel).present.both hsign fun rest _ =>
      ends_name (by decide) _).both hlocated fun _ _ => trivial
    have hwritten : (written (package location (some name) extent)).toList =
        name.toList ++ [' ', '@'] ++ ' ' :: (quotedText location).toList := by
      simp [written]
    rw [Rendered, hwritten]
    exact .named hpackage (made_package hline hlabel)

theorem renders_namedStyle (hname : isSpelled .identifier name = true)
    (hkind : isStyle own = true) (hown : Rendered own) (extent : Option Span) :
    Rendered (namedStyle name own extent) := by
  have hsign : Terminal.mark? .hash = some '#' := rfl
  have hkinds : (some own).all isStyle = true := hkind
  have hstyling := renders_styling hkinds fun _ hin => Option.some.inj hin ▸ hown
  have hnamed := ((renders_name hname).after_sign hsign).both hstyling fun _ hrest =>
    ends_styling hkinds hrest
  have hwritten : (written (namedStyle name own extent)).toList =
      '#' :: name.toList ++ (shownWritten (some own)).toList := by
    simp [written, shownWritten]
  rw [Rendered, hwritten]
  refine .named hnamed ?_
  cases own with
  | style properties tags extent => rfl
  | _ => cases hkind

theorem renders_styleBinding (hname : isSpelled .identifier name = true)
    (h : ∀ tag ∈ args, isStyleTag tag = true ∧ Rendered tag) (extent : Option Span) :
    Rendered (styleBinding name args extent) := by
  let item : Pattern := .name (.rule .styleTag) ||| .mark .semicolon
  have hitems : ∀ entry ∈ args.map nodeItem, Renders (Ends .identifier) item entry.1 entry.2 := by
    rw [List.forall_mem_map]
    exact fun tag htag => (renders_tag (h tag htag).1 (h tag htag).2).left
  have hnext : ∀ entry ∈ args.map nodeItem, ∀ rest, Ends .identifier (entry.1 ++ rest) := by
    rw [List.forall_mem_map]
    exact fun tag _ => ends_item tag
  have hpicked : ((args.map nodeItem).flatMap (·.2)).filterMap styleTag? = allCleared args := by
    have hparts : (args.map nodeItem).flatMap (·.2) =
        args.map fun tag => .node (cleared tag) := by
      simp [List.map_eq_flatMap, List.flatMap_assoc, nodeItem]
    rw [hparts]
    exact filterMap_tags fun tag htag => (h tag htag).1
  have htags : Renders (Ends .identifier) (.name (.rule .tagBlock)) _ [.tags (allCleared args)] :=
    .named (renders_braced hitems hnext) (congrArg Part.tags hpicked)
  have hsign : Terminal.mark? .percent = some '%' := rfl
  have hbinding := ((renders_name hname).after_sign hsign).both htags.present fun rest _ =>
    ends_name (by decide) _
  have hwritten : (written (styleBinding name args extent)).toList =
      '%' :: name.toList ++ ('\x7b' :: (args.map nodeItem).flatMap (·.1) ++ [' ', '\x7d']) := by
    simp [written, toList_braced, allWritten_eq_map, List.flatMap_map, nodeItem]
  rw [Rendered, hwritten]
  exact .named hbinding rfl

end Kinds

section Nodes

theorem starts_path {path : Path} (h : isPath path = true) :
    StartsWord (pathText path).toList := by
  cases path with
  | nil => cases h
  | cons name rest =>
    rw [toList_pathText, List.map_cons, Renders.intercalate_cons]
    simp only [isPath, List.all_cons, Bool.and_eq_true] at h
    exact (starts_name h.2.1).append _

/-- A target begins with its name, and so does what has targets. -/
theorem starts_targets {targets : List Node} (hsome : targets ≠ [])
    (hkind : ∀ target ∈ targets, isTarget target = true) (h : allWritable targets = true) :
    StartsWord (", ".intercalate (allWritten targets)).toList := by
  cases targets with
  | nil => exact absurd rfl hsome
  | cons first rest =>
    have hfirst := hkind first (by simp)
    cases first with
    | target name styling extent =>
      simp only [allWritable, isWritable, Bool.and_eq_true] at h
      rw [String.toList_intercalate, allWritten, List.map_cons, Renders.intercalate_cons, written,
        String.toList_append]
      exact ((starts_name h.1.1.1).append _).append _
    | _ => cases hfirst

/-- What has a line of its own, or stands to the left of an equals sign, begins with no blank. -/
theorem starts_written {node : Node} (hkind : isStatement node = true ∨ isTarget node = true)
    (h : isWritable node = true) : StartsWord (written node).toList := by
  cases node with
  | call name args styling extent =>
    simp only [isWritable, Bool.and_eq_true] at h
    simp only [written, String.toList_append]
    exact ((starts_name h.1.1.1.1).append _).append _
  | «variable» path extent => exact starts_path h
  | assignment targets value extent =>
    simp only [isWritable, Bool.and_eq_true, Bool.not_eq_true', List.isEmpty_eq_false_iff,
      List.all_eq_true] at h
    simp only [written, String.toList_append]
    exact ((starts_targets h.1.1.1.1 h.1.1.1.2 h.1.1.2).append _).append _
  | scope name body bodyExtent args argsExtent styling extent =>
    simp only [isWritable, Bool.and_eq_true, Bool.or_eq_true, decide_eq_true_eq] at h
    simp only [written, String.toList_append]
    rcases h.1.1.1.1.1.1 with rfl | hname
    · exact ⟨'[', _, rfl, by decide⟩
    · exact (((((starts_name hname).append _).append _).append _).append _).append _
  | package location label extent =>
    simp only [isWritable, Bool.and_eq_true] at h
    simp only [written, String.toList_append]
    cases label with
    | none => exact ⟨'@', _, rfl, by decide⟩
    | some name =>
      simp only [Option.elim, String.toList_append]
      exact (((starts_name h.2).append _).append _).append _
  | namedStyle name own extent =>
    simp only [written, String.toList_append]
    exact ⟨'#', _, rfl, by decide⟩
  | styleBinding keyword tags extent =>
    simp only [written, String.toList_append]
    exact ⟨'%', _, rfl, by decide⟩
  | target name styling extent =>
    simp only [isWritable, Bool.and_eq_true] at h
    simp only [written, String.toList_append]
    exact (starts_name h.1.1).append _
  | _ => rcases hkind with hkind | hkind <;> cases hkind

theorem writable_of_mem {nodes : List Node} (h : allWritable nodes = true) :
    ∀ node ∈ nodes, isWritable node = true := by
  induction nodes with
  | nil => simp
  | cons first rest ih =>
    rw [allWritable, Bool.and_eq_true] at h
    exact List.forall_mem_cons.mpr ⟨h.1, ih h.2⟩

theorem statement_of_argument {node : Node} (h : isArgument node = true) :
    isStatement node = true := by
  cases node <;> first | rfl | cases h

theorem statement_of_rightSide {node : Node} (h : isRightSide node = true) :
    isStatement node = true := by
  cases node <;> first | rfl | cases h

/-- What is known about nodes of a list, gathered for each of them. -/
theorem each_rendered {kind : Node → Bool} {nodes : List Node} (hkinds : nodes.all kind = true)
    (hbegins : ∀ node, kind node = true → isStatement node = true ∨ isTarget node = true)
    (hwritable : allWritable nodes = true) (h : ∀ node ∈ nodes, Rendered node) :
    ∀ node ∈ nodes, kind node = true ∧ StartsWord (written node).toList ∧ Rendered node := by
  intro node hnode
  have hkind := List.all_eq_true.mp hkinds node hnode
  exact ⟨hkind, starts_written (hbegins node hkind) (writable_of_mem hwritable node hnode),
    h node hnode⟩

mutual

/-- Everything that can be written down is read back. -/
theorem rendered : ∀ node : Node, isWritable node = true → Rendered node
  | call name args styling extent, h => by
    simp only [isWritable, Bool.and_eq_true] at h
    obtain ⟨⟨⟨⟨hname, hkinds⟩, hargs⟩, hkind⟩, hstyling⟩ := h
    have hvalues := each_rendered hkinds (fun _ h => .inl (statement_of_argument h)) hargs
      (allRendered args hargs)
    exact renders_call hname hvalues hkind (shownRendered styling hstyling) extent
  | .variable _ extent, h => renders_variable h extent
  | assignment targets assigned extent, h => by
    simp only [isWritable, Bool.and_eq_true, Bool.not_eq_true', List.isEmpty_eq_false_iff] at h
    obtain ⟨⟨⟨⟨hsome, hkinds⟩, htargets⟩, hkind⟩, hvalue⟩ := h
    have hrendered := shownRendered assigned hvalue
    cases assigned with
    | none => cases hkind
    | some own =>
      exact renders_assignment hsome (each_rendered hkinds (fun _ h => .inr h) htargets
        (allRendered targets htargets)) hkind
        (starts_written (.inl (statement_of_rightSide hkind)) hvalue) (hrendered own rfl) extent
  | scope name body bodyExtent args argsExtent styling extent, h => by
    simp only [isWritable, Bool.and_eq_true, Bool.or_eq_true, decide_eq_true_eq] at h
    obtain ⟨⟨⟨⟨⟨⟨hname, hstatements⟩, hbody⟩, hkinds⟩, hargs⟩, hkind⟩, hstyling⟩ := h
    have hlines := renders_statementList
      (each_rendered hstatements (fun _ h => .inl h) hbody (allRendered body hbody)) none
    have hvalues := each_rendered hkinds (fun _ h => .inl (statement_of_argument h)) hargs
      (allRendered args hargs)
    exact renders_scope hname hlines hvalues hkind (shownRendered styling hstyling) bodyExtent
      argsExtent extent
  | package location label extent, h => by
    simp only [isWritable, Bool.and_eq_true, Bool.not_eq_true', List.contains_eq_mem,
      decide_eq_false_iff_not] at h
    exact renders_package h.1.1 h.1.2 h.2 extent
  | namedStyle name own extent, h => by
    simp only [isWritable, Bool.and_eq_true] at h
    exact renders_namedStyle h.1.1 h.1.2 (rendered own h.2) extent
  | styleBinding keyword referred extent, h => by
    simp only [isWritable, Bool.and_eq_true, List.all_eq_true] at h
    have htags := allRendered referred h.2
    exact renders_styleBinding h.1.1 (fun tag htag => ⟨h.1.2 tag htag, htags tag htag⟩) extent
  | target name styling extent, h => by
    simp only [isWritable, Bool.and_eq_true] at h
    exact renders_target h.1.1 h.1.2 (shownRendered styling h.2) extent
  | style properties referred extent, h => by
    simp only [isWritable, Bool.and_eq_true, decide_eq_true_eq, List.all_eq_true] at h
    obtain ⟨⟨⟨hkeys, hentries⟩, hkinds⟩, htags⟩ := h
    have hrendered := allRendered referred htags
    exact renders_style hkeys hentries (fun tag htag => ⟨hkinds tag htag, hrendered tag htag⟩)
      extent
  | styleTag _ extent, h => renders_styleTag h extent
  | valueList values extent, h => by
    simp only [isWritable, Bool.and_eq_true, Bool.not_eq_true', List.isEmpty_eq_false_iff] at h
    have hvalues := each_rendered h.1.2 (fun _ h => .inl (statement_of_argument h)) h.2
      (allRendered values h.2)
    exact renders_valueList h.1.1 hvalues extent
  | statementList statements extent, h => by
    simp only [isWritable, Bool.and_eq_true] at h
    exact renders_statementList (each_rendered h.1 (fun _ h => .inl h) h.2
      (allRendered statements h.2)) extent
  | .recipe statements extent, h => by
    simp only [isWritable, Bool.and_eq_true] at h
    exact renders_recipe (each_rendered h.1 (fun _ h => .inl h) h.2
      (allRendered statements h.2)) extent

theorem shownRendered : ∀ shown : Option Node, shownWritable shown = true →
    ∀ node ∈ shown, Rendered node
  | none, _ => by simp
  | some own, h => by
    rintro _ ⟨⟩
    exact rendered own h

theorem allRendered : ∀ nodes : List Node, allWritable nodes = true → ∀ node ∈ nodes, Rendered node
  | [], _ => by simp
  | first :: rest, h => by
    simp only [allWritable, Bool.and_eq_true] at h
    exact List.forall_mem_cons.mpr ⟨rendered first h.1, allRendered rest h.2⟩

end

end Nodes

/-- What a derivation of a recipe is read as shows by its parts. -/
theorem statementsOf_parts {derivation : Derivation} {recipe : Recipe}
    (hsymbol : derivation.symbol = .nonterminal (.rule .recipe))
    (hparts : derivation.parts.map (seen fun _ => none) = [.node (cleared recipe.toNode)]) :
    allMoved (fun _ => none) (statementsOf derivation) = allCleared recipe.statements := by
  cases derivation with
  | leaf token => cases hsymbol
  | node head children =>
    obtain rfl := Grammar.Symbol.nonterminal.inj hsymbol
    have hnode := Part.node.inj (List.singleton_inj.mp hparts)
    exact (Node.recipe.inj hnode).1

/-- A recipe that can be written down is read back, without complaint and the same apart from where
its nodes stand. -/
theorem written_and_read_back (recipe : Recipe) (filename : String)
    (h : isWritable recipe.toNode = true) :
    (∃ tree, parse (written recipe.toNode) filename = .ok tree) ∧
      (ofText (written recipe.toNode) filename).diagnostics = [] ∧
        (ofText (written recipe.toNode) filename).recipe.toNode.cleared =
          recipe.toNode.cleared := by
  have hrendered : Renders (Ends .newline) (.name (.rule .recipe)) (written recipe.toNode).toList
      [.node (cleared recipe.toNode)] := rendered recipe.toNode h
  obtain ⟨reading, hparts, hspelled⟩ := hrendered
  have hwords := hspelled [] [] ⟨by simp, by simp⟩ .nil
  rw [List.append_nil, List.append_nil] at hwords
  obtain ⟨derivation, haccepted, hreading⟩ := accept_reading reading
  obtain ⟨derivation', h', hsame⟩ := derive_spelled haccepted hwords
  rw [hreading, partsOfAll_single] at hparts
  have hstatements := statementsOf_parts (accept?_eq_some.mp haccepted).2.1 hparts
  rw [statementsOf_alike Derivation.unseen_bare hsame, allMoved_none] at hstatements
  rw [parse_ok_iff, ofText_read h']
  exact ⟨⟨derivation', h'⟩, rfl, congrArg (Node.recipe · none) hstatements⟩

/-- A statement of every kind but a call and a name on its own, which are in the scope. -/
def sampler : Recipe :=
  let block := style ⟨[("color", "dark red"), ("label", "one\ntwo, \x7b3\x7d")]⟩
    [styleTag ["s"] none, styleTag ["lib", "t"] none] none
  ⟨[package "lib.fiz" (some "lib") none, namedStyle "s" block none,
    styleBinding "kw" [styleTag ["s"] none] none,
    assignment [target "a" (some block) none, target "b" none none]
      (some (scope "" [call "f" [.variable ["x"] none, call "g" [] (some block) none] none none,
        .variable ["lib", "y"] none, scope "inner" [] none [] none none none] none
        [call "h" [] none none] none (some block) none)) none], none⟩

theorem written_and_read_back_sampler :
    (∃ tree, parse (written sampler.toNode) "" = .ok tree) ∧
      (ofText (written sampler.toNode) "").diagnostics = [] ∧
        (ofText (written sampler.toNode) "").recipe.toNode.cleared = sampler.toNode.cleared :=
  written_and_read_back sampler "" (by decide +kernel)

end RecipeGraph.Recipe
