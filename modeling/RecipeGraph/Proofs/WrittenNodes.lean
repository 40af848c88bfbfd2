import RecipeGraph.Proofs.Maps
import RecipeGraph.Proofs.WrittenTexts

/-!
Nodes that are written down. What is written for a node is a reading of the rule for its kind, and
the node is what the rule makes of it, apart from where it stands.
-/
namespace RecipeGraph.Recipe

open Grammar Source Recipe.Part

namespace Node

/-- The rule that gives nodes of that kind. -/
def rule : Node → Rule
  | call .. => .call
  | .variable .. => .reference
  | assignment .. => .assignment
  | scope .. => .scope
  | package .. => .package
  | namedStyle .. => .namedStyle
  | styleBinding .. => .styleBinding
  | target .. => .target
  | style .. => .styleBlock
  | styleTag .. => .styleTag
  | valueList .. => .argList
  | statementList .. => .body
  | recipe .. => .recipe

/-- What may follow on the node: no more of its last name, or of the line break at its end. -/
def follow : Node → List Char → Prop
  | statementList .. | recipe .. => Ends .newline
  | _ => Ends .identifier

/-- What is written for the node is read as it. -/
def Rendered (node : Node) : Prop :=
  Renders node.follow (.name (.rule node.rule)) (written node).toList [.node (cleared node)]

end Node

open Node

section Styles

variable {follow : List Char → Prop} {inner : Pattern} {items : List (List Char × List Part)}
  {entry : String × String} {properties : OrderedMap String} {tags : List Node}

theorem renders_quoted {text : String} (h : isQuotable text = true) :
    Renders follow (.word .stringLiteral) (quotedText text).toList
      (wordParts .stringLiteral (quotedText text)) :=
  .word (spells_quotedText h) fun rest _ => ends_fixed _ (fun _ => rfl) (by decide) rest

theorem starts_quoted (text : String) : StartsWord (quotedText text).toList :=
  ⟨'"', _, toList_quotedText text, by decide⟩

theorem renders_propertyValue {text : String} (h : isQuotable text = true) :
    Renders follow (.name (.rule .propertyValue)) (quotedText text).toList [.value text] :=
  .named (renders_quoted h).right (congrArg Part.value (cleanValue_quotedText h))

/-- A property without the semicolon behind it. -/
theorem renders_property (hkey : isSpelled .propertyName entry.1 = true)
    (hvalue : isQuotable entry.2 = true) :
    Renders follow (.name (.rule .property))
      (entry.1.toList ++ [':'] ++ ' ' :: (quotedText entry.2).toList)
      [.property entry.1 entry.2] := by
  have hname : Renders (Ends .propertyName) (.word .propertyName) entry.1.toList
      (wordParts .propertyName entry.1) :=
    .word (spells_of_isSpelled hkey) fun _ hrest => hrest
  have hcolon : Renders (fun _ => True) (.mark .colon) [':'] [] := .sign rfl
  have hends : ∀ rest, Ends .propertyName (':' :: rest) := fun rest =>
    (ends_iff_head (by decide)).mpr (by simpa using by decide +kernel)
  have hquoted : Renders follow (.name (.rule .propertyValue)) (' ' :: (quotedText entry.2).toList)
      [.value entry.2] :=
    (renders_propertyValue hvalue).blank (starts_quoted entry.2)
  have hone : Renders follow (.repeated (.mark .comma ++ .name (.rule .propertyValue))) [] [] :=
    .empty
  have h := ((hname.both hcolon fun rest _ => hends rest).both hquoted fun _ _ => trivial).both hone
    fun _ hrest => hrest
  rw [List.append_nil] at h
  exact .named h rfl

/-- Items in braces. -/
theorem renders_braced (h : ∀ item ∈ items, Renders (Ends .identifier) inner item.1 item.2)
    (hnext : ∀ item ∈ items, ∀ rest, Ends .identifier (item.1 ++ rest)) :
    Renders follow (.word .leftBrace ++ .repeated inner ++ .word .rightBrace)
      ('\x7b' :: items.flatMap (·.1) ++ [' ', '\x7d']) (items.flatMap (·.2)) := by
  have hopen : Renders (fun _ => True) (.word .leftBrace) ['\x7b'] [] := .bracket rfl
  have hclose : Renders follow (.word .rightBrace) [' ', '\x7d'] [] :=
    Renders.blank (.bracket rfl) ⟨'\x7d', [], rfl, by decide⟩
  have hitems := Renders.repeated h fun item hitem => hnext item (List.mem_of_mem_tail hitem)
  have hbraced := (hopen.both hitems fun _ _ => trivial).both hclose
    fun rest _ => ends_name (by decide) ('\x7d' :: rest)
  rwa [List.append_nil] at hbraced

/-- What comes of a property in a style, and then of the semicolon behind it. -/
def propertyItems (entry : String × String) : List (List Char × List Part) :=
  [(' ' :: (entry.1.toList ++ [':'] ++ ' ' :: (quotedText entry.2).toList),
      [.property entry.1 entry.2]),
    ([';'], [])]

def nodeItem (node : Node) : List Char × List Part :=
  (' ' :: (written node).toList, [.node (cleared node)])

theorem allWritten_eq_map (nodes : List Node) : allWritten nodes = nodes.map written := by
  induction nodes with
  | nil => rfl
  | cons node rest ih => simp [allWritten, ih]

theorem allCleared_eq_map (nodes : List Node) : allCleared nodes = nodes.map cleared := by
  induction nodes with
  | nil => rfl
  | cons node rest ih => simp [allCleared, ih]

theorem toList_braced (texts : List String) : (braced texts).toList =
    '\x7b' :: texts.flatMap (fun text => ' ' :: text.toList) ++ [' ', '\x7d'] := by
  simp [braced, List.flatMap_map]

theorem renders_styleTag {path : Path} (h : isPath path = true) (extent : Option Span) :
    Rendered (styleTag path extent) := by
  have hsign : Terminal.mark? .hash = some '#' := rfl
  have hwritten : (written (styleTag path extent)).toList = '#' :: (pathText path).toList := by
    simp [written]
  rw [Rendered, hwritten]
  exact .named ((renders_path h).after_sign hsign) rfl

/-- A tag as an item. -/
theorem renders_tag {tag : Node} (hkind : isStyleTag tag = true) (h : Rendered tag) :
    Renders (Ends .identifier) (.name (.rule .styleTag)) (nodeItem tag).1 (nodeItem tag).2 := by
  cases tag with
  | styleTag path extent =>
    refine Renders.blank h ?_
    exact ⟨'#', (pathText path).toList, by simp [written], by decide⟩
  | _ => cases hkind

theorem ends_item (tag : Node) (rest : List Char) :
    Ends .identifier ((nodeItem tag).1 ++ rest) :=
  ends_name (by decide) _

theorem ends_propertyItems : ∀ item ∈ propertyItems entry, ∀ rest,
    Ends .identifier (item.1 ++ rest) := by
  simp only [propertyItems, List.forall_mem_cons]
  exact ⟨fun rest => ends_name (by decide) _, fun rest => ends_name (by decide) _, by simp⟩

/-- What stands in the braces of a style. -/
abbrev styleItem : Pattern :=
  .name (.rule .property) ||| .name (.rule .styleTag) ||| .name (.rule .description) |||
    .mark .semicolon

theorem renders_propertyItems (hkey : isSpelled .propertyName entry.1 = true)
    (hvalue : isQuotable entry.2 = true) : ∀ item ∈ propertyItems entry,
      Renders (Ends .identifier) styleItem item.1 item.2 := by
  have hstarts : StartsWord (entry.1.toList ++ [':'] ++ ' ' :: (quotedText entry.2).toList) :=
    ((starts_word (spells_of_isSpelled hkey) (by decide) (by decide)).append _).append _
  have hproperty : Renders (Ends .identifier) styleItem
      (' ' :: (entry.1.toList ++ [':'] ++ ' ' :: (quotedText entry.2).toList))
      [.property entry.1 entry.2] :=
    ((renders_property hkey hvalue).blank hstarts).left.left.left
  have hsemicolon : Renders (Ends .identifier) styleItem [';'] [] := (Renders.sign rfl).right
  simp only [propertyItems, List.forall_mem_cons]
  exact ⟨hproperty, hsemicolon, by simp⟩

/-- What is picked from the parts of some nodes. -/
theorem filterMap_nodes {pick : Part → Option Node} {nodes : List Node}
    (hpick : ∀ node ∈ nodes, pick (.node (cleared node)) = some (cleared node)) :
    (nodes.map fun node => Part.node (cleared node)).filterMap pick = allCleared nodes := by
  rw [List.filterMap_map, allCleared_eq_map, ← List.filterMap_eq_map]
  exact List.filterMap_congr hpick

theorem filterMap_tags (h : ∀ tag ∈ tags, isStyleTag tag = true) :
    (tags.map fun tag => Part.node (cleared tag)).filterMap styleTag? = allCleared tags := by
  refine filterMap_nodes fun tag htag => ?_
  have hkind := h tag htag
  cases tag with
  | styleTag path extent => rfl
  | _ => cases hkind

theorem propertiesOf_items (hkeys : properties.keys.Nodup) :
    propertiesOf (properties.entries.map (fun entry => .property entry.1 entry.2) ++
      tags.map fun tag => .node (cleared tag)) = properties := by
  have hgiven : (properties.entries.map fun entry => Part.property entry.1 entry.2).filterMap
      property? = properties.entries := by
    simp [List.filterMap_map, Function.comp_def, property?]
  have hnone : (tags.map fun tag => Part.node (cleared tag)).filterMap property? = [] := by
    simp [List.filterMap_map, Function.comp_def, property?]
  unfold propertiesOf
  rw [List.filterMap_append, List.filterMap_append, hgiven, hnone]
  simp [List.filterMap_map, Function.comp_def, description?]
  exact OrderedMap.empty_merge hkeys

theorem renders_style (hkeys : properties.keys.Nodup)
    (hentries : ∀ entry ∈ properties.entries,
      isSpelled .propertyName entry.1 = true ∧ isQuotable entry.2 = true)
    (htags : ∀ tag ∈ tags, isStyleTag tag = true ∧ Rendered tag) (extent : Option Span) :
    Rendered (style properties tags extent) := by
  let items := properties.entries.flatMap propertyItems ++ tags.map nodeItem
  have hitems : ∀ item ∈ items, Renders (Ends .identifier) styleItem item.1 item.2 := by
    simp only [items, List.forall_mem_append, List.forall_mem_flatMap, List.forall_mem_map]
    refine ⟨fun entry hentry => ?_, fun tag htag => ?_⟩
    · exact renders_propertyItems (hentries entry hentry).1 (hentries entry hentry).2
    · exact (renders_tag (htags tag htag).1 (htags tag htag).2).right.left.left
  have hnext : ∀ item ∈ items, ∀ rest, Ends .identifier (item.1 ++ rest) := by
    simp only [items, List.forall_mem_append, List.forall_mem_flatMap, List.forall_mem_map]
    exact ⟨fun entry _ => ends_propertyItems, fun tag _ => ends_item tag⟩
  have hwritten : (written (style properties tags extent)).toList =
      '\x7b' :: items.flatMap (·.1) ++ [' ', '\x7d'] := by
    simp [written, toList_braced, allWritten_eq_map, items, List.flatMap_append,
      List.flatMap_map, List.flatMap_assoc, propertyItems, propertyText, nodeItem]
  have hparts : items.flatMap (·.2) =
      properties.entries.map (fun entry => .property entry.1 entry.2) ++
        tags.map fun tag => .node (cleared tag) := by
    simp [items, List.flatMap_append, List.flatMap_assoc, List.map_eq_flatMap, propertyItems,
      nodeItem]
  have htagged : (items.flatMap (·.2)).filterMap styleTag? = allCleared tags := by
    have hnone : (properties.entries.map fun entry => Part.property entry.1 entry.2).filterMap
        styleTag? = [] := by
      simp [List.filterMap_map, Function.comp_def, styleTag?]
    rw [hparts, List.filterMap_append, hnone, List.nil_append]
    exact filterMap_tags fun tag htag => (htags tag htag).1
  rw [Rendered, hwritten]
  refine .named (renders_braced hitems hnext) ?_
  show Part.node (.style (propertiesOf (items.flatMap (·.2)))
    ((items.flatMap (·.2)).filterMap styleTag?) none) = _
  rw [htagged, hparts, propertiesOf_items hkeys]
  rfl

end Styles

section Roles

variable {node : Node} {inner : Pattern} {nodes args : List Node} {styling : Option Node}

theorem renders_value (hkind : isArgument node = true) (h : Rendered node) :
    Renders (Ends .identifier) (.name .value) (written node).toList [.node (cleared node)] := by
  have hchoice : ∀ rule, Name.value ≠ .rule rule := by simp
  cases node with
  | call name args styling extent => exact .choice hchoice h.left
  | «variable» path extent => exact .choice hchoice h.right
  | _ => cases hkind

theorem renders_rightSide (hkind : isRightSide node = true) (h : Rendered node) :
    Renders (Ends .identifier) (.name .rightSide) (written node).toList [.node (cleared node)] := by
  have hchoice : ∀ rule, Name.rightSide ≠ .rule rule := by simp
  cases node with
  | call name args styling extent => exact .choice hchoice h.left.left.left
  | «variable» path extent => exact .choice hchoice h.right.left.left
  | scope name body bodyExtent args argsExtent styling extent =>
    exact .choice hchoice h.right.left
  | package location label extent => exact .choice hchoice h.right
  | _ => cases hkind

theorem renders_statement (hkind : isStatement node = true) (h : Rendered node) :
    Renders (Ends .identifier) (.name .statement) (written node).toList [.node (cleared node)] := by
  have hchoice : ∀ rule, Name.statement ≠ .rule rule := by simp
  cases node with
  | call name args styling extent =>
    exact .choice hchoice h.left.left.left.left.left.left
  | assignment targets value extent =>
    exact .choice hchoice h.right.left.left.left.left.left
  | «variable» path extent => exact .choice hchoice h.right.left.left.left.left
  | scope name body bodyExtent args argsExtent styling extent =>
    exact .choice hchoice h.right.left.left.left
  | package location label extent => exact .choice hchoice h.right.left.left
  | namedStyle name own extent => exact .choice hchoice h.right.left
  | styleBinding keyword tags extent => exact .choice hchoice h.right
  | _ => cases hkind

/-- Nodes with commas between them. -/
theorem renders_nodes (hnodes : nodes ≠ [])
    (h : ∀ node ∈ nodes, StartsWord (written node).toList ∧
      Renders (Ends .identifier) inner (written node).toList [.node (cleared node)]) :
    Renders (Ends .identifier) (inner ++ .repeated (.mark .comma ++ inner))
      (", ".intercalate (allWritten nodes)).toList
      (nodes.map fun node => .node (cleared node)) := by
  let items : List (List Char × List Part) :=
    nodes.map fun node => ((written node).toList, [.node (cleared node)])
  have hitems : ∀ item ∈ items, Renders (Ends .identifier) inner item.1 item.2 := by
    rw [List.forall_mem_map]
    exact fun node hnode => (h node hnode).2
  have hbetween : ∀ item ∈ items, Renders (Ends .identifier) inner item.1 item.2 →
      Renders (Ends .identifier) (.mark .comma ++ inner) ([',', ' '] ++ item.1) item.2 := by
    rw [List.forall_mem_map]
    exact fun node hnode hitem => (hitem.blank (h node hnode).1).after_sign rfl
  have hlisted := Renders.separated (by simpa [items] using hnodes) hitems hbetween
    fun rest => ends_name (by decide) _
  have hchars : (", ".intercalate (allWritten nodes)).toList =
      [',', ' '].intercalate (items.map (·.1)) := by
    simp [allWritten_eq_map, items, Function.comp_def]
  have hparts : items.flatMap (·.2) = nodes.map fun node => .node (cleared node) := by
    simp [items, List.map_eq_flatMap, List.flatMap_assoc]
  rwa [hchars, ← hparts]

/-- Arguments are left out if there are none. -/
def argParts (args : List Node) : List Part :=
  if args.isEmpty then [] else [.node (.valueList (allCleared args) none)]

theorem renders_args (h : ∀ arg ∈ args, isArgument arg = true ∧ StartsWord (written arg).toList ∧
      Rendered arg) :
    Renders (Ends .identifier) (.optional (.name (.rule .argList)))
      (", ".intercalate (allWritten args)).toList (argParts args) := by
  cases args with
  | nil => exact .absent
  | cons first rest =>
    have hlisted := renders_nodes (List.cons_ne_nil first rest) fun arg harg =>
      ⟨(h arg harg).2.1, renders_value (h arg harg).1 (h arg harg).2.2⟩
    refine (Renders.named hlisted ?_).present
    exact congrArg (fun values => Part.node (.valueList values none))
      (filterMap_nodes fun _ _ => rfl)

def stylingParts (styling : Option Node) : List Part :=
  styling.toList.map fun node => .node (cleared node)

theorem renders_styling (hkind : styling.all isStyle = true) (h : ∀ own ∈ styling, Rendered own) :
    Renders (Ends .identifier) (.optional (.name (.rule .styleBlock))) (shownWritten styling).toList
      (stylingParts styling) := by
  cases styling with
  | none => exact .absent
  | some own =>
    have hown := h own rfl
    cases own with
    | style properties tags extent => exact hown.present
    | _ => cases hkind

end Roles

end RecipeGraph.Recipe
