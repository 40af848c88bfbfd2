import Mathlib.Tactic.Common
import RecipeGraph.Recipe.OfTree
import RecipeGraph.Recipe.Positions

/-!
What rules make of the parts of their children. Where a rule finds words and paths when it looks for
names, it can be said what it makes without a source, and without what its pieces would look like
written out. What it makes does not depend on where its parts stand, but for the extents in it.
-/
namespace RecipeGraph.Recipe

open Source Grammar

namespace Node

mutual

/-- A node with every extent changed, but for that of an empty list in the place of a value or a
styling. -/
def moved (move : Option Span → Option Span) : Node → Node
  | call name args styling extent =>
      call name (allMoved move args) (shownMoved move styling) (move extent)
  | .variable path extent => .variable path (move extent)
  | assignment targets value extent =>
      assignment (allMoved move targets) (shownMoved move value) (move extent)
  | scope name body bodyExtent args argsExtent styling extent =>
      scope name (allMoved move body) (move bodyExtent) (allMoved move args) (move argsExtent)
        (shownMoved move styling) (move extent)
  | package location label extent => package location label (move extent)
  | namedStyle name own extent => namedStyle name (moved move own) (move extent)
  | styleBinding keyword tags extent => styleBinding keyword (allMoved move tags) (move extent)
  | target name styling extent => target name (shownMoved move styling) (move extent)
  | style properties tags extent => style properties (allMoved move tags) (move extent)
  | styleTag path extent => styleTag path (move extent)
  | valueList nodes extent => valueList (allMoved move nodes) (move extent)
  | statementList nodes extent => statementList (allMoved move nodes) (move extent)
  | recipe nodes extent => recipe (allMoved move nodes) (move extent)

def shownMoved (move : Option Span → Option Span) : Option Node → Option Node
  | none => none
  | some node => some (if node.isEmptyList then node else moved move node)

def allMoved (move : Option Span → Option Span) : List Node → List Node
  | [] => []
  | node :: rest => moved move node :: allMoved move rest

end

section Moved

variable {move : Option Span → Option Span}

theorem allMoved_eq_map (nodes : List Node) : allMoved move nodes = nodes.map (moved move) := by
  induction nodes with
  | nil => rfl
  | cons node rest ih => simp [allMoved, ih]

mutual

theorem moved_none : ∀ node : Node, moved (fun _ => none) node = cleared node
  | call _ args styling _ => by simp [moved, cleared, allMoved_none args, shownMoved_none styling]
  | .variable _ _ => rfl
  | assignment targets value _ => by
    simp [moved, cleared, allMoved_none targets, shownMoved_none value]
  | scope _ body _ args _ styling _ => by
    simp [moved, cleared, allMoved_none body, allMoved_none args, shownMoved_none styling]
  | package _ _ _ => rfl
  | namedStyle _ own _ => by simp [moved, cleared, moved_none own]
  | styleBinding _ tags _ => by simp [moved, cleared, allMoved_none tags]
  | target _ styling _ => by simp [moved, cleared, shownMoved_none styling]
  | style _ tags _ => by simp [moved, cleared, allMoved_none tags]
  | styleTag _ _ => rfl
  | valueList nodes _ => by simp [moved, cleared, allMoved_none nodes]
  | statementList nodes _ => by simp [moved, cleared, allMoved_none nodes]
  | recipe nodes _ => by simp [moved, cleared, allMoved_none nodes]

theorem shownMoved_none : ∀ node : Option Node, shownMoved (fun _ => none) node = shownCleared node
  | none => rfl
  | some node => by simp [shownMoved, shownCleared, moved_none node]

theorem allMoved_none : ∀ nodes : List Node, allMoved (fun _ => none) nodes = allCleared nodes
  | [] => rfl
  | node :: rest => by simp [allMoved, allCleared, moved_none node, allMoved_none rest]

end

mutual

theorem moved_id : ∀ node : Node, moved id node = node
  | call _ args styling _ => by simp [moved, allMoved_id args, shownMoved_id styling]
  | .variable _ _ => rfl
  | assignment targets value _ => by simp [moved, allMoved_id targets, shownMoved_id value]
  | scope _ body _ args _ styling _ => by
    simp [moved, allMoved_id body, allMoved_id args, shownMoved_id styling]
  | package _ _ _ => rfl
  | namedStyle _ own _ => by simp [moved, moved_id own]
  | styleBinding _ tags _ => by simp [moved, allMoved_id tags]
  | target _ styling _ => by simp [moved, shownMoved_id styling]
  | style _ tags _ => by simp [moved, allMoved_id tags]
  | styleTag _ _ => rfl
  | valueList nodes _ => by simp [moved, allMoved_id nodes]
  | statementList nodes _ => by simp [moved, allMoved_id nodes]
  | recipe nodes _ => by simp [moved, allMoved_id nodes]

theorem shownMoved_id : ∀ node : Option Node, shownMoved id node = node
  | none => rfl
  | some node => by simp [shownMoved, moved_id node]

theorem allMoved_id : ∀ nodes : List Node, allMoved id nodes = nodes
  | [] => rfl
  | node :: rest => by simp [allMoved, moved_id node, allMoved_id rest]

end

end Moved

end Node

namespace Part

/-- The text of a word. -/
def text : Part → String
  | word leaf => leaf.text
  | _ => ""

/-- The names of a path. -/
def names : Part → Path
  | path names => names
  | _ => []

/-- What a rule makes of the parts of its children, where it finds words and paths among them. -/
def made (rule : Rule) (parts : List Part) (extent : Option Span) : Part :=
  let rest := parts.drop 1
  let name := (parts.head?.map text).getD ""
  let referred := (parts.head?.map names).getD []
  match rule with
  | .recipe => node (.recipe (parts.filterMap node?) extent)
  | .body => node (.statementList (parts.filterMap node?) extent)
  | .argList => node (.valueList (parts.filterMap node?) extent)
  | .call =>
      node (.call name (((lastOf values? rest).map (·.1)).getD []) (lastOf style? rest) extent)
  | .assignment =>
      node (.assignment (parts.filterMap target?) (lastOf rightSide? parts) extent)
  | .target => node (.target name (firstOf style? rest) extent)
  | .reference => node (.variable referred extent)
  | .qualifiedName => path (parts.map text)
  | .scope =>
      let body := (lastOf statements? parts).getD ([], none)
      let args := (lastOf values? parts).getD ([], none)
      let name := ((lastOf word? parts).map (·.text)).getD ""
      node (.scope name body.1 body.2 args.1 args.2 (lastOf style? parts) extent)
  | .package =>
      let words := parts.filterMap word?
      let label := (words.filter (·.kind = Terminal.identifier.name)).getLast?
      let literals := words.filter (·.kind ≠ Terminal.identifier.name)
      node (.packageNamed ("\n".intercalate (literals.map fun leaf => stripQuotes leaf.text))
        (label.map (·.text)) extent)
  | .namedStyle =>
      node (.namedStyle name ((firstOf style? rest).getD (.style {} [] none)) extent)
  | .styleBinding => node (.styleBinding name ((lastOf tags? rest).getD []) extent)
  | .styleBlock => node (.style (propertiesOf parts) (parts.filterMap styleTag?) extent)
  | .tagBlock => tags (parts.filterMap styleTag?)
  | .property => property name (",".intercalate (rest.map valueText))
  | .propertyValue => value (cleanValue name)
  | .styleTag => node (.styleTag referred extent)
  | .description => description (cleanValue name)

/-- A part with its extents changed, and with a word apart from where it stands. -/
def seen (move : Option Span → Option Span) : Part → Part
  | node made => node (made.moved move)
  | word leaf => word ⟨leaf.kind, leaf.text, none, 0, 0⟩
  | tags made => tags (Node.allMoved move made)
  | other => other

section Seen

variable {α : Type} {move : Option Span → Option Span} {pick : Part → Option α} {change : α → α}

theorem filterMap_seen (hpick : ∀ part : Part, pick (part.seen move) = (pick part).map change)
    (parts : List Part) :
    (parts.map (seen move)).filterMap pick = (parts.filterMap pick).map change := by
  rw [List.filterMap_map, List.map_filterMap]
  exact congrArg (List.filterMap · parts) (funext hpick)

theorem lastOf_seen (hpick : ∀ part : Part, pick (part.seen move) = (pick part).map change)
    (parts : List Part) :
    lastOf pick (parts.map (seen move)) = (lastOf pick parts).map change := by
  rw [lastOf, filterMap_seen hpick, List.getLast?_map, lastOf]

theorem firstOf_seen (hpick : ∀ part : Part, pick (part.seen move) = (pick part).map change)
    (parts : List Part) :
    firstOf pick (parts.map (seen move)) = (firstOf pick parts).map change := by
  rw [firstOf, filterMap_seen hpick, List.head?_map, firstOf]

@[simp] theorem node?_seen (part : Part) :
    node? (part.seen move) = (node? part).map (Node.moved move) := by
  cases part <;> rfl

@[simp] theorem style?_seen (part : Part) :
    style? (part.seen move) = (style? part).map (Node.moved move) := by
  cases part with
  | node made => cases made <;> rfl
  | _ => rfl

@[simp] theorem styleTag?_seen (part : Part) :
    styleTag? (part.seen move) = (styleTag? part).map (Node.moved move) := by
  cases part with
  | node made => cases made <;> rfl
  | _ => rfl

@[simp] theorem target?_seen (part : Part) :
    target? (part.seen move) = (target? part).map (Node.moved move) := by
  cases part with
  | node made => cases made <;> rfl
  | _ => rfl

@[simp] theorem rightSide?_seen (part : Part) :
    rightSide? (part.seen move) = (rightSide? part).map (Node.moved move) := by
  cases part with
  | node made => cases made <;> rfl
  | _ => rfl

@[simp] theorem values?_seen (part : Part) : values? (part.seen move) =
    (values? part).map fun values => (Node.allMoved move values.1, move values.2) := by
  cases part with
  | node made => cases made <;> rfl
  | _ => rfl

@[simp] theorem statements?_seen (part : Part) : statements? (part.seen move) =
    (statements? part).map fun body => (Node.allMoved move body.1, move body.2) := by
  cases part with
  | node made => cases made <;> rfl
  | _ => rfl

@[simp] theorem word?_seen (part : Part) : word? (part.seen move) =
    (word? part).map fun leaf => ⟨leaf.kind, leaf.text, none, 0, 0⟩ := by
  cases part <;> rfl

@[simp] theorem tags?_seen (part : Part) :
    tags? (part.seen move) = (tags? part).map (Node.allMoved move) := by
  cases part <;> rfl

@[simp] theorem description?_seen (part : Part) :
    description? (part.seen move) = description? part := by
  cases part <;> rfl

@[simp] theorem property?_seen (part : Part) : property? (part.seen move) = property? part := by
  cases part <;> rfl

@[simp] theorem valueText_seen (part : Part) : valueText (part.seen move) = valueText part := by
  cases part <;> rfl

@[simp] theorem text_seen (part : Part) : text (part.seen move) = text part := by
  cases part <;> rfl

@[simp] theorem names_seen (part : Part) : names (part.seen move) = names part := by
  cases part <;> rfl

@[simp] theorem propertiesOf_seen (parts : List Part) :
    propertiesOf (parts.map (seen move)) = propertiesOf parts := by
  simp only [propertiesOf, List.filterMap_map, Function.comp_def, property?_seen,
    description?_seen]

/-- What is found where a value or a styling is looked for is no empty list. -/
theorem shownMoved_lastOf {pick : Part → Option Node}
    (hpick : ∀ part node, pick part = some node → node.isEmptyList = false) (parts : List Part) :
    Node.shownMoved move (lastOf pick parts) = (lastOf pick parts).map (Node.moved move) := by
  cases hlast : lastOf pick parts with
  | none => rfl
  | some node =>
    obtain ⟨part, -, hpart⟩ := List.mem_filterMap.mp (List.mem_of_getLast? hlast)
    simp [Node.shownMoved, hpick part node hpart]

theorem shownMoved_firstOf {pick : Part → Option Node}
    (hpick : ∀ part node, pick part = some node → node.isEmptyList = false) (parts : List Part) :
    Node.shownMoved move (firstOf pick parts) = (firstOf pick parts).map (Node.moved move) := by
  cases hfirst : firstOf pick parts with
  | none => rfl
  | some node =>
    obtain ⟨part, -, hpart⟩ := List.mem_filterMap.mp (List.mem_of_head? hfirst)
    simp [Node.shownMoved, hpick part node hpart]

theorem style?_not_empty (part : Part) (node : Node) (h : style? part = some node) :
    node.isEmptyList = false := by
  cases part with
  | node made => cases made <;> cases h; rfl
  | _ => cases h

theorem rightSide?_not_empty (part : Part) (node : Node) (h : rightSide? part = some node) :
    node.isEmptyList = false := by
  cases part with
  | node made => cases made <;> cases h <;> rfl
  | _ => cases h

/-- A rule makes the same of parts that look the same. -/
theorem made_seen (hmove : move none = none) (rule : Rule) (parts : List Part)
    (extent : Option Span) :
    (made rule parts extent).seen move = made rule (parts.map (seen move)) (move extent) := by
  have hrest : (parts.map (seen move)).drop 1 = (parts.drop 1).map (seen move) :=
    List.map_drop.symm
  have hname : ((parts.map (seen move)).head?.map text).getD "" =
      (parts.head?.map text).getD "" := by
    simp [Function.comp_def]
  have hreferred : ((parts.map (seen move)).head?.map names).getD [] =
      (parts.head?.map names).getD [] := by
    simp [Function.comp_def]
  unfold made
  dsimp only
  rw [hrest, hname, hreferred]
  cases rule with
  | recipe | body | argList =>
    simp [seen, Node.moved, Node.allMoved_eq_map, filterMap_seen node?_seen]
  | assignment =>
    simp [seen, Node.moved, Node.allMoved_eq_map, filterMap_seen target?_seen,
      lastOf_seen rightSide?_seen, shownMoved_lastOf rightSide?_not_empty]
  | call =>
    simp only [seen, Node.moved, lastOf_seen values?_seen, lastOf_seen style?_seen,
      shownMoved_lastOf style?_not_empty]
    cases lastOf values? (parts.drop 1) <;> rfl
  | target =>
    simp only [seen, Node.moved, firstOf_seen style?_seen, shownMoved_firstOf style?_not_empty]
  | scope =>
    simp only [seen, Node.moved, lastOf_seen values?_seen, lastOf_seen style?_seen,
      lastOf_seen statements?_seen, lastOf_seen word?_seen, shownMoved_lastOf style?_not_empty]
    cases lastOf values? parts <;> cases lastOf statements? parts <;>
      cases lastOf word? parts <;> simp [Node.allMoved, hmove]
  | package =>
    simp [seen, Node.moved, Node.packageNamed, filterMap_seen word?_seen, List.filter_map,
      Function.comp_def]
  | namedStyle =>
    simp only [seen, Node.moved, firstOf_seen style?_seen]
    cases firstOf style? (parts.drop 1) <;> simp [Node.moved, Node.allMoved, hmove]
  | styleBinding =>
    simp only [seen, Node.moved, lastOf_seen tags?_seen]
    cases lastOf tags? (parts.drop 1) <;> rfl
  | styleBlock =>
    simp [seen, Node.moved, Node.allMoved_eq_map, filterMap_seen styleTag?_seen]
  | tagBlock => simp [seen, Node.allMoved_eq_map, filterMap_seen styleTag?_seen]
  | property =>
    have hvalues : ((parts.drop 1).map (seen move)).map valueText =
        (parts.drop 1).map valueText := by
      simp [Function.comp_def]
    rw [hvalues]
    rfl
  | qualifiedName =>
    have htexts : (parts.map (seen move)).map text = parts.map text := by
      simp [Function.comp_def]
    rw [htexts]
    rfl
  | reference | propertyValue | styleTag | description => rfl

end Seen

/-- The parts of the children are what a rule looks for where it reads names and paths. -/
def Fits (parts : List Part) : Rule → Prop
  | .call | .target | .namedStyle | .styleBinding | .property | .propertyValue | .description =>
      ∃ leaf, parts.head? = some (word leaf)
  | .reference | .styleTag => ∃ names, parts.head? = some (path names)
  | .qualifiedName => ∀ part ∈ parts, ∃ leaf, part = word leaf
  | _ => True

section Made

variable {source : List Char} {pieces : List Piece}

theorem name_of_word {piece : Piece} {leaf : Leaf} (hpart : piece.part = word leaf)
    (hread : wordText source leaf = leaf.text) : piece.name source = piece.part.text := by
  unfold Piece.name
  rw [hpart]
  exact hread

theorem firstName_eq (hread : ∀ leaf, word leaf ∈ pieces.map (·.part) →
      wordText source leaf = leaf.text)
    (h : ∃ leaf, (pieces.map (·.part)).head? = some (word leaf)) :
    firstName source pieces = ((pieces.map (·.part)).head?.map text).getD "" := by
  obtain ⟨leaf, hhead⟩ := h
  cases pieces with
  | nil => cases hhead
  | cons piece rest =>
    have hpart : piece.part = word leaf := Option.some.inj hhead
    exact name_of_word hpart (hread leaf (by simp [hpart]))

theorem firstPath_eq (h : ∃ names, (pieces.map (·.part)).head? = some (path names)) :
    firstPath pieces = ((pieces.map (·.part)).head?.map names).getD [] := by
  obtain ⟨names, hhead⟩ := h
  cases pieces with
  | nil => cases hhead
  | cons piece rest =>
    have hpart : piece.part = path names := Option.some.inj hhead
    simp [firstPath, Piece.segments, Part.names, hpart]

/-- Where every rule finds what it looks for, the source and the literals make no difference. -/
theorem partOf_eq_made {rule : Rule} (hrule : rule ≠ .recipe)
    (hfits : Fits (pieces.map (·.part)) rule)
    (hread : ∀ leaf, word leaf ∈ pieces.map (·.part) → wordText source leaf = leaf.text)
    (extent : Option Span) :
    partOf source rule pieces extent = made rule (pieces.map (·.part)) extent := by
  have hwords : ∀ leaf ∈ (pieces.map (·.part)).filterMap word?,
      wordText source leaf = leaf.text := by
    intro leaf hleaf
    obtain ⟨part, hpart, hword⟩ := List.mem_filterMap.mp hleaf
    cases part with
    | word other =>
      cases hword
      exact hread leaf hpart
    | _ => cases hword
  cases rule with
  | recipe => exact absurd rfl hrule
  | call | target | namedStyle | styleBinding | property | propertyValue | description =>
    unfold partOf made
    rw [firstName_eq hread hfits]
  | reference | styleTag =>
    unfold partOf made
    rw [firstPath_eq hfits]
  | qualifiedName =>
    refine congrArg path ?_
    rw [List.map_map]
    refine List.map_congr_left fun piece hpiece => ?_
    have hpart : piece.part ∈ pieces.map (·.part) := List.mem_map_of_mem hpiece
    obtain ⟨leaf, hleaf⟩ := hfits _ hpart
    exact name_of_word hleaf (hread leaf (hleaf ▸ hpart))
  | scope =>
    have hname : (lastOf word? (pieces.map (·.part))).map (wordText source) =
        (lastOf word? (pieces.map (·.part))).map (·.text) :=
      Option.map_congr fun leaf hleaf => hwords leaf (List.mem_of_getLast? hleaf)
    unfold partOf made
    dsimp only
    rw [hname]
  | package =>
    let words := (pieces.map (·.part)).filterMap word?
    have hlabel : (words.filter (·.kind = Terminal.identifier.name)).getLast?.map
        (wordText source) =
        (words.filter (·.kind = Terminal.identifier.name)).getLast?.map (·.text) :=
      Option.map_congr fun leaf hleaf =>
        hwords leaf (List.mem_filter.mp (List.mem_of_getLast? hleaf)).1
    have hliterals : (words.filter (·.kind ≠ Terminal.identifier.name)).map
        (fun leaf => stripQuotes (wordText source leaf)) =
        (words.filter (·.kind ≠ Terminal.identifier.name)).map fun leaf => stripQuotes leaf.text :=
      List.map_congr_left fun leaf hleaf =>
        congrArg stripQuotes (hwords leaf (List.mem_filter.mp hleaf).1)
    unfold partOf made packageOf
    dsimp only [words] at hlabel hliterals ⊢
    rw [hlabel, hliterals]
  | body | argList | assignment | styleBlock | tagBlock => rfl

end Made

end Part

end RecipeGraph.Recipe
