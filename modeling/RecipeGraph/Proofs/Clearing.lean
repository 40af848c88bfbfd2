import RecipeGraph.Proofs.Referrals
import RecipeGraph.Proofs.WrittenNodes

/-!
Clearing comes to every node. A node consists of what it says, of where it stands, and of the nodes
in its places. Clearing is told by children, and a list without items is none in some of the places;
but where every place has what belongs there, no node is left out. So what is cleared stands nowhere
and is otherwise what it was, and nodes that are compared afterwards are compared up to where they
stood.
-/
namespace RecipeGraph.Recipe

open Source Grammar Relation

namespace Node

/-- The name in a node, or the text in its place. -/
def word : Node → String
  | call name _ _ _ | scope name _ _ _ _ _ _ | package name _ _ | namedStyle name _ _
  | styleBinding name _ _ | target name _ _ => name
  | _ => ""

def packageLabel : Node → Option String
  | package _ label _ => label
  | _ => none

/-- Where the statements and the values of a scope stand. -/
def listExtents : Node → Option Span × Option Span
  | scope _ _ bodyExtent _ argsExtent _ _ => (bodyExtent, argsExtent)
  | _ => (none, none)

/-- A node stands nowhere. -/
def IsUnplaced (node : Node) : Prop :=
  node.extent = none ∧ node.listExtents = (none, none)

/-- The places for other nodes in a node, with the nodes in them. -/
def places : Node → List (List Node)
  | call _ args styling _ => [args, styling.toList]
  | .variable .. | package .. | styleTag .. => []
  | assignment targets value _ => [targets, value.toList]
  | scope _ body _ args _ styling _ => [body, args, styling.toList]
  | namedStyle _ own _ => [[own]]
  | styleBinding _ tags _ | style _ tags _ => [tags]
  | target _ styling _ => [styling.toList]
  | valueList nodes _ | statementList nodes _ | recipe nodes _ => [nodes]

/-- A node is there somewhere in another one, or is the same. -/
def Contains : Node → Node → Prop :=
  ReflTransGen fun node inner => inner ∈ node.places.flatten

/-- What is in the places of a node is of the kinds that they are for. -/
def IsTyped : Node → Prop
  | call _ args styling _ =>
      (∀ arg ∈ args, arg.isArgument = true) ∧ ∀ worn ∈ styling, worn.isStyle = true
  | .variable .. | package .. | styleTag .. => True
  | assignment targets value _ =>
      (∀ left ∈ targets, left.isTarget = true) ∧ ∀ right ∈ value, right.isRightSide = true
  | scope _ body _ args _ styling _ =>
      (∀ node ∈ body, node.isStatement = true) ∧ (∀ arg ∈ args, arg.isArgument = true) ∧
        ∀ worn ∈ styling, worn.isStyle = true
  | namedStyle _ own _ => own.isStyle = true
  | styleBinding _ tags _ | style _ tags _ => ∀ tag ∈ tags, tag.isStyleTag = true
  | target _ styling _ => ∀ worn ∈ styling, worn.isStyle = true
  | valueList values _ => ∀ value ∈ values, value.isArgument = true
  | statementList statements _ | recipe statements _ =>
      ∀ node ∈ statements, node.isStatement = true

def Typed (node : Node) : Prop :=
  ∀ inner, node.Contains inner → inner.IsTyped

/-- The node in the one place that may be left empty. -/
def held : Node → Option Node
  | call _ _ styling _ | scope _ _ _ _ _ styling _ | target _ styling _ => styling
  | assignment _ value _ => value
  | _ => none

/-- Two nodes say the same, with properties that agree. -/
@[mk_iff]
structure Matches (agree : OrderedMap String → OrderedMap String → Prop) (node other : Node) :
    Prop where
  kind : node.kind = other.kind
  word : node.word = other.word
  label : node.packageLabel = other.packageLabel
  path : node.path = other.path
  properties : agree node.properties other.properties

/-- Two nodes say the same all the way down, wherever they stand. -/
inductive Alike (agree : OrderedMap String → OrderedMap String → Prop) : Node → Node → Prop
  | intro {node other : Node} (hown : node.Matches agree other)
      (hplaces : List.Forall₂ (List.Forall₂ (Alike agree)) node.places other.places) :
      Alike agree node other

variable {agree : OrderedMap String → OrderedMap String → Prop} {node other inner : Node}
  {P : Node → Prop}

mutual

/-- What holds of a node if it holds of the nodes in its places holds of all nodes. -/
theorem places_induction
    (step : ∀ node : Node, (∀ slot ∈ node.places, ∀ inner ∈ slot, P inner) → P node) :
    ∀ node : Node, P node
  | call _ args styling _ => step _ (by
      simpa [places] using ⟨placesAll_induction step args, placesHeld_induction step styling⟩)
  | .variable _ _ | package _ _ _ | styleTag _ _ => step _ (by simp [places])
  | assignment targets value _ => step _ (by
      simpa [places] using ⟨placesAll_induction step targets, placesHeld_induction step value⟩)
  | scope _ body _ args _ styling _ => step _ (by
      simpa [places] using ⟨placesAll_induction step body, placesAll_induction step args,
        placesHeld_induction step styling⟩)
  | namedStyle _ own _ => step _ (by simpa [places] using places_induction step own)
  | styleBinding _ tags _ | style _ tags _ => step _ (by
      simpa [places] using placesAll_induction step tags)
  | target _ styling _ => step _ (by simpa [places] using placesHeld_induction step styling)
  | valueList nodes _ | statementList nodes _ | recipe nodes _ => step _ (by
      simpa [places] using placesAll_induction step nodes)

theorem placesHeld_induction
    (step : ∀ node : Node, (∀ slot ∈ node.places, ∀ inner ∈ slot, P inner) → P node) :
    ∀ (node : Option Node), ∀ inner, node = some inner → P inner
  | none => by simp
  | some node => by simpa using places_induction step node

theorem placesAll_induction
    (step : ∀ node : Node, (∀ slot ∈ node.places, ∀ inner ∈ slot, P inner) → P node) :
    ∀ (nodes : List Node), ∀ inner ∈ nodes, P inner
  | [] => by simp
  | node :: rest => by
    simpa using ⟨places_induction step node, placesAll_induction step rest⟩

end

theorem matches_cleared (node : Node) : node.Matches Eq node.cleared := by
  cases node <;> exact ⟨rfl, rfl, rfl, rfl, rfl⟩

theorem unplaced_cleared (node : Node) : node.cleared.IsUnplaced := by
  cases node <;> exact ⟨rfl, rfl⟩

/-- A style or a right side is no empty list. -/
theorem nonempty_style (h : node.isStyle = true) : node.isEmptyList = false := by
  cases node <;> first | rfl | cases h

theorem nonempty_right (h : node.isRightSide = true) : node.isEmptyList = false := by
  cases node <;> first | rfl | cases h

theorem shown_eq {held : Option Node} (h : ∀ inner ∈ held, inner.isEmptyList = false) :
    shown held = held := by
  cases held with
  | none => rfl
  | some inner => simp [shown, Option.filter, h inner rfl]

theorem shownCleared_eq {held : Option Node} (h : ∀ inner ∈ held, inner.isEmptyList = false) :
    shownCleared held = held.map cleared := by
  cases held with
  | none => rfl
  | some inner => simp [shownCleared, h inner rfl]

theorem IsTyped.held (h : node.IsTyped) : ∀ inner ∈ node.held, inner.isEmptyList = false := by
  intro inner hinner
  cases node with
  | call => exact nonempty_style (h.2 inner hinner)
  | scope => exact nonempty_style (h.2.2 inner hinner)
  | target => exact nonempty_style (h inner hinner)
  | assignment => exact nonempty_right (h.2 inner hinner)
  | _ => cases hinner

/-- Where every place has what belongs there, all that is in them is cleared. -/
theorem places_cleared (h : node.IsTyped) :
    node.cleared.places = node.places.map (·.map cleared) := by
  have hheld : shownCleared node.held = node.held.map cleared := shownCleared_eq h.held
  cases node <;>
    simp_all [held, cleared, places, allCleared_eq_map, Option.toList_map]

theorem allSame_iff : ∀ (nodes others : List Node), allSame nodes others = true ↔
    List.Forall₂ (fun node other => same node other = true) nodes others
  | [], [] => by simp [allSame]
  | [], _ :: _ | _ :: _, [] => by simp [allSame]
  | node :: rest, other :: others => by simp [allSame, allSame_iff rest others]

theorem bothSame_iff (node other : Option Node) : bothSame node other = true ↔
    List.Forall₂ (fun node other => same node other = true) node.toList other.toList := by
  cases node <;> cases other <;> simp [bothSame]

theorem kind_of_same (h : same node other = true) : node.kind = other.kind := by
  cases node <;> cases other <;> first | rfl | simp [same] at h

/-- Nodes are the same if they say the same, stand at the same places, and have the same nodes in
their places. -/
theorem same_iff : same node other = true ↔
    node.Matches (fun m m' => m.agrees m' = true) other ∧
      (node.extent = other.extent ∧ node.listExtents = other.listExtents) ∧
      List.Forall₂ (List.Forall₂ fun node other => same node other = true) node.places
        other.places := by
  have hnone : (default : OrderedMap String).agrees {} = true := rfl
  by_cases hkind : node.kind = other.kind
  · cases node <;> cases other <;> first
      | (simp [kind] at hkind; done)
      | simp [same, matches_iff, kind, word, packageLabel, path, properties, extent, listExtents,
          places, allSame_iff, bothSame_iff]
        try tauto
  · exact iff_of_false (mt kind_of_same hkind) fun h => hkind h.1.kind

theorem alike_iff : node.Alike agree other ↔
    node.Matches agree other ∧
      List.Forall₂ (List.Forall₂ (Alike agree)) node.places other.places := by
  constructor
  · rintro ⟨hown, hplaces⟩
    exact ⟨hown, hplaces⟩
  · rintro ⟨hown, hplaces⟩
    exact .intro hown hplaces

theorem Typed.self (h : node.Typed) : node.IsTyped :=
  h node .refl

theorem Typed.inside {slot : List Node} (h : node.Typed) (hslot : slot ∈ node.places)
    (hin : inner ∈ slot) : inner.Typed :=
  fun further hfurther =>
    h further (hfurther.head (List.mem_flatten.mpr ⟨slot, hslot, hin⟩))

/-- What is cleared is otherwise what it was. -/
theorem alike_cleared : ∀ node : Node, node.Typed → node.Alike Eq node.cleared :=
  places_induction fun node ih htyped => by
    refine .intro (matches_cleared node) ?_
    rw [places_cleared htyped.self, List.forall₂_map_right_iff]
    refine List.forall₂_same.mpr fun slot hslot => ?_
    rw [List.forall₂_map_right_iff]
    exact List.forall₂_same.mpr fun inner hin => ih slot hslot inner hin (htyped.inside hslot hin)

/-- All that is in a node that was cleared was cleared. -/
theorem contains_cleared (h : node.Typed) (hinner : node.cleared.Contains inner) :
    ∃ origin, node.Contains origin ∧ inner = origin.cleared := by
  induction hinner with
  | refl => exact ⟨node, .refl, rfl⟩
  | tail _ hlast ih =>
    obtain ⟨origin, horigin, rfl⟩ := ih
    rw [places_cleared (h origin horigin)] at hlast
    obtain ⟨slot, hslot, hin⟩ := List.mem_flatten.mp hlast
    obtain ⟨before, hbefore, rfl⟩ := List.mem_map.mp hslot
    obtain ⟨further, hfurther, rfl⟩ := List.mem_map.mp hin
    exact ⟨further, horigin.tail (List.mem_flatten.mpr ⟨before, hbefore, hfurther⟩), rfl⟩

theorem isEmptyList_cleared (node : Node) : node.cleared.isEmptyList = node.isEmptyList := by
  cases node with
  | valueList nodes | statementList nodes => cases nodes <;> rfl
  | _ => rfl

theorem shown_cleared (node : Option Node) :
    shown (shownCleared node) = (shown node).map cleared := by
  cases node with
  | none => rfl
  | some node => cases hempty : node.isEmptyList <;>
      simp [shown, shownCleared, hempty, Option.filter, isEmptyList_cleared]

/-- A step of clearing: what stands nowhere afterwards is the node, and its children are cleared. -/
theorem children_cleared (node : Node) : node.cleared.children = node.children.map cleared := by
  cases node <;>
    simp [cleared, children, allCleared_eq_map, shown_cleared, Option.toList_map]

theorem shownCleared_again {node : Option Node}
    (h : ∀ inner, node = some inner → inner.cleared.cleared = inner.cleared) :
    shownCleared (shownCleared node) = shownCleared node := by
  cases node with
  | none => rfl
  | some inner => cases hempty : inner.isEmptyList <;>
      simp [shownCleared, hempty, isEmptyList_cleared, h inner rfl]

theorem cleared_again : ∀ node : Node, node.cleared.cleared = node.cleared :=
  places_induction fun node ih => by
    cases node <;> simp_all [cleared, places, allCleared_eq_map, shownCleared_again]

theorem forall₂_congr_mem {α β : Type} {R S : α → β → Prop} {as : List α} {bs : List β}
    (h : ∀ a ∈ as, ∀ b ∈ bs, (R a b ↔ S a b)) : List.Forall₂ R as bs ↔ List.Forall₂ S as bs := by
  induction as generalizing bs with
  | nil => cases bs <;> simp
  | cons a as ih =>
    cases bs with
    | nil => simp
    | cons b bs =>
      have hrest : List.Forall₂ R as bs ↔ List.Forall₂ S as bs :=
        ih fun a ha b hb => h a (List.mem_cons_of_mem _ ha) b (List.mem_cons_of_mem _ hb)
      rw [List.forall₂_cons, List.forall₂_cons, hrest,
        h a (List.mem_cons_self ..) b (List.mem_cons_self ..)]

theorem matches_of_cleared :
    node.cleared.Matches agree other.cleared ↔ node.Matches agree other := by
  obtain ⟨hkind, hword, hlabel, hpath, hproperties⟩ := matches_cleared node
  obtain ⟨hkind', hword', hlabel', hpath', hproperties'⟩ := matches_cleared other
  rw [matches_iff, matches_iff, hkind, hword, hlabel, hpath, hproperties, hkind', hword', hlabel',
    hpath', hproperties']

/-- Nodes that are compared after they were cleared are compared up to where they stood. -/
theorem same_cleared : ∀ node : Node, node.Typed → ∀ other : Node, other.Typed →
    (same node.cleared other.cleared = true ↔ node.Alike (fun m m' => m.agrees m' = true) other) :=
  places_induction fun node ih htyped other hother => by
    have hstand : node.cleared.extent = other.cleared.extent ∧
        node.cleared.listExtents = other.cleared.listExtents := by
      obtain ⟨hnode, hlists⟩ := unplaced_cleared node
      obtain ⟨hother, hlists'⟩ := unplaced_cleared other
      exact ⟨hnode.trans hother.symm, hlists.trans hlists'.symm⟩
    rw [same_iff, alike_iff, matches_of_cleared, and_iff_right hstand,
      places_cleared htyped.self, places_cleared hother.self, List.forall₂_map_left_iff,
      List.forall₂_map_right_iff]
    refine and_congr_right fun _ => forall₂_congr_mem fun slot hslot slot' hslot' => ?_
    rw [List.forall₂_map_left_iff, List.forall₂_map_right_iff]
    exact forall₂_congr_mem fun inner hin inner' hin' =>
      ih slot hslot inner hin (htyped.inside hslot hin) inner' (hother.inside hslot' hin')

/-- What is in the places of a node is below it, if it belongs there. -/
theorem reaches_place (h : node.IsTyped) (hinner : inner ∈ node.places.flatten) :
    node.Reaches inner := by
  obtain ⟨slot, hslot, hin⟩ := List.mem_flatten.mp hinner
  have hshown : shown node.held = node.held := shown_eq h.held
  cases node with
  | scope name body bodyExtent args argsExtent styling extent =>
    have hbody : (scope name body bodyExtent args argsExtent styling extent).Reaches
        (statementList body bodyExtent) := reaches_child (by simp [children]) .refl
    have hargs : (scope name body bodyExtent args argsExtent styling extent).Reaches
        (valueList args argsExtent) := reaches_child (by simp [children]) .refl
    simp only [places, List.mem_cons, List.not_mem_nil, or_false] at hslot
    rcases hslot with rfl | rfl | rfl
    · exact hbody.trans (reaches_child hin .refl)
    · exact hargs.trans (reaches_child hin .refl)
    · have hstyling : shown styling = styling := hshown
      refine reaches_child (List.mem_append_right _ ?_) .refl
      rwa [hstyling]
  | call _ nodes last _ | assignment nodes last _ =>
    have hlast : shown last = last := hshown
    refine reaches_child ?_ .refl
    simp only [places, List.mem_cons, List.not_mem_nil, or_false] at hslot
    rcases hslot with rfl | rfl
    · exact List.mem_append_left _ hin
    · refine List.mem_append_right _ ?_
      rwa [hlast]
  | target name styling extent =>
    have hstyling : shown styling = styling := hshown
    refine reaches_child ?_ .refl
    show inner ∈ (shown styling).toList
    rwa [hstyling, ← List.mem_singleton.mp hslot]
  | «variable» | package | styleTag => cases hslot
  | _ =>
    refine reaches_child ?_ .refl
    rw [List.mem_singleton.mp hslot] at hin
    exact hin

/-- What is in a node is below it, if what is both in it and below it is as it belongs. -/
theorem Contains.reaches (hinner : node.Contains inner)
    (h : ∀ m, node.Contains m → node.Reaches m → m.IsTyped) : node.Reaches inner := by
  induction hinner with
  | refl => exact .refl
  | tail hthere hlast ih => exact ih.trans (reaches_place (h _ hthere ih) hlast)

theorem Typed.reaches (h : node.Typed) (hinner : node.Contains inner) : node.Reaches inner :=
  Contains.reaches hinner fun m hm _ => h m hm

theorem typed_of_throughout (h : node.Throughout IsTyped) : node.Typed :=
  fun inner hinner => h inner (Contains.reaches hinner fun m _ hm => h m hm)

end Node

section Read

theorem styleTags_typed (parts : List Part) :
    ∀ tag ∈ parts.filterMap Part.styleTag?, tag.isStyleTag = true := by
  intro tag hin
  obtain ⟨part, -, htag⟩ := List.mem_filterMap.mp hin
  obtain ⟨path, extent, rfl⟩ := Part.styleTag?_eq htag
  rfl

/-- Nothing but references to styles is handed on as tags. -/
theorem tags_of_parts {pattern : Pattern} (reading : Reading pattern) {tags : List Node}
    (h : .tags tags ∈ reading.parts) : ∀ tag ∈ tags, tag.isStyleTag = true := by
  induction reading with
  | word token hkind | mark token hkind =>
    unfold Reading.parts at h
    split at h <;> simp at h
  | @name head inner ih =>
    cases head with
    | rule rule =>
      rw [Reading.parts_rule, List.mem_singleton] at h
      cases rule with
      | tagBlock =>
        rw [Part.tags.inj h]
        exact styleTags_typed inner.parts
      | _ => cases h
    | _ => exact ih h
  | both left right ih ih' | further left right ih ih' =>
    rcases List.mem_append.mp h with hleft | hright
    · exact ih hleft
    · exact ih' hright
  | first _ ih | second _ ih | present _ ih | filled _ ih | once _ ih => exact ih h
  | absent | empty => cases h

/-- What a rule makes of parts with what belongs there has it too. -/
theorem Part.Makes.typed {extent : Option Span} {parts : List Part} {part : Part} {made : Node}
    (h : Part.Makes extent parts part) (hmade : part = .node made)
    (hparts : ∀ node ∈ parts.flatMap Part.nodes, node.IsTyped)
    (htags : ∀ tags, .tags tags ∈ parts → ∀ tag ∈ tags, tag.isStyleTag = true) :
    made.IsTyped := by
  cases h with
  | recipe statements h | body statements h | argList values h | target leaf styling h =>
    cases hmade
    exact h
  | call leaf args styling h =>
    cases hmade
    refine ⟨?_, h⟩
    cases args with
    | none => simp
    | some list => exact hparts (.valueList list.1 list.2) (by simp [Node.ofValues, nodes])
  | assignment first targets value h hvalue =>
    cases hmade
    refine ⟨h, ?_⟩
    rintro _ ⟨⟩
    exact hvalue
  | scope leaf body place args styling h =>
    cases hmade
    refine ⟨hparts (.statementList body place) (by simp [nodes]), ?_, h⟩
    cases args with
    | none => simp
    | some list => exact hparts (.valueList list.1 list.2) (by simp [Node.ofValues, nodes])
  | namedStyle leaf styling h =>
    cases hmade
    cases styling with
    | none => rfl
    | some worn => exact h worn rfl
  | styleBinding leaf referred =>
    cases hmade
    cases referred with
    | none => simp [Node.IsTyped]
    | some made => exact htags made (by simp)
  | styleBlock =>
    cases hmade
    exact styleTags_typed _
  | reference | package | styleTag =>
    cases hmade
    trivial
  | _ => cases hmade

/-- Whatever text it is, everything in its recipe has what belongs there. -/
theorem typed_read (text filename : String) : (ofText text filename).recipe.toNode.Typed := by
  by_cases hparsed : ∃ tree, parse text filename = .ok tree
  · obtain ⟨derivation, h⟩ := parse_ok_iff.mp hparsed
    obtain ⟨reading, -, hparts, hkind⟩ := statements_read h
    have hblank : ∀ node, Node.IsBlank node → node.IsTyped := by
      intro node hblank
      cases hblank <;> simp [Node.IsTyped]
    have htyped : ∀ node ∈ reading.parts.flatMap Part.nodes, node.Throughout Node.IsTyped :=
      throughout_parts hblank
        (fun rule reading _ hmade hall => (Part.makes rule reading).typed hmade hall
          fun _ htags => tags_of_parts reading htags) reading
    rw [hparts, Part.flatMap_nodes] at htyped
    rw [ofText_read h filename]
    exact Node.typed_of_throughout (Node.throughout_iff.mpr ⟨hkind, htyped⟩)
  · unfold ofText
    cases hparse : parse text filename with
    | ok tree => exact absurd ⟨tree, hparse⟩ hparsed
    | error fault =>
      have hempty : (Node.recipe [] (some ⟨0, text.length⟩)).Throughout Node.IsTyped :=
        Node.throughout_iff.mpr ⟨by simp [Node.IsTyped], by simp [Node.children]⟩
      exact Node.typed_of_throughout hempty

end Read

namespace Node

/-- What becomes of a node that is cleared. -/
structure IsCleared (node : Node) : Prop where
  /-- Nothing is in a node that clearing does not come to, from child to child. -/
  reached : ∀ inner, node.Contains inner → node.Reaches inner
  passed_on : node.cleared.children = node.children.map cleared
  nowhere : ∀ inner, node.cleared.Contains inner → inner.IsUnplaced
  unchanged : node.Alike Eq node.cleared
  again : node.cleared.cleared = node.cleared
  compared : ∀ other : Node, other.Typed → (same node.cleared other.cleared = true ↔
    node.Alike (fun m m' => m.agrees m' = true) other)

/-- Whether a node was read or put together otherwise, if every place in it has what belongs there,
clearing comes to all that is in it and changes nothing but where it stands. -/
theorem positions_cleared :
    (∀ text filename : String, (ofText text filename).recipe.toNode.Typed) ∧
      ∀ node : Node, node.Typed → node.IsCleared := by
  refine ⟨typed_read, fun node h => ?_⟩
  exact {
    reached := fun _ hinner => h.reaches hinner
    passed_on := children_cleared node
    nowhere := fun inner hinner => by
      obtain ⟨origin, -, rfl⟩ := contains_cleared h hinner
      exact unplaced_cleared origin
    unchanged := alike_cleared node h
    again := cleared_again node
    compared := same_cleared node h }

/-- Apart from blanks and from the order of two properties. -/
theorem positions_cleared_reordered :
    let node := (ofText "x\x7ba: 1; b: 2\x7d = n[f(y)](z)\x7b#s\x7d" "").recipe.toNode
    let other := (ofText "x \x7bb: 2; a: 1\x7d = n[ f(y) ](z) \x7b#s\x7d" "").recipe.toNode
    node.IsCleared ∧ same node other = false ∧
      node.Alike (fun m m' => m.agrees m' = true) other := by
  intro node other
  have hnode : node.Typed := positions_cleared.1 _ _
  have hother : other.Typed := positions_cleared.1 _ _
  have hcleared : node.IsCleared := positions_cleared.2 node hnode
  refine ⟨hcleared, by decide +kernel, (hcleared.compared other hother).mp ?_⟩
  decide +kernel

end Node

end RecipeGraph.Recipe
