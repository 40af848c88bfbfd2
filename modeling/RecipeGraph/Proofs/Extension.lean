import RecipeGraph.Proofs.Ancestry
import Mathlib.Data.List.Infix

/-!
Scopes that were only added to. What was in a map stays where it is, and further entries come
behind it. A merge keeps to this as long as what it writes over an entry is what the entry holds
already; of the maps that names lead through only the names stay, since names may be bound anew.
-/
namespace RecipeGraph

namespace OrderedMap

variable {α : Type} {key : String} {value : α} {added entries : List (String × α)}

/-- To write a value where it is already changes nothing. -/
theorem prefix_write (h : ∀ old, (key, old) ∈ entries → old = value) :
    entries <+: write key value entries := by
  induction entries with
  | nil => exact List.nil_prefix
  | cons first rest ih =>
    obtain ⟨k, old⟩ := first
    by_cases hk : k = key
    · subst hk
      obtain rfl := h old (List.mem_cons_self ..)
      rw [write, if_pos rfl]
    · rw [write, if_neg hk]
      exact (List.prefix_cons_inj _).mpr
        (ih fun other hother => h other (List.mem_cons_of_mem _ hother))

theorem prefix_writeAll (h : ∀ k v w, (k, v) ∈ added ++ entries → (k, w) ∈ added ++ entries →
    v = w) : entries <+: writeAll added entries := by
  induction added generalizing entries with
  | nil => exact List.prefix_refl _
  | cons first rest ih =>
    obtain ⟨key, value⟩ := first
    have hfirst : ∀ old, (key, old) ∈ entries → old = value := fun old hold =>
      h key old value (List.mem_append_right _ hold) (List.mem_cons_self ..)
    have hkept : ∀ k v, (k, v) ∈ rest ++ write key value entries →
        (k, v) ∈ (key, value) :: rest ++ entries := by
      intro k v hmem
      rcases List.mem_append.mp hmem with hrest | hwritten
      · exact List.mem_cons_of_mem _ (List.mem_append_left _ hrest)
      · rcases mem_write hwritten with ⟨rfl, rfl⟩ | hold
        · exact List.mem_cons_self ..
        · exact List.mem_append_right _ hold
    exact (prefix_write hfirst).trans
      (ih fun k v w hv hw => h k v w (hkept k v hv) (hkept k w hw))

theorem keys_prefix_insert (m : OrderedMap α) (key : String) (value : α) :
    m.keys <+: (m.insert key value).keys := by
  rw [keys_insert]
  split
  · exact List.prefix_refl _
  · exact List.prefix_append _ _

theorem keys_prefix_merge (m other : OrderedMap α) : m.keys <+: (m.merge other).keys := by
  unfold merge
  generalize other.entries = added
  induction added generalizing m with
  | nil => exact List.prefix_refl _
  | cons first rest ih => exact (keys_prefix_insert m first.1 first.2).trans (ih _)

end OrderedMap

namespace Graph

namespace Contents

/-- All is where it was, with more behind it. -/
structure Extends (before after : Contents) : Prop where
  id : after.id = before.id
  name : after.name = before.name
  look : after.look = before.look
  vertices : before.vertices.entries <+: after.vertices.entries
  edges : before.edges.entries <+: after.edges.entries
  variableIds : before.variableIds.keys <+: after.variableIds.keys
  variableLooks : before.variableLooks.keys <+: after.variableLooks.keys
  styles : before.styles.keys <+: after.styles.keys
  bindings : before.bindings.keys <+: after.bindings.keys
  packages : before.packages <+: after.packages

variable {before middle after contents other : Contents}

theorem Extends.refl (contents : Contents) : contents.Extends contents := by
  constructor <;> rfl

theorem Extends.trans (first : before.Extends middle) (second : middle.Extends after) :
    before.Extends after where
  id := second.id.trans first.id
  name := second.name.trans first.name
  look := second.look.trans first.look
  vertices := first.vertices.trans second.vertices
  edges := first.edges.trans second.edges
  variableIds := first.variableIds.trans second.variableIds
  variableLooks := first.variableLooks.trans second.variableLooks
  styles := first.styles.trans second.styles
  bindings := first.bindings.trans second.bindings
  packages := first.packages.trans second.packages

theorem extends_addVertex {vertex : Vertex} (hnew : vertex.id ∉ contents.vertices.keys) :
    contents.Extends (contents.addVertex vertex) :=
  { Extends.refl contents with
    vertices := by
      unfold addVertex
      rw [OrderedMap.entries_insert_of_not_mem vertex hnew]
      exact List.prefix_append _ _ }

theorem extends_addEdge {edge : Edge} (hnew : edge.id ∉ contents.edges.keys) :
    contents.Extends (contents.addEdge edge) :=
  { Extends.refl contents with
    edges := by
      unfold addEdge
      rw [OrderedMap.entries_insert_of_not_mem edge hnew]
      exact List.prefix_append _ _ }

theorem extends_bind (contents : Contents) (name id : String) (look : Option Look) :
    contents.Extends ((contents.bindVariable name id).setVariableLook name look) :=
  { Extends.refl contents with
    variableIds := OrderedMap.keys_prefix_insert _ _ _
    variableLooks := OrderedMap.keys_prefix_insert _ _ _ }

theorem extends_addPackage (contents : Contents) (location : String) :
    contents.Extends (contents.addPackage location) := by
  unfold addPackage
  split
  · exact .refl contents
  · exact { Extends.refl contents with packages := List.prefix_append _ _ }

theorem prefix_foldl_addPackage (locations : List String) (contents : Contents) :
    contents.packages <+: (locations.foldl addPackage contents).packages := by
  induction locations generalizing contents with
  | nil => exact List.prefix_refl _
  | cons first rest ih => exact (extends_addPackage contents first).packages.trans (ih _)

theorem packages_prefix_merge (contents other : Contents) :
    contents.packages <+: (contents.merge other).packages := by
  have hsame : (other.edges.values.foldl addEdge
      (other.vertices.values.foldl addVertex contents)).packages = contents.packages := by
    rw [foldl_addEdge, foldl_addVertex]
  have hadded : (contents.merge other).packages =
      (other.packages.foldl addPackage contents).packages :=
    packages_foldl_addPackage other.packages hsame
  rw [hadded]
  exact prefix_foldl_addPackage other.packages contents

/-- A merge extends what it finds if no id stands for two vertices or for two edges. -/
theorem extends_merge
    (hvertices : ∀ k v w, (k, v) ∈ keyed Vertex.id other.vertices.values ++
      contents.vertices.entries → (k, w) ∈ keyed Vertex.id other.vertices.values ++
      contents.vertices.entries → v = w)
    (hedges : ∀ k v w, (k, v) ∈ keyed Edge.id other.edges.values ++ contents.edges.entries →
      (k, w) ∈ keyed Edge.id other.edges.values ++ contents.edges.entries → v = w) :
    contents.Extends (contents.merge other) where
  id := id_merge contents other
  name := name_merge contents other
  look := look_merge contents other
  vertices := by
    rw [vertices_merge]
    exact OrderedMap.prefix_writeAll hvertices
  edges := by
    rw [edges_merge]
    exact OrderedMap.prefix_writeAll hedges
  variableIds := by
    rw [variableIds_merge]
    exact OrderedMap.keys_prefix_merge _ _
  variableLooks := by
    rw [variableLooks_merge]
    exact OrderedMap.keys_prefix_merge _ _
  styles := by
    rw [styles_merge]
    exact OrderedMap.keys_prefix_merge _ _
  bindings := by
    rw [bindings_merge]
    exact OrderedMap.keys_prefix_merge _ _
  packages := packages_prefix_merge contents other

end Contents

theorem Contents.extends_adorn (adornment : Compile.Adornment) (contents : Contents) :
    contents.Extends (adornment.apply contents) := by
  cases adornment with
  | style name properties =>
    exact { Contents.Extends.refl contents with styles := OrderedMap.keys_prefix_insert _ _ _ }
  | binding keyword tags =>
    exact { Contents.Extends.refl contents with bindings := OrderedMap.keys_prefix_insert _ _ _ }
  | package location => exact Contents.extends_addPackage contents location

namespace Scope

/-- The contents were added to, and all children are where they were, with more behind them.
A child may have given way to a copy of it. -/
structure Extends (before after : Scope) : Prop where
  contents : before.contents.Extends after.contents
  children : before.children.map copy <+: after.children.map copy

variable {before middle after scope other child : Scope} {children : List Scope}

theorem Extends.refl (scope : Scope) : scope.Extends scope :=
  ⟨.refl _, List.prefix_refl _⟩

theorem Extends.trans (first : before.Extends middle) (second : middle.Extends after) :
    before.Extends after :=
  ⟨first.contents.trans second.contents, first.children.trans second.children⟩

theorem extends_mapContents {f : Contents → Contents}
    (h : scope.contents.Extends (f scope.contents)) : scope.Extends (scope.mapContents f) := by
  constructor
  · rwa [contents_mapContents]
  · rw [children_mapContents]

theorem prefix_placeChild (h : ∀ old ∈ children, old.id = child.id → old.copy = child.copy) :
    children.map copy <+: (placeChild child children).map copy := by
  induction children with
  | nil => exact List.nil_prefix
  | cons first rest ih =>
    by_cases hid : first.id = child.id
    · rw [placeChild, if_pos hid, List.map_cons, List.map_cons,
        h first (List.mem_cons_self ..) hid]
    · rw [placeChild, if_neg hid, List.map_cons, List.map_cons]
      exact (List.prefix_cons_inj _).mpr
        (ih fun old hold => h old (List.mem_cons_of_mem _ hold))

theorem extends_attach (h : ∀ old ∈ scope.children, old.id = child.id → old.copy = child.copy) :
    scope.Extends (scope.attach child) :=
  ⟨.refl _, prefix_placeChild h⟩

theorem extends_attachAll
    (h : ∀ first ∈ scope.children ++ children, ∀ second ∈ scope.children ++ children,
      first.id = second.id → first.copy = second.copy) :
    scope.Extends (children.foldl attach scope) := by
  induction children generalizing scope with
  | nil => exact .refl scope
  | cons first rest ih =>
    have hfirst : first ∈ scope.children ++ first :: rest :=
      List.mem_append_right _ (List.mem_cons_self ..)
    have hkept : ∀ one ∈ (scope.attach first).children ++ rest,
        one ∈ scope.children ++ first :: rest := by
      intro one hone
      rcases List.mem_append.mp hone with hplaced | hrest
      · rcases mem_placeChild hplaced with rfl | hold
        · exact hfirst
        · exact List.mem_append_left _ hold
      · exact List.mem_append_right _ (List.mem_cons_of_mem _ hrest)
    refine (extends_attach fun old hold => ?_).trans (ih fun one hone another hanother => ?_)
    · exact h old (List.mem_append_left _ hold) first hfirst
    · exact h one (hkept one hone) another (hkept another hanother)

theorem extends_merge (hcontents : scope.contents.Extends (scope.contents.merge other.contents))
    (h : ∀ first ∈ scope.children ++ other.children, ∀ second ∈ scope.children ++ other.children,
      first.id = second.id → first.copy = second.copy) : scope.Extends (scope.merge other) := by
  refine (extends_mapContents hcontents).trans (extends_attachAll ?_)
  rwa [children_mapContents]

section Documents

theorem jsonsAt_eq_map (lineage : List String) (scopes : List Scope) :
    jsonsAt lineage scopes = scopes.map fun scope => scope.jsonAt (lineage ++ [scope.id]) := by
  induction scopes with
  | nil => rfl
  | cons first rest ih => rw [jsonsAt, ih, List.map_cons]

/-- The document of a copy is that of the original. -/
theorem jsonAt_copy (h : scope.DistinctIds) (lineage : List String) :
    scope.copy.jsonAt lineage = scope.jsonAt lineage := by
  induction scope using Scope.induction generalizing lineage with
  | step contents names children ih =>
    have hchildren : jsonsAt lineage (children.map copy) = jsonsAt lineage children := by
      rw [jsonsAt_eq_map, jsonsAt_eq_map, List.map_map]
      refine List.map_congr_left fun child hchild => ?_
      rw [Function.comp_apply, id_copy, ih child hchild (h.of_child hchild)]
    rw [← mk_eta (copy _), jsonAt, jsonAt, contents_copy, children_copy h, children_mk,
      contents_mk, hchildren]

theorem Extends.documents (h : before.Extends after) (hbefore : before.DistinctIds)
    (hafter : after.DistinctIds) (lineage : List String) :
    jsonsAt lineage before.children <+: jsonsAt lineage after.children := by
  have hcopies : ∀ scope : Scope, scope.DistinctIds →
      jsonsAt lineage (scope.children.map copy) = jsonsAt lineage scope.children := by
    intro scope hscope
    rw [jsonsAt_eq_map, jsonsAt_eq_map, List.map_map]
    refine List.map_congr_left fun child hchild => ?_
    rw [Function.comp_apply, id_copy, jsonAt_copy (hscope.of_child hchild)]
  rw [← hcopies before hbefore, ← hcopies after hafter, jsonsAt_eq_map, jsonsAt_eq_map]
  exact h.children.map _

end Documents

end Scope

end Graph

end RecipeGraph
