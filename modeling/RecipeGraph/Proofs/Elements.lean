import RecipeGraph.Proofs.Trees

/-!
What a scope consists of and what it refers to. A merge, a copy or one more child keeps the
elements of a scope as long as a child only gives way to one that has the same elements.
-/
namespace RecipeGraph.Graph

/-- What edges lead out of, and what variables stand for. -/
def Contents.references (contents : Contents) : List String :=
  contents.edges.values.map Edge.source ++ contents.variableIds.values

namespace Contents

variable {contents other : Contents} {x : String}

theorem references_addEdge {edge : Edge} (h : x ∈ (contents.addEdge edge).references) :
    x = edge.source ∨ x ∈ contents.references := by
  rcases List.mem_append.mp h with hedge | hvalue
  · obtain ⟨leaving, hin, rfl⟩ := List.mem_map.mp hedge
    rcases OrderedMap.mem_values_insert hin with rfl | hold
    · exact Or.inl rfl
    · exact Or.inr (List.mem_append_left _ (List.mem_map_of_mem hold))
  · exact Or.inr (List.mem_append_right _ hvalue)

theorem references_bindVariable {name id : String}
    (h : x ∈ (contents.bindVariable name id).references) : x = id ∨ x ∈ contents.references := by
  rcases List.mem_append.mp h with hedge | hvalue
  · exact Or.inr (List.mem_append_left _ hedge)
  · exact (OrderedMap.mem_values_insert hvalue).imp (fun hx => hx) (List.mem_append_right _)

theorem references_merge (h : x ∈ (contents.merge other).references) :
    x ∈ other.references ∨ x ∈ contents.references := by
  rcases List.mem_append.mp h with hedge | hvalue
  · obtain ⟨edge, hin, rfl⟩ := List.mem_map.mp hedge
    exact (mem_edges_merge hin).imp
      (fun hnew => List.mem_append_left _ (List.mem_map_of_mem hnew))
      (fun hold => List.mem_append_left _ (List.mem_map_of_mem hold))
  · rw [variableIds_merge] at hvalue
    exact (OrderedMap.mem_values_merge hvalue).imp (List.mem_append_right _)
      (List.mem_append_right _)

end Contents

namespace Scope

/-- A vertex of the scope or a child of it has that id. -/
def Has (scope : Scope) (x : String) : Prop :=
  x ∈ scope.contents.vertices.keys ∨ x ∈ scope.children.map id

/-- Every vertex stands under its own id, no two children have the same one, and every edge
leads to a vertex or a child of the scope. -/
structure Tidy (scope : Scope) : Prop where
  keyed : ∀ entry ∈ scope.contents.vertices.entries, entry.2.id = entry.1
  distinct : (scope.children.map id).Nodup
  targets : ∀ edge ∈ scope.contents.edges.values, scope.Has edge.target

/-- All parts of the scope are tidy. -/
def Sound (scope : Scope) : Prop :=
  ∀ part ∈ scope.all, part.Tidy

theorem Has.mem_elements {scope : Scope} {x : String} (h : scope.Has x) : x ∈ scope.elements := by
  rcases h with hkey | hchild
  · exact mem_elements_iff.mpr (Or.inr (Or.inl hkey))
  · obtain ⟨child, hmem, rfl⟩ := List.mem_map.mp hchild
    exact mem_elements_iff.mpr (Or.inr (Or.inr ⟨child, hmem, id_mem_elements child⟩))

section Has

variable {scope other child : Scope} {x : String}

theorem Has.mapContents (h : scope.Has x) {f : Contents → Contents}
    (hkeys : scope.contents.vertices.keys ⊆ (f scope.contents).vertices.keys) :
    (scope.mapContents f).Has x := by
  unfold Has
  rw [contents_mapContents, children_mapContents]
  exact h.imp (fun hkey => hkeys hkey) fun hold => hold

theorem Has.attach (h : scope.Has x) : (scope.attach child).Has x :=
  h.imp (fun hkey => hkey) fun hold => mem_ids_placeChild.mpr (Or.inr hold)

theorem has_attach (scope child : Scope) : (scope.attach child).Has child.id :=
  Or.inr (mem_ids_placeChild.mpr (Or.inl rfl))

theorem Has.merge (h : scope.Has x) : (scope.merge other).Has x := by
  unfold Has
  rw [contents_merge]
  refine h.imp (fun hkey => Contents.mem_vertices_merge.mpr (Or.inr hkey)) fun hold => ?_
  unfold Scope.merge
  rw [mem_ids_foldl_attach, children_mapContents]
  exact Or.inr hold

end Has

theorem Tidy.key_mem {scope : Scope} (h : scope.Tidy) {x : String}
    (hx : x ∈ scope.contents.vertices.keys) :
    x ∈ scope.contents.vertices.values.map Vertex.id := by
  obtain ⟨vertex, hentry⟩ := OrderedMap.mem_keys.mp hx
  have hid : vertex.id = x := h.keyed _ hentry
  exact List.mem_map.mpr ⟨vertex, OrderedMap.mem_values.mpr ⟨x, hentry⟩, hid⟩

section Sound

variable {scope other child : Scope}

theorem Sound.tidy (h : scope.Sound) : scope.Tidy :=
  h scope (self_mem_all scope)

theorem Sound.of_mem (h : scope.Sound) {part : Scope} (hpart : part ∈ scope.all) : part.Sound :=
  fun low hlow => h low (mem_all_trans hlow hpart)

theorem Sound.of_child (h : scope.Sound) (hchild : child ∈ scope.children) : child.Sound :=
  h.of_mem (mem_all_of_child hchild (self_mem_all child))

theorem Sound.of_children (hself : scope.Tidy) (h : ∀ child ∈ scope.children, child.Sound) :
    scope.Sound := by
  intro part hpart
  rcases mem_all.mp hpart with rfl | ⟨child, hchild, hin⟩
  · exact hself
  · exact h child hchild part hin

theorem Sound.distinctIds (h : scope.Sound) : scope.DistinctIds :=
  fun part hpart => (h part hpart).distinct

theorem Sound.mapContents (h : scope.Sound) {f : Contents → Contents}
    (hself : (scope.mapContents f).Tidy) : (scope.mapContents f).Sound := by
  refine Sound.of_children hself ?_
  intro child hchild
  rw [children_mapContents] at hchild
  exact h.of_child hchild

theorem sound_ofContents {contents : Contents} (hvertices : contents.vertices = {})
    (hedges : contents.edges = {}) : (ofContents contents).Sound := by
  refine Sound.of_children ⟨?_, List.nodup_nil, ?_⟩ ?_
  · intro entry hentry
    change entry ∈ contents.vertices.entries at hentry
    rw [hvertices] at hentry
    cases hentry
  · intro edge hedge
    change edge ∈ contents.edges.values at hedge
    rw [hedges] at hedge
    cases hedge
  · intro child hchild
    cases hchild

theorem Sound.attach (h : scope.Sound) (hchild : child.Sound) : (scope.attach child).Sound := by
  refine Sound.of_children ⟨h.tidy.keyed, nodup_placeChild child h.tidy.distinct, ?_⟩ ?_
  · intro edge hedge
    rcases h.tidy.targets edge hedge with hkey | hold
    · exact Or.inl hkey
    · exact Or.inr (mem_ids_placeChild.mpr (Or.inr hold))
  · intro top htop
    rcases mem_placeChild htop with rfl | hold
    · exact hchild
    · exact h.of_child hold

theorem Sound.copy (h : scope.Sound) : scope.copy.Sound := by
  intro part hpart
  obtain ⟨original, horiginal, rfl⟩ := mem_all_copy h.distinctIds hpart
  have htidy := h original horiginal
  have hids : original.copy.children.map id = original.children.map id := by
    rw [children_copy (h.distinctIds.of_mem horiginal), ids_copies]
  constructor
  case keyed =>
    rw [contents_copy]
    exact htidy.keyed
  case distinct =>
    rw [hids]
    exact htidy.distinct
  case targets =>
    unfold Has
    rw [contents_copy, hids]
    exact htidy.targets

theorem Sound.merge (h : scope.Sound) (hother : other.Sound) : (scope.merge other).Sound := by
  refine Sound.of_children ⟨?_, ?_, ?_⟩ ?_
  · rintro ⟨key, vertex⟩ hentry
    rw [contents_merge, Contents.vertices_merge] at hentry
    rcases OrderedMap.mem_writeAll hentry with hadded | hold
    · obtain ⟨origin, -, heq⟩ := List.mem_map.mp hadded
      obtain ⟨rfl, rfl⟩ := Prod.mk.inj heq
      rfl
    · exact h.tidy.keyed _ hold
  · refine nodup_foldl_attach other.children ?_
    rw [children_mapContents]
    exact h.tidy.distinct
  · intro edge hedge
    rw [contents_merge] at hedge
    unfold Has
    rw [contents_merge, Contents.mem_vertices_merge]
    unfold Scope.merge
    rw [mem_ids_foldl_attach, children_mapContents]
    rcases Contents.mem_edges_merge hedge with hin | hown
    · rcases hother.tidy.targets edge hin with hkey | hchild
      · exact Or.inl (Or.inl (hother.tidy.key_mem hkey))
      · exact Or.inr (Or.inl hchild)
    · rcases h.tidy.targets edge hown with hkey | hchild
      · exact Or.inl (Or.inr hkey)
      · exact Or.inr (Or.inr hchild)
  · intro child hchild
    rcases mem_children_foldl_attach hchild with hin | hown
    · exact hother.of_child hin
    · rw [children_mapContents] at hown
      exact h.of_child hown

end Sound

section Elements

variable {scope other child : Scope} {x : String}

theorem elements_mapContents {f : Contents → Contents} (hid : (f scope.contents).id = scope.id)
    (hkeys : scope.contents.vertices.keys ⊆ (f scope.contents).vertices.keys)
    (hx : x ∈ scope.elements) : x ∈ (scope.mapContents f).elements := by
  refine mem_elements_iff.mpr ?_
  rw [contents_mapContents, children_mapContents]
  rcases mem_elements_iff.mp hx with rfl | hkey | hchild
  · left
    unfold id at hid ⊢
    rw [contents_mapContents, hid]
  · exact Or.inr (Or.inl (hkeys hkey))
  · exact Or.inr (Or.inr hchild)

/-- A child may take the place of one that has no elements but those of the new one. -/
theorem elements_attach
    (halike : ∀ old ∈ scope.children, old.id = child.id → old.elements ⊆ child.elements)
    (hx : x ∈ scope.elements ∨ x ∈ child.elements) : x ∈ (scope.attach child).elements := by
  refine mem_elements_iff.mpr ?_
  rcases hx with hown | hnew
  · rcases mem_elements_iff.mp hown with hself | hkey | ⟨old, hold, hin⟩
    · exact Or.inl hself
    · exact Or.inr (Or.inl hkey)
    · by_cases hid : old.id = child.id
      · exact Or.inr (Or.inr ⟨child, self_mem_placeChild child _, halike old hold hid hin⟩)
      · exact Or.inr (Or.inr ⟨old, mem_placeChild_of_ne hold hid, hin⟩)
  · exact Or.inr (Or.inr ⟨child, self_mem_placeChild child _, hnew⟩)

theorem elements_foldl_attach {children : List Scope}
    (halike : ∀ first ∈ scope.children ++ children, ∀ second ∈ scope.children ++ children,
      first.id = second.id → first.elements ⊆ second.elements)
    (hx : x ∈ scope.elements ∨ ∃ child ∈ children, x ∈ child.elements) :
    x ∈ (children.foldl attach scope).elements := by
  induction children generalizing scope with
  | nil =>
    rcases hx with hown | ⟨child, hchild, -⟩
    · exact hown
    · cases hchild
  | cons first rest ih =>
    have hmem : ∀ top ∈ (scope.attach first).children ++ rest,
        top ∈ scope.children ++ first :: rest := by
      intro top htop
      rcases List.mem_append.mp htop with hplaced | hrest
      · rcases mem_placeChild hplaced with rfl | hold
        · exact List.mem_append_right _ (List.mem_cons_self ..)
        · exact List.mem_append_left _ hold
      · exact List.mem_append_right _ (List.mem_cons_of_mem _ hrest)
    have hfirst : ∀ y, y ∈ scope.elements ∨ y ∈ first.elements →
        y ∈ (scope.attach first).elements := by
      intro y hy
      refine elements_attach ?_ hy
      intro old hold hid
      exact halike old (List.mem_append_left _ hold) first
        (List.mem_append_right _ (List.mem_cons_self ..)) hid
    refine ih (fun a ha b hb => halike a (hmem a ha) b (hmem b hb)) ?_
    rcases hx with hown | ⟨child, hchild, hin⟩
    · exact Or.inl (hfirst x (Or.inl hown))
    · rcases List.mem_cons.mp hchild with rfl | hrest
      · exact Or.inl (hfirst x (Or.inr hin))
      · exact Or.inr ⟨child, hrest, hin⟩

/-- A merge gives a scope the elements of another one but for that one itself. -/
theorem elements_merge (hother : other.Tidy)
    (halike : ∀ first ∈ scope.children ++ other.children,
      ∀ second ∈ scope.children ++ other.children,
        first.id = second.id → first.elements ⊆ second.elements)
    (hx : x ∈ scope.elements ∨ x ∈ other.elements ∧ x ≠ other.id) :
    x ∈ (scope.merge other).elements := by
  refine elements_foldl_attach (by rwa [children_mapContents]) ?_
  rcases hx with hown | ⟨hin, hne⟩
  · left
    refine elements_mapContents (Contents.id_merge _ _) ?_ hown
    intro key hkey
    exact Contents.mem_vertices_merge.mpr (Or.inr hkey)
  · rcases mem_elements_iff.mp hin with hself | hkey | hchild
    · exact absurd hself hne
    · left
      refine mem_elements_iff.mpr (Or.inr (Or.inl ?_))
      rw [contents_mapContents]
      exact Contents.mem_vertices_merge.mpr (Or.inl (hother.key_mem hkey))
    · exact Or.inr hchild

end Elements

end Scope

end RecipeGraph.Graph
