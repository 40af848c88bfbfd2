import RecipeGraph.Graph.Contents
import RecipeGraph.Proofs.Maps

/-!
Facts about what one scope holds by itself. A merge takes over the vertices and edges of the
other scope under their own ids and writes all other maps over those that are there; the scope
stays the one it was.
-/
namespace RecipeGraph.Graph.Contents

open OrderedMap

/-- Items under their own ids. -/
def keyed {α : Type} (key : α → String) (items : List α) : List (String × α) :=
  items.map fun item => (key item, item)

theorem foldl_addVertex (added : List Vertex) (contents : Contents) :
    added.foldl addVertex contents =
      { contents with
        vertices := ⟨writeAll (keyed Vertex.id added) contents.vertices.entries⟩ } := by
  induction added generalizing contents with
  | nil => rfl
  | cons first rest ih =>
    rw [List.foldl_cons, ih]
    rfl

theorem foldl_addEdge (added : List Edge) (contents : Contents) :
    added.foldl addEdge contents =
      { contents with
        edges := ⟨writeAll (keyed Edge.id added) contents.edges.entries⟩ } := by
  induction added generalizing contents with
  | nil => rfl
  | cons first rest ih =>
    rw [List.foldl_cons, ih]
    rfl

theorem merge_eq (contents other : Contents) :
    contents.merge other =
      { contents with
        vertices :=
          ⟨writeAll (keyed Vertex.id other.vertices.values) contents.vertices.entries⟩
        edges := ⟨writeAll (keyed Edge.id other.edges.values) contents.edges.entries⟩
        styles := contents.styles.merge other.styles
        bindings := contents.bindings.merge other.bindings
        variableIds := contents.variableIds.merge other.variableIds
        variableLooks := contents.variableLooks.merge other.variableLooks
        packages := (contents.merge other).packages } := by
  unfold merge
  simp only [foldl_addVertex, foldl_addEdge]

section Merge

variable (contents other : Contents)

@[simp] theorem id_merge : (contents.merge other).id = contents.id := by
  rw [merge_eq]

@[simp] theorem name_merge : (contents.merge other).name = contents.name := by
  rw [merge_eq]

@[simp] theorem look_merge : (contents.merge other).look = contents.look := by
  rw [merge_eq]

@[simp] theorem variableIds_merge :
    (contents.merge other).variableIds = contents.variableIds.merge other.variableIds := by
  rw [merge_eq]

@[simp] theorem variableLooks_merge :
    (contents.merge other).variableLooks =
      contents.variableLooks.merge other.variableLooks := by
  rw [merge_eq]

@[simp] theorem styles_merge :
    (contents.merge other).styles = contents.styles.merge other.styles := by
  rw [merge_eq]

@[simp] theorem bindings_merge :
    (contents.merge other).bindings = contents.bindings.merge other.bindings := by
  rw [merge_eq]

theorem vertices_merge : (contents.merge other).vertices.entries =
    writeAll (keyed Vertex.id other.vertices.values) contents.vertices.entries := by
  rw [merge_eq]

theorem edges_merge : (contents.merge other).edges.entries =
    writeAll (keyed Edge.id other.edges.values) contents.edges.entries := by
  rw [merge_eq]

variable {contents other}

theorem mem_edges_merge {edge : Edge} (h : edge ∈ (contents.merge other).edges.values) :
    edge ∈ other.edges.values ∨ edge ∈ contents.edges.values := by
  obtain ⟨key, hkey⟩ := mem_values.mp h
  rw [edges_merge] at hkey
  rcases mem_writeAll hkey with hadded | hold
  · obtain ⟨origin, horigin, heq⟩ := List.mem_map.mp hadded
    obtain ⟨-, rfl⟩ := Prod.mk.inj heq
    exact Or.inl horigin
  · exact Or.inr (mem_values.mpr ⟨key, hold⟩)

theorem mem_vertexValues_merge {vertex : Vertex}
    (h : vertex ∈ (contents.merge other).vertices.values) :
    vertex ∈ other.vertices.values ∨ vertex ∈ contents.vertices.values := by
  obtain ⟨key, hkey⟩ := mem_values.mp h
  rw [vertices_merge] at hkey
  rcases mem_writeAll hkey with hadded | hold
  · obtain ⟨origin, horigin, heq⟩ := List.mem_map.mp hadded
    obtain ⟨-, rfl⟩ := Prod.mk.inj heq
    exact Or.inl horigin
  · exact Or.inr (mem_values.mpr ⟨key, hold⟩)

theorem mem_vertices_merge {id : String} : id ∈ (contents.merge other).vertices.keys ↔
    id ∈ other.vertices.values.map Vertex.id ∨ id ∈ contents.vertices.keys := by
  unfold keys
  rw [vertices_merge, mem_keys_writeAll]
  simp [keyed]

end Merge

@[simp] theorem addPackage_id (contents : Contents) (location : String) :
    (contents.addPackage location).id = contents.id := by
  unfold addPackage
  split <;> rfl

@[simp] theorem addPackage_name (contents : Contents) (location : String) :
    (contents.addPackage location).name = contents.name := by
  unfold addPackage
  split <;> rfl

end RecipeGraph.Graph.Contents
