import RecipeGraph.Proofs.Contents
import RecipeGraph.Proofs.Renaming

/-!
Scopes as statements without packages build them. Every element stands under its own id, every
variable has an entry for its style, and the children with their names have come in one after
the other. A copy of such a scope is the same scope. Merged into another one it adds what it
holds in the order in which it came, and what it finds by itself is then found there as well.
-/
namespace RecipeGraph.Graph

open OrderedMap

namespace Contents

/-- Every element stands under its own id, and no key comes twice. -/
structure Shelved (contents : Contents) : Prop where
  vertices : ∀ entry ∈ contents.vertices.entries, entry.1 = entry.2.id
  edges : ∀ entry ∈ contents.edges.entries, entry.1 = entry.2.id
  distinctVertices : contents.vertices.Distinct
  distinctEdges : contents.edges.Distinct
  distinctIds : contents.variableIds.Distinct
  distinctLooks : contents.variableLooks.Distinct
  distinctStyles : contents.styles.Distinct
  distinctBindings : contents.bindings.Distinct

section Shelved

variable {contents other : Contents}

theorem shelved_new (id name : String) (look : Look) :
    Shelved { id := id, name := name, look := look } where
  vertices _ hentry := nomatch hentry
  edges _ hentry := nomatch hentry
  distinctVertices := distinct_empty
  distinctEdges := distinct_empty
  distinctIds := distinct_empty
  distinctLooks := distinct_empty
  distinctStyles := distinct_empty
  distinctBindings := distinct_empty

theorem Shelved.addVertex (h : contents.Shelved) (vertex : Vertex) :
    (contents.addVertex vertex).Shelved := by
  refine { h with vertices := ?_, distinctVertices := h.distinctVertices.insert _ _ }
  rintro ⟨key, value⟩ hentry
  rcases mem_insert hentry with ⟨rfl, rfl⟩ | hold
  · rfl
  · exact h.vertices _ hold

theorem Shelved.addEdge (h : contents.Shelved) (edge : Edge) :
    (contents.addEdge edge).Shelved := by
  refine { h with edges := ?_, distinctEdges := h.distinctEdges.insert _ _ }
  rintro ⟨key, value⟩ hentry
  rcases mem_insert hentry with ⟨rfl, rfl⟩ | hold
  · rfl
  · exact h.edges _ hold

theorem Shelved.bindVariable (h : contents.Shelved) (name id : String) :
    (contents.bindVariable name id).Shelved :=
  { h with distinctIds := h.distinctIds.insert _ _ }

theorem Shelved.setVariableLook (h : contents.Shelved) (name : String) (look : Option Look) :
    (contents.setVariableLook name look).Shelved :=
  { h with distinctLooks := h.distinctLooks.insert _ _ }

theorem Shelved.setStyle (h : contents.Shelved) (name : String) (properties : Properties) :
    (contents.setStyle name properties).Shelved :=
  { h with distinctStyles := h.distinctStyles.insert _ _ }

theorem Shelved.bindStyle (h : contents.Shelved) (keyword : String) (tags : List Path) :
    (contents.bindStyle keyword tags).Shelved :=
  { h with distinctBindings := h.distinctBindings.insert _ _ }

/-- Items that stand under their own ids are merged like all else. -/
theorem writeAll_keyed {α : Type} {key : α → String} {added : OrderedMap α}
    (h : ∀ entry ∈ added.entries, entry.1 = key entry.2) (m : OrderedMap α) :
    (⟨writeAll (keyed key added.values) m.entries⟩ : OrderedMap α) = m.merge added := by
  have hkeyed : keyed key added.values = added.entries := by
    calc keyed key added.values = added.entries.map fun entry => (key entry.2, entry.2) := by
          unfold keyed values
          rw [List.map_map]
          rfl
      _ = added.entries.map fun entry => entry := by
          refine List.map_congr_left ?_
          rintro ⟨name, value⟩ hentry
          have hname : name = key value := h _ hentry
          rw [hname]
      _ = added.entries := List.map_id' _
  rw [hkeyed, ← entries_merge]

/-- What is shelved is taken over map by map. -/
theorem Shelved.merge_eq (h : other.Shelved) (contents : Contents) :
    contents.merge other =
      { contents with
        vertices := contents.vertices.merge other.vertices
        edges := contents.edges.merge other.edges
        styles := contents.styles.merge other.styles
        bindings := contents.bindings.merge other.bindings
        variableIds := contents.variableIds.merge other.variableIds
        variableLooks := contents.variableLooks.merge other.variableLooks
        packages := (contents.merge other).packages } := by
  rw [Contents.merge_eq, writeAll_keyed h.vertices, writeAll_keyed h.edges]

end Shelved

structure Orderly (contents : Contents) : Prop where
  vertices : ∀ entry ∈ contents.vertices.entries, entry.1 = entry.2.id
  edges : ∀ entry ∈ contents.edges.entries, entry.1 = entry.2.id
  distinctVertices : contents.vertices.Distinct
  distinctEdges : contents.edges.Distinct
  distinctIds : contents.variableIds.Distinct
  distinctLooks : contents.variableLooks.Distinct
  distinctStyles : contents.styles.Distinct
  distinctBindings : contents.bindings.Distinct
  looks : ∀ name,
    (contents.variableLooks.get? name).isSome = (contents.variableIds.get? name).isSome
  packages : contents.packages = []

section Orderly

variable {contents other : Contents}

theorem Orderly.shelved (h : contents.Orderly) : contents.Shelved :=
  { h with }

theorem Shelved.orderly (h : contents.Shelved)
    (hlooks : ∀ name,
      (contents.variableLooks.get? name).isSome = (contents.variableIds.get? name).isSome)
    (hpackages : contents.packages = []) : contents.Orderly :=
  { h with looks := hlooks, packages := hpackages }

theorem orderly_new (id name : String) (look : Look) :
    Orderly { id := id, name := name, look := look } :=
  (shelved_new id name look).orderly (fun _ => rfl) rfl

theorem Orderly.apply (h : contents.Orderly) (edit : Edit) : (edit.apply contents).Orderly := by
  cases edit with
  | vertex vertex => exact (h.shelved.addVertex vertex).orderly h.looks h.packages
  | edge edge => exact (h.shelved.addEdge edge).orderly h.looks h.packages
  | bind name id look =>
    refine ((h.shelved.bindVariable name id).setVariableLook name look).orderly ?_ h.packages
    intro other
    change ((contents.variableLooks.insert name look).get? other).isSome =
      ((contents.variableIds.insert name id).get? other).isSome
    rw [get?_insert, get?_insert]
    split
    · rfl
    · exact h.looks other
  | style name properties =>
    exact (h.shelved.setStyle name properties).orderly h.looks h.packages
  | binding keyword tags =>
    exact (h.shelved.bindStyle keyword tags).orderly h.looks h.packages

theorem Orderly.merge_eq (h : other.Orderly) (contents : Contents) :
    contents.merge other =
      { contents with
        vertices := contents.vertices.merge other.vertices
        edges := contents.edges.merge other.edges
        styles := contents.styles.merge other.styles
        bindings := contents.bindings.merge other.bindings
        variableIds := contents.variableIds.merge other.variableIds
        variableLooks := contents.variableLooks.merge other.variableLooks } := by
  have hpackages : (contents.merge other).packages = contents.packages := by
    simp only [merge, foldl_addVertex, foldl_addEdge, h.packages, List.foldl_nil]
  rw [h.shelved.merge_eq, hpackages]

/-- What is added after a merge could as well have been added to what is merged. -/
theorem Orderly.merge_apply (h : other.Orderly) (contents : Contents) (edit : Edit) :
    contents.merge (edit.apply other) = edit.apply (contents.merge other) := by
  rw [(h.apply edit).merge_eq, h.merge_eq]
  cases edit with
  | vertex vertex => simp only [Edit.apply, addVertex, insert_merge h.distinctVertices]
  | edge edge => simp only [Edit.apply, addEdge, insert_merge h.distinctEdges]
  | bind name id look =>
    simp only [Edit.apply, bindVariable, setVariableLook, insert_merge h.distinctIds,
      insert_merge h.distinctLooks]
  | style name properties =>
    simp only [Edit.apply, setStyle, insert_merge h.distinctStyles]
  | binding keyword tags =>
    simp only [Edit.apply, bindStyle, insert_merge h.distinctBindings]

theorem Orderly.merge_addPackage (h : other.Orderly) (contents : Contents) (location : String) :
    (contents.addPackage location).merge other =
      (contents.merge other).addPackage location := by
  rw [h.merge_eq, h.merge_eq]
  unfold addPackage
  split <;> rfl

end Orderly

end Contents

namespace Scope

theorem mapContents_foldl_attach (g : Contents → Contents) (children : List Scope)
    (scope : Scope) :
    (children.foldl attach scope).mapContents g = children.foldl attach (scope.mapContents g) := by
  induction children generalizing scope with
  | nil => rfl
  | cons first rest ih =>
    rw [List.foldl_cons, ih]
    cases scope
    rfl

/-- The scope is what its children make of its contents when they are attached in their order. -/
structure Plain (scope : Scope) : Prop where
  orderly : scope.contents.Orderly
  distinct : (scope.children.map id).Nodup
  built : scope.children.foldl attach (ofContents scope.contents) = scope

def Regular (scope : Scope) : Prop :=
  ∀ part ∈ scope.all, part.Plain

section Regular

variable {scope child : Scope}

theorem Regular.plain (h : scope.Regular) : scope.Plain :=
  h scope (self_mem_all scope)

theorem Regular.of_child (h : scope.Regular) (hchild : child ∈ scope.children) : child.Regular :=
  fun part hpart => h part (mem_all_of_child hchild hpart)

theorem Regular.of_children (hself : scope.Plain) (h : ∀ child ∈ scope.children, child.Regular) :
    scope.Regular := by
  intro part hpart
  rcases mem_all.mp hpart with rfl | ⟨child, hchild, hin⟩
  · exact hself
  · exact h child hchild part hin

theorem regular_ofContents {contents : Contents} (h : contents.Orderly) :
    (ofContents contents).Regular :=
  .of_children ⟨h, List.nodup_nil, rfl⟩ fun _ hchild => nomatch hchild

theorem Regular.edit (h : scope.Regular) (edit : Edit) :
    (scope.mapContents edit.apply).Regular := by
  have hplain := h.plain
  refine .of_children ⟨?_, ?_, ?_⟩ ?_
  · rw [contents_mapContents]
    exact hplain.orderly.apply edit
  · rw [children_mapContents]
    exact hplain.distinct
  · have hbuilt := congrArg (mapContents edit.apply) hplain.built
    rw [mapContents_foldl_attach] at hbuilt
    rw [children_mapContents, contents_mapContents]
    exact hbuilt
  · rw [children_mapContents]
    exact fun child hchild => h.of_child hchild

theorem Regular.attach (h : scope.Regular) (hchild : child.Regular)
    (hfresh : child.id ∉ scope.children.map id) : (scope.attach child).Regular := by
  have hplain := h.plain
  refine .of_children ⟨hplain.orderly, nodup_placeChild child hplain.distinct, ?_⟩ ?_
  · rw [children_attach, placeChild_of_not_mem hfresh, List.foldl_append, contents_attach,
      hplain.built]
    rfl
  · intro part hpart
    rcases mem_placeChild hpart with rfl | hold
    · exact hchild
    · exact h.of_child hold

theorem Regular.copy_eq (h : scope.Regular) : scope.copy = scope := by
  induction scope using Scope.induction with
  | step contents names children ih =>
    have hcopies : children.map copy = children := by
      calc children.map copy = children.map fun child => child := by
            refine List.map_congr_left ?_
            intro child hchild
            exact ih child hchild (h.of_child hchild)
        _ = children := List.map_id' children
    rw [Scope.copy_eq, children_mk, hcopies]
    exact h.plain.built

/-- A variable and its style are found in the same places. -/
theorem Regular.looks (h : scope.Regular) (path : Path) :
    (scope.findBelow Contents.variableLooks path).isSome =
      (scope.findBelow Contents.variableIds path).isSome := by
  induction path generalizing scope with
  | nil => rfl
  | cons name rest ih =>
    cases rest with
    | nil => exact h.plain.orderly.looks name
    | cons next rest =>
      simp only [findBelow]
      cases hchild : (scope.names.get? name).bind scope.child? with
      | none => rfl
      | some child =>
        obtain ⟨id, -, hid⟩ := Option.bind_eq_some_iff.mp hchild
        exact ih (h.of_child (mem_of_child? hid).1)

end Regular

section Merge

variable {scope other child : Scope}

theorem merge_edit (h : other.Regular) (scope : Scope) (edit : Edit) :
    scope.merge (other.mapContents edit.apply) = (scope.merge other).mapContents edit.apply := by
  unfold merge
  rw [children_mapContents, contents_mapContents, mapContents_foldl_attach]
  congr 1
  obtain ⟨contents, names, children⟩ := scope
  exact congrArg (mk · names children) (h.plain.orderly.merge_apply contents edit)

theorem merge_attach (hfresh : child.id ∉ other.children.map id) (scope : Scope) :
    scope.merge (other.attach child) = (scope.merge other).attach child := by
  unfold merge
  rw [children_attach, placeChild_of_not_mem hfresh, List.foldl_append, contents_attach]
  rfl

theorem merge_addPackage (h : other.Regular) (scope : Scope) (location : String) :
    (scope.mapContents (·.addPackage location)).merge other =
      (scope.merge other).mapContents (·.addPackage location) := by
  unfold merge
  rw [mapContents_foldl_attach]
  congr 1
  obtain ⟨contents, names, children⟩ := scope
  exact congrArg (mk · names children)
    (h.plain.orderly.merge_addPackage contents location)

theorem attach_addPackage (scope child : Scope) (location : String) :
    (scope.mapContents (·.addPackage location)).attach child =
      (scope.attach child).mapContents (·.addPackage location) := by
  cases scope
  rfl

theorem merge_new (scope : Scope) (id name : String) (look : Look) :
    scope.merge (ofContents { id := id, name := name, look := look }) = scope := by
  cases scope
  rfl

/-- A scope merged into an empty one is the same scope, but for what it is called. -/
theorem Regular.merge_into_new (h : scope.Regular)
    (hlook : scope.contents.look = {}) (id name : String) :
    (ofContents { id := id, name := name }).merge scope =
      scope.mapContents fun contents => { contents with id := id, name := name } := by
  have horderly := h.plain.orderly
  have hcontents : ({ id := id, name := name } : Contents).merge scope.contents =
      { scope.contents with id := id, name := name } := by
    rw [horderly.merge_eq, OrderedMap.empty_merge horderly.distinctVertices,
      OrderedMap.empty_merge horderly.distinctEdges,
      OrderedMap.empty_merge horderly.distinctStyles,
      OrderedMap.empty_merge horderly.distinctBindings,
      OrderedMap.empty_merge horderly.distinctIds,
      OrderedMap.empty_merge horderly.distinctLooks, ← hlook, ← horderly.packages]
  have hbuilt := congrArg (mapContents fun contents => { contents with id := id, name := name })
    h.plain.built
  rw [mapContents_foldl_attach] at hbuilt
  rw [← hbuilt]
  unfold merge
  change scope.children.foldl Scope.attach (ofContents (Contents.merge _ scope.contents)) = _
  rw [hcontents]
  rfl

/-- What a name leads to is settled by the children that come in last. -/
theorem names_foldl_attach_mono {first second : Scope} {name : String}
    (h : ∀ id, first.names.get? name = some id → second.names.get? name = some id)
    (children : List Scope) (id : String)
    (hid : (children.foldl attach first).names.get? name = some id) :
    (children.foldl attach second).names.get? name = some id := by
  induction children generalizing first second with
  | nil => exact h id hid
  | cons child rest ih =>
    refine ih ?_ hid
    intro x hx
    rw [names_attach] at hx ⊢
    split at hx
    · rename_i hname
      rw [if_pos hname]
      exact h x hx
    · rename_i hname
      rw [if_neg hname]
      rw [get?_insert_eq_some] at hx ⊢
      exact hx.imp_right (And.imp_right (h x))

theorem child?_foldl_attach {children : List Scope} (hdistinct : (children.map id).Nodup)
    (hapart : ∀ x ∈ children.map id, x ∉ scope.children.map id) (x : String) :
    (children.foldl attach scope).child? x =
      (children.find? (·.id = x)).or (scope.child? x) := by
  induction children generalizing scope with
  | nil => rfl
  | cons first rest ih =>
    rw [List.map_cons, List.nodup_cons] at hdistinct
    have hfirst : first.id ∉ scope.children.map id := hapart first.id (by simp)
    have hrest : ∀ y ∈ rest.map id, y ∉ (scope.attach first).children.map id := by
      intro y hy hmem
      rcases mem_ids_placeChild.mp hmem with rfl | hold
      · exact hdistinct.1 hy
      · exact hapart y (List.mem_cons_of_mem _ hy) hold
    rw [List.foldl_cons, ih hdistinct.2 hrest, child?_attach hfirst]
    by_cases hid : first.id = x
    · have hnone : rest.find? (fun other => decide (other.id = x)) = none := by
        refine List.find?_eq_none.mpr ?_
        intro other hother heq
        rw [decide_eq_true_eq] at heq
        exact hdistinct.1 (List.mem_map.mpr ⟨other, hother, heq.trans hid.symm⟩)
      simp [hid, hnone]
    · simp [hid]

/-- What a scope finds is found just so in a scope that it was merged into. -/
theorem findBelow_merge {α : Type} {member : Contents → OrderedMap α} (h : other.Regular)
    (hapart : ∀ x ∈ other.children.map id, x ∉ scope.children.map id)
    (hmember : ∀ key value, (member other.contents).get? key = some value →
      (member (scope.contents.merge other.contents)).get? key = some value)
    {path : Path} {value : α} (hfound : other.findBelow member path = some value) :
    (scope.merge other).findBelow member path = some value := by
  match path with
  | [] => cases hfound
  | [name] =>
    unfold findBelow
    rw [contents_merge]
    exact hmember name value hfound
  | name :: next :: rest =>
    simp only [findBelow] at hfound ⊢
    cases hchild : (other.names.get? name).bind other.child? with
    | none =>
      rw [hchild] at hfound
      cases hfound
    | some child =>
      obtain ⟨id, hname, hid⟩ := Option.bind_eq_some_iff.mp hchild
      have hname' : (scope.merge other).names.get? name = some id := by
        have hbuilt : (other.children.foldl attach (ofContents other.contents)).names.get? name =
            some id := by
          rw [h.plain.built]
          exact hname
        refine names_foldl_attach_mono ?_ other.children id hbuilt
        intro _ hnone
        cases hnone
      have hid' : (scope.merge other).child? id = some child := by
        unfold merge
        rw [child?_foldl_attach h.plain.distinct]
        · change (other.child? id).or _ = _
          rw [hid]
          rfl
        · rw [children_mapContents]
          exact hapart
      rw [hchild] at hfound
      rw [hname', Option.bind_some, hid']
      exact hfound

end Merge

end Scope

end RecipeGraph.Graph
