import RecipeGraph.Graph.Scope
import RecipeGraph.Proofs.Contents

/-!
Facts about scopes as trees. A child takes the place of one with its id or comes in at the end,
and a merge takes the children in one after the other. Where no two children of a scope have
one id, a copy has the same children in the same order.
-/
namespace RecipeGraph.Graph.Scope

/-- What holds of a scope whenever it holds of its children holds of every scope. -/
theorem induction {P : Scope → Prop}
    (step : ∀ contents names children, (∀ child ∈ children, P child) →
      P (mk contents names children)) (scope : Scope) : P scope := by
  refine Scope.rec (motive_1 := P) (motive_2 := fun children => ∀ child ∈ children, P child)
    (fun contents names children ih => step contents names children ih) ?_ ?_ scope
  · intro child hchild
    simp at hchild
  · intro first rest hfirst hrest child hchild
    rcases List.mem_cons.mp hchild with rfl | hmem
    · exact hfirst
    · exact hrest child hmem

@[simp] theorem contents_mk (contents : Contents) (names : OrderedMap String)
    (children : List Scope) : (mk contents names children).contents = contents := rfl

@[simp] theorem names_mk (contents : Contents) (names : OrderedMap String)
    (children : List Scope) : (mk contents names children).names = names := rfl

@[simp] theorem children_mk (contents : Contents) (names : OrderedMap String)
    (children : List Scope) : (mk contents names children).children = children := rfl

theorem mk_eta (scope : Scope) : mk scope.contents scope.names scope.children = scope := by
  cases scope
  rfl

theorem mem_allOf {scope : Scope} {scopes : List Scope} :
    scope ∈ allOf scopes ↔ ∃ top ∈ scopes, scope ∈ top.all := by
  induction scopes with
  | nil => simp [allOf]
  | cons first rest ih => simp [allOf, ih]

theorem all_eq (scope : Scope) : scope.all = scope :: allOf scope.children := by
  cases scope
  rfl

theorem mem_all {scope top : Scope} :
    scope ∈ top.all ↔ scope = top ∨ ∃ child ∈ top.children, scope ∈ child.all := by
  rw [all_eq, List.mem_cons, mem_allOf]

theorem self_mem_all (scope : Scope) : scope ∈ scope.all :=
  mem_all.mpr (Or.inl rfl)

theorem mem_all_of_child {scope child top : Scope} (hchild : child ∈ top.children)
    (h : scope ∈ child.all) : scope ∈ top.all :=
  mem_all.mpr (Or.inr ⟨child, hchild, h⟩)

/-- The scopes in a scope, without itself. -/
def inner (scope : Scope) : List Scope := allOf scope.children

theorem mem_inner {scope top : Scope} :
    scope ∈ top.inner ↔ ∃ child ∈ top.children, scope ∈ child.all :=
  mem_allOf

theorem child_mem_inner {child top : Scope} (h : child ∈ top.children) : child ∈ top.inner :=
  mem_inner.mpr ⟨child, h, self_mem_all child⟩

theorem inner_subset_all {scope top : Scope} (h : scope ∈ top.inner) : scope ∈ top.all :=
  mem_all.mpr (Or.inr (mem_inner.mp h))

theorem mem_all_trans {low middle top : Scope} (hlow : low ∈ middle.all)
    (hmiddle : middle ∈ top.all) : low ∈ top.all := by
  induction top using Scope.induction with
  | step contents names children ih =>
    rcases mem_all.mp hmiddle with rfl | ⟨child, hchild, hin⟩
    · exact hlow
    · exact mem_all_of_child hchild (ih child hchild hin)

/-- What the scope and all scopes in it hold of one kind. -/
def gather {α : Type} (f : Contents → List α) (scope : Scope) : List α :=
  scope.all.flatMap fun part => f part.contents

theorem mem_gather {α : Type} {f : Contents → List α} {x : α} {scope : Scope} :
    x ∈ scope.gather f ↔ ∃ part ∈ scope.all, x ∈ f part.contents :=
  List.mem_flatMap

theorem mem_gather_iff {α : Type} {f : Contents → List α} {x : α} {scope : Scope} :
    x ∈ scope.gather f ↔ x ∈ f scope.contents ∨ ∃ child ∈ scope.children, x ∈ child.gather f := by
  rw [mem_gather]
  constructor
  · rintro ⟨part, hpart, hx⟩
    rcases mem_all.mp hpart with rfl | ⟨child, hchild, hin⟩
    · exact Or.inl hx
    · exact Or.inr ⟨child, hchild, mem_gather.mpr ⟨part, hin, hx⟩⟩
  · rintro (hx | ⟨child, hchild, hx⟩)
    · exact ⟨scope, self_mem_all scope, hx⟩
    · obtain ⟨part, hin, hpart⟩ := mem_gather.mp hx
      exact ⟨part, mem_all_of_child hchild hin, hpart⟩

/-- The ids of all that a scope consists of: of itself, its vertices and the scopes in it. -/
def elements (scope : Scope) : List String :=
  scope.all.flatMap fun part => part.id :: part.contents.vertices.keys

theorem mem_elements {id : String} {scope : Scope} :
    id ∈ scope.elements ↔ ∃ part ∈ scope.all, id = part.id ∨ id ∈ part.contents.vertices.keys := by
  simp [elements]

theorem mem_elements_iff {id : String} {scope : Scope} :
    id ∈ scope.elements ↔ id = scope.id ∨ id ∈ scope.contents.vertices.keys ∨
      ∃ child ∈ scope.children, id ∈ child.elements := by
  rw [mem_elements]
  constructor
  · rintro ⟨part, hpart, h⟩
    rcases mem_all.mp hpart with rfl | ⟨child, hchild, hin⟩
    · rcases h with h | h
      · exact Or.inl h
      · exact Or.inr (Or.inl h)
    · exact Or.inr (Or.inr ⟨child, hchild, mem_elements.mpr ⟨part, hin, h⟩⟩)
  · rintro (h | h | ⟨child, hchild, h⟩)
    · exact ⟨scope, self_mem_all scope, Or.inl h⟩
    · exact ⟨scope, self_mem_all scope, Or.inr h⟩
    · obtain ⟨part, hin, hid⟩ := mem_elements.mp h
      exact ⟨part, mem_all_of_child hchild hin, hid⟩

theorem id_mem_elements (scope : Scope) : scope.id ∈ scope.elements :=
  mem_elements_iff.mpr (Or.inl rfl)

section Attach

variable {parent child : Scope}

theorem mem_placeChild {scope child : Scope} {children : List Scope}
    (h : scope ∈ placeChild child children) : scope = child ∨ scope ∈ children := by
  induction children with
  | nil =>
    left
    simpa [placeChild] using h
  | cons first rest ih =>
    by_cases hid : first.id = child.id
    · simp only [placeChild, hid, ↓reduceIte, List.mem_cons] at h
      rcases h with h | h
      · exact Or.inl h
      · exact Or.inr (List.mem_cons_of_mem _ h)
    · simp only [placeChild, hid, ↓reduceIte, List.mem_cons] at h
      rcases h with h | h
      · exact Or.inr (h ▸ List.mem_cons_self ..)
      · rcases ih h with hnew | hold
        · exact Or.inl hnew
        · exact Or.inr (List.mem_cons_of_mem _ hold)

theorem self_mem_placeChild (child : Scope) (children : List Scope) :
    child ∈ placeChild child children := by
  induction children with
  | nil => simp [placeChild]
  | cons first rest ih =>
    by_cases hid : first.id = child.id <;> simp [placeChild, hid, ih]

theorem mem_placeChild_of_ne {scope child : Scope} {children : List Scope}
    (h : scope ∈ children) (hne : scope.id ≠ child.id) : scope ∈ placeChild child children := by
  induction children with
  | nil => simp at h
  | cons first rest ih =>
    rcases List.mem_cons.mp h with rfl | hmem
    · simp [placeChild, hne]
    · by_cases hid : first.id = child.id
      · simp [placeChild, hid, hmem]
      · simp [placeChild, hid, ih hmem]

theorem placeChild_of_not_mem {child : Scope} {children : List Scope}
    (h : child.id ∉ children.map id) : placeChild child children = children ++ [child] := by
  induction children with
  | nil => rfl
  | cons first rest ih =>
    simp only [List.map_cons, List.mem_cons, not_or] at h
    have hne : first.id ≠ child.id := fun heq => h.1 heq.symm
    simp [placeChild, hne, ih h.2]

theorem ids_placeChild (child : Scope) (children : List Scope) :
    (placeChild child children).map id =
      if child.id ∈ children.map id then children.map id else children.map id ++ [child.id] := by
  induction children with
  | nil => simp [placeChild]
  | cons first rest ih =>
    by_cases hid : first.id = child.id
    · simp [placeChild, hid]
    · have hne : child.id ≠ first.id := Ne.symm hid
      simp only [placeChild, hid, ↓reduceIte, List.map_cons, ih, List.mem_cons, hne, false_or]
      split <;> simp

theorem mem_ids_placeChild {child : Scope} {children : List Scope} {x : String} :
    x ∈ (placeChild child children).map id ↔ x = child.id ∨ x ∈ children.map id := by
  rw [ids_placeChild]
  exact OrderedMap.mem_ite_append

theorem nodup_placeChild (child : Scope) {children : List Scope}
    (h : (children.map id).Nodup) : ((placeChild child children).map id).Nodup := by
  rw [ids_placeChild]
  exact OrderedMap.nodup_ite_append h child.id

@[simp] theorem contents_attach : (parent.attach child).contents = parent.contents := rfl

@[simp] theorem id_attach : (parent.attach child).id = parent.id := rfl

@[simp] theorem children_attach :
    (parent.attach child).children = placeChild child parent.children := rfl

theorem names_attach : (parent.attach child).names =
    if child.name = "" then parent.names else parent.names.insert child.name child.id := rfl

theorem mem_inner_attach {scope : Scope} (h : scope ∈ (parent.attach child).inner) :
    scope ∈ child.all ∨ scope ∈ parent.inner := by
  obtain ⟨top, htop, hin⟩ := mem_inner.mp h
  rcases mem_placeChild htop with rfl | hold
  · exact Or.inl hin
  · exact Or.inr (mem_inner.mpr ⟨top, hold, hin⟩)

end Attach

section AttachAll

variable {children : List Scope} {scope : Scope}

@[simp] theorem contents_foldl_attach (children : List Scope) (scope : Scope) :
    (children.foldl attach scope).contents = scope.contents := by
  induction children generalizing scope with
  | nil => rfl
  | cons first rest ih => exact ih (scope.attach first)

theorem mem_children_foldl_attach {child : Scope}
    (h : child ∈ (children.foldl attach scope).children) :
    child ∈ children ∨ child ∈ scope.children := by
  induction children generalizing scope with
  | nil => exact Or.inr h
  | cons first rest ih =>
    rcases ih h with hrest | hin
    · exact Or.inl (List.mem_cons_of_mem _ hrest)
    · rcases mem_placeChild hin with rfl | hold
      · exact Or.inl (List.mem_cons_self ..)
      · exact Or.inr hold

theorem mem_ids_foldl_attach {x : String} :
    x ∈ (children.foldl attach scope).children.map id ↔
      x ∈ children.map id ∨ x ∈ scope.children.map id := by
  induction children generalizing scope with
  | nil => simp
  | cons first rest ih =>
    rw [List.foldl_cons, ih, children_attach, mem_ids_placeChild, List.map_cons, List.mem_cons]
    tauto

theorem nodup_foldl_attach (children : List Scope) {scope : Scope}
    (h : (scope.children.map id).Nodup) :
    ((children.foldl attach scope).children.map id).Nodup := by
  induction children generalizing scope with
  | nil => exact h
  | cons first rest ih => exact ih (nodup_placeChild first h)

theorem children_foldl_attach (h : (scope.children.map id ++ children.map id).Nodup) :
    (children.foldl attach scope).children = scope.children ++ children := by
  induction children generalizing scope with
  | nil => simp
  | cons first rest ih =>
    have hnew : first.id ∉ scope.children.map id := by
      intro hmem
      exact (List.nodup_append.mp h).2.2 _ hmem _ (by simp) rfl
    have hplaced : (scope.attach first).children = scope.children ++ [first] :=
      placeChild_of_not_mem hnew
    rw [List.foldl_cons, ih, hplaced, List.append_assoc]
    · rfl
    · rw [hplaced]
      simpa using h

end AttachAll

@[simp] theorem contents_mapContents (f : Contents → Contents) (scope : Scope) :
    (scope.mapContents f).contents = f scope.contents := by
  cases scope
  rfl

@[simp] theorem children_mapContents (f : Contents → Contents) (scope : Scope) :
    (scope.mapContents f).children = scope.children := by
  cases scope
  rfl

@[simp] theorem names_mapContents (f : Contents → Contents) (scope : Scope) :
    (scope.mapContents f).names = scope.names := by
  cases scope
  rfl

@[simp] theorem inner_mapContents (f : Contents → Contents) (scope : Scope) :
    (scope.mapContents f).inner = scope.inner := by
  unfold inner
  rw [children_mapContents]

@[simp] theorem contents_merge (scope other : Scope) :
    (scope.merge other).contents = scope.contents.merge other.contents := by
  unfold merge
  rw [contents_foldl_attach, contents_mapContents]

@[simp] theorem id_merge (scope other : Scope) : (scope.merge other).id = scope.id := by
  unfold id
  rw [contents_merge, Contents.id_merge]

section Gather

variable {α : Type} {f : Contents → List α} {x : α} {scope other child : Scope}

theorem mem_gather_mapContents {g : Contents → Contents}
    (h : x ∈ (scope.mapContents g).gather f) : x ∈ f (g scope.contents) ∨ x ∈ scope.gather f := by
  rcases mem_gather_iff.mp h with hself | ⟨child, hchild, hx⟩
  · rw [contents_mapContents] at hself
    exact Or.inl hself
  · rw [children_mapContents] at hchild
    exact Or.inr (mem_gather_iff.mpr (Or.inr ⟨child, hchild, hx⟩))

theorem mem_gather_attach (h : x ∈ (scope.attach child).gather f) :
    x ∈ scope.gather f ∨ x ∈ child.gather f := by
  rcases mem_gather_iff.mp h with hself | ⟨top, htop, hx⟩
  · exact Or.inl (mem_gather_iff.mpr (Or.inl hself))
  · rcases mem_placeChild htop with rfl | hold
    · exact Or.inr hx
    · exact Or.inl (mem_gather_iff.mpr (Or.inr ⟨top, hold, hx⟩))

theorem mem_gather_merge (h : x ∈ (scope.merge other).gather f) :
    x ∈ f (scope.contents.merge other.contents) ∨ x ∈ scope.gather f ∨ x ∈ other.gather f := by
  rcases mem_gather_iff.mp h with hself | ⟨top, htop, hx⟩
  · rw [contents_merge] at hself
    exact Or.inl hself
  · rcases mem_children_foldl_attach htop with hother | hown
    · exact Or.inr (Or.inr (mem_gather_iff.mpr (Or.inr ⟨top, hother, hx⟩)))
    · rw [children_mapContents] at hown
      exact Or.inr (Or.inl (mem_gather_iff.mpr (Or.inr ⟨top, hown, hx⟩)))

end Gather

/-- No two children of a scope or of one in it have the same id. -/
def DistinctIds (scope : Scope) : Prop :=
  ∀ part ∈ scope.all, (part.children.map id).Nodup

theorem DistinctIds.of_mem {part scope : Scope} (h : scope.DistinctIds)
    (hpart : part ∈ scope.all) : part.DistinctIds := by
  intro low hlow
  exact h low (mem_all_trans hlow hpart)

theorem DistinctIds.of_child {child scope : Scope} (h : scope.DistinctIds)
    (hchild : child ∈ scope.children) : child.DistinctIds :=
  h.of_mem (mem_all_of_child hchild (self_mem_all child))

theorem DistinctIds.children_nodup {scope : Scope} (h : scope.DistinctIds) :
    (scope.children.map id).Nodup :=
  h scope (self_mem_all scope)

section Copy

theorem copyAll_eq_map (scopes : List Scope) : copyAll scopes = scopes.map copy := by
  induction scopes with
  | nil => rfl
  | cons first rest ih => simp [copyAll, ih]

theorem copy_eq (scope : Scope) :
    scope.copy = (scope.children.map copy).foldl attach (ofContents scope.contents) := by
  cases scope
  simp [copy, copyAll_eq_map]

@[simp] theorem contents_copy (scope : Scope) : scope.copy.contents = scope.contents := by
  rw [copy_eq, contents_foldl_attach]
  rfl

@[simp] theorem id_copy (scope : Scope) : scope.copy.id = scope.id := by
  unfold id
  rw [contents_copy]

theorem ids_copies (scopes : List Scope) : (scopes.map copy).map id = scopes.map id := by
  simp

theorem mem_gather_copy {α : Type} {f : Contents → List α} {x : α} {scope : Scope}
    (h : x ∈ scope.copy.gather f) : x ∈ scope.gather f := by
  induction scope using Scope.induction with
  | step contents names children ih =>
    rcases mem_gather_iff.mp h with hself | ⟨top, htop, hx⟩
    · rw [contents_copy] at hself
      exact mem_gather_iff.mpr (Or.inl hself)
    · rw [copy_eq] at htop
      rcases mem_children_foldl_attach htop with hcopy | hnone
      · obtain ⟨child, hchild, rfl⟩ := List.mem_map.mp hcopy
        exact mem_gather_iff.mpr (Or.inr ⟨child, hchild, ih child hchild hx⟩)
      · cases hnone

theorem children_copy {scope : Scope} (h : scope.DistinctIds) :
    scope.copy.children = scope.children.map copy := by
  rw [copy_eq, children_foldl_attach]
  · rfl
  · change ([] ++ _ : List String).Nodup
    rw [List.nil_append, ids_copies]
    exact h.children_nodup

theorem mem_all_copy {scope part : Scope} (h : scope.DistinctIds) (hpart : part ∈ scope.copy.all) :
    ∃ original ∈ scope.all, part = original.copy := by
  induction scope using Scope.induction generalizing part with
  | step contents names children ih =>
    rcases mem_all.mp hpart with rfl | ⟨child, hchild, hin⟩
    · exact ⟨_, self_mem_all _, rfl⟩
    · rw [children_copy h] at hchild
      obtain ⟨original, horiginal, rfl⟩ := List.mem_map.mp hchild
      obtain ⟨low, hlow, heq⟩ := ih original horiginal (h.of_child horiginal) hin
      exact ⟨low, mem_all_of_child horiginal hlow, heq⟩

theorem mem_inner_copy {scope part : Scope} (h : scope.DistinctIds)
    (hpart : part ∈ scope.copy.inner) : ∃ original ∈ scope.inner, part = original.copy := by
  obtain ⟨child, hchild, hin⟩ := mem_inner.mp hpart
  rw [children_copy h] at hchild
  obtain ⟨original, horiginal, rfl⟩ := List.mem_map.mp hchild
  obtain ⟨low, hlow, heq⟩ := mem_all_copy (h.of_child horiginal) hin
  exact ⟨low, mem_inner.mpr ⟨original, horiginal, hlow⟩, heq⟩

theorem mem_elements_copy {scope : Scope} (h : scope.DistinctIds) {x : String} :
    x ∈ scope.copy.elements ↔ x ∈ scope.elements := by
  induction scope using Scope.induction with
  | step contents names children ih =>
    rw [mem_elements_iff, mem_elements_iff, children_copy h, id_copy, contents_copy]
    have hchildren : (∃ child ∈ children.map copy, x ∈ child.elements) ↔
        ∃ child ∈ children, x ∈ child.elements := by
      constructor
      · rintro ⟨_, hmem, hx⟩
        obtain ⟨child, hchild, rfl⟩ := List.mem_map.mp hmem
        exact ⟨child, hchild, (ih child hchild (h.of_child hchild)).mp hx⟩
      · rintro ⟨child, hchild, hx⟩
        exact ⟨child.copy, List.mem_map_of_mem hchild,
          (ih child hchild (h.of_child hchild)).mpr hx⟩
    simp only [children_mk, hchildren]

end Copy

end RecipeGraph.Graph.Scope
