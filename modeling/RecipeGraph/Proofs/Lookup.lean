import RecipeGraph.Proofs.Trees

/-!
Looking names up. What is found under a path stands in one of the scopes searched. The guard
against ids that come again has no effect where the scopes around have ids of their own.
-/
namespace RecipeGraph.Graph.Scope

variable {α : Type} {member : Contents → OrderedMap α}

theorem mem_of_child? {scope child : Scope} {id : String} (h : scope.child? id = some child) :
    child ∈ scope.children ∧ child.id = id := by
  constructor
  · exact List.mem_of_find?_eq_some h
  · simpa using List.find?_some h

theorem mem_of_findBelow {path : Path} {scope : Scope} {value : α}
    (h : scope.findBelow member path = some value) :
    ∃ part ∈ scope.all, value ∈ (member part.contents).values := by
  induction path generalizing scope with
  | nil => simp [findBelow] at h
  | cons name rest ih =>
    cases rest with
    | nil =>
      have hentry := OrderedMap.mem_of_get? h
      exact ⟨scope, self_mem_all scope, OrderedMap.mem_values.mpr ⟨name, hentry⟩⟩
    | cons next rest =>
      simp only [findBelow] at h
      split at h
      · rename_i child hchild
        obtain ⟨id, -, hid⟩ := Option.bind_eq_some_iff.mp hchild
        obtain ⟨part, hpart, hvalue⟩ := ih h
        exact ⟨part, mem_all_of_child (mem_of_child? hid).1 hpart, hvalue⟩
      · simp at h

/-- A path with several names does not depend on what the scope holds by itself. -/
theorem findBelow_mapContents (f : Contents → Contents) (scope : Scope) (name next : String)
    (rest : Path) : (scope.mapContents f).findBelow member (name :: next :: rest) =
      scope.findBelow member (name :: next :: rest) := by
  cases scope
  rfl

section Fresh

variable {scope child : Scope} (hfresh : child.id ∉ scope.children.map id)

include hfresh

theorem child?_attach (x : String) :
    (scope.attach child).child? x = if child.id = x then some child else scope.child? x := by
  unfold child?
  rw [children_attach, placeChild_of_not_mem hfresh, List.find?_append]
  by_cases hid : child.id = x
  · have hnone : scope.children.find? (fun other => decide (other.id = x)) = none := by
      refine List.find?_eq_none.mpr ?_
      intro other hother heq
      rw [decide_eq_true_eq] at heq
      exact hfresh (List.mem_map.mpr ⟨other, hother, heq.trans hid.symm⟩)
    simp [hnone, hid]
  · simp [hid]

/-- A new child is found under its name from then on, and all else as before. -/
theorem findBelow_attach (hnames : ∀ x ∈ scope.names.values, x ∈ scope.children.map id)
    (name next : String) (rest : Path) :
    (scope.attach child).findBelow member (name :: next :: rest) =
      if child.name = name ∧ name ≠ "" then child.findBelow member (next :: rest)
      else scope.findBelow member (name :: next :: rest) := by
  have hold : ∀ x, scope.names.get? name = some x → child.id ≠ x := by
    intro x hx heq
    have hvalue := OrderedMap.mem_values.mpr ⟨name, OrderedMap.mem_of_get? hx⟩
    exact hfresh (heq ▸ hnames x hvalue)
  have hkept : (scope.names.get? name).bind (scope.attach child).child? =
      (scope.names.get? name).bind scope.child? := by
    cases hget : scope.names.get? name with
    | none => rfl
    | some x =>
      change (scope.attach child).child? x = scope.child? x
      rw [child?_attach hfresh, if_neg (hold x hget)]
  by_cases hnamed : child.name = name ∧ name ≠ ""
  · obtain ⟨rfl, hne⟩ := hnamed
    simp [findBelow, names_attach, hne, child?_attach hfresh]
  · have hnames' : (scope.attach child).names.get? name = scope.names.get? name := by
      rw [names_attach]
      split
      · rfl
      · rename_i hne
        refine OrderedMap.get?_insert_of_ne _ _ ?_
        rintro rfl
        exact hnamed ⟨rfl, hne⟩
    rw [if_neg hnamed]
    simp only [findBelow, hnames', hkept]

end Fresh

/-- Every part of a scope with one more child has the contents of a part of either. -/
theorem contents_of_mem_attach {parent child part : Scope} (h : part ∈ (parent.attach child).all) :
    ∃ origin, (origin ∈ child.all ∨ origin ∈ parent.all) ∧ origin.contents = part.contents := by
  rcases mem_all.mp h with rfl | hinner
  · exact ⟨parent, Or.inr (self_mem_all parent), rfl⟩
  · rcases mem_inner_attach (mem_inner.mpr hinner) with hin | hin
    · exact ⟨part, Or.inl hin, rfl⟩
    · exact ⟨part, Or.inr (inner_subset_all hin), rfl⟩

/-- Looking a path up in a scope and then in those around it, without a guard. -/
def search (member : Contents → OrderedMap α) (path : Path) (scope : Scope) :
    List Scope → Option α
  | [] => scope.findBelow member path
  | around :: further =>
      (scope.findBelow member path).or (search member path (around.attach scope) further)

theorem resolveFrom_eq_search (path : Path) (seen : List String) (scope : Scope)
    (outer : List Scope) (hnodup : ((scope :: outer).map id).Nodup)
    (hseen : ∀ x ∈ (scope :: outer).map id, x ∉ seen) :
    resolveFrom member path seen scope outer = search member path scope outer := by
  induction outer generalizing scope seen with
  | nil =>
    have hnew : scope.id ∉ seen := hseen scope.id (by simp)
    unfold resolveFrom search
    rw [if_neg hnew]
    cases scope.findBelow member path <;> rfl
  | cons around further ih =>
    have hnew : scope.id ∉ seen := hseen scope.id (by simp)
    have hfurther : resolveFrom member path (scope.id :: seen) (around.attach scope) further =
        search member path (around.attach scope) further := by
      apply ih
      · exact (List.nodup_cons.mp hnodup).2
      · intro x hx hmem
        rcases List.mem_cons.mp hmem with rfl | hold
        · exact (List.nodup_cons.mp hnodup).1 hx
        · exact hseen x (List.mem_cons_of_mem _ hx) hold
    unfold resolveFrom search
    rw [if_neg hnew]
    cases scope.findBelow member path with
    | none => exact hfurther
    | some value => rfl

theorem resolve_eq_search (path : Path) {scope : Scope} {outer : List Scope}
    (hnodup : ((scope :: outer).map id).Nodup) :
    scope.resolve member outer path = search member path scope outer :=
  resolveFrom_eq_search path [] scope outer hnodup (by simp)

section Congruence

variable {scope scope' : Scope} (hid : scope'.id = scope.id)

include hid

theorem find?_placeChild_congr {β : Type} {g : Scope → β} (hg : g scope' = g scope)
    (children : List Scope) (x : String) :
    ((placeChild scope' children).find? (·.id = x)).map g =
      ((placeChild scope children).find? (·.id = x)).map g := by
  induction children with
  | nil =>
    by_cases hx : scope.id = x <;> simp [placeChild, hid, hx, hg]
  | cons first rest ih =>
    by_cases hfirst : first.id = scope.id
    · by_cases hx : scope.id = x <;> simp [placeChild, hid, hfirst, hx, hg]
    · by_cases hx : first.id = x
      · have hx' : ¬ x = scope.id := fun heq => hfirst (hx.trans heq)
        simp [placeChild, hid, hx, hx']
      · simp [placeChild, hid, hfirst, hx, ih]

variable (hname : scope'.name = scope.name)
  (h : ∀ path, scope'.findBelow member path = scope.findBelow member path)

include hname h

/-- Scopes that answer alike do so inside another scope as well. -/
theorem findBelow_attach_congr (around : Scope) (path : Path) :
    (around.attach scope').findBelow member path = (around.attach scope).findBelow member path := by
  match path with
  | [] => rfl
  | [name] => rfl
  | name :: next :: rest =>
    have hnames : (around.attach scope').names = (around.attach scope).names := by
      rw [names_attach, names_attach, hname, hid]
    simp only [findBelow]
    rw [hnames]
    cases (around.attach scope).names.get? name with
    | none => rfl
    | some x =>
      have hchild := find?_placeChild_congr hid (h (next :: rest)) around.children x
      change ((around.attach scope').child? x).map (findBelow member (next :: rest)) =
        ((around.attach scope).child? x).map (findBelow member (next :: rest)) at hchild
      simp only [Option.bind_some]
      cases hfirst : (around.attach scope').child? x with
      | none =>
        rw [hfirst] at hchild
        rw [Option.map_eq_none_iff.mp hchild.symm]
      | some child =>
        rw [hfirst] at hchild
        obtain ⟨other, hother, heq⟩ := Option.map_eq_some_iff.mp hchild.symm
        rw [hother]
        exact heq.symm

theorem search_congr (path : Path) (outer : List Scope) :
    search member path scope' outer = search member path scope outer := by
  induction outer generalizing scope scope' with
  | nil => exact h path
  | cons around further ih =>
    have haround := findBelow_attach_congr hid hname h around
    have hfurther : search member path (around.attach scope') further =
        search member path (around.attach scope) further := ih rfl rfl haround
    unfold search
    rw [h, hfurther]

end Congruence

theorem mem_of_resolveFrom {path : Path} {seen : List String} {scope : Scope}
    {outer : List Scope} {value : α}
    (h : resolveFrom member path seen scope outer = some value) :
    ∃ part, part ∈ (scope :: outer).flatMap all ∧ value ∈ (member part.contents).values := by
  induction outer generalizing scope seen with
  | nil =>
    unfold resolveFrom at h
    split at h
    · simp at h
    · split at h
      · rename_i found hfound
        obtain ⟨part, hpart, hvalue⟩ := mem_of_findBelow hfound
        obtain rfl := Option.some.inj h
        exact ⟨part, by simpa using hpart, hvalue⟩
      · simp at h
  | cons around further ih =>
    unfold resolveFrom at h
    split at h
    · simp at h
    · split at h
      · rename_i found hfound
        obtain ⟨part, hpart, hvalue⟩ := mem_of_findBelow hfound
        obtain rfl := Option.some.inj h
        exact ⟨part, List.mem_flatMap.mpr ⟨scope, by simp, hpart⟩, hvalue⟩
      · obtain ⟨part, hpart, hvalue⟩ := ih h
        obtain ⟨top, htop, hin⟩ := List.mem_flatMap.mp hpart
        rcases List.mem_cons.mp htop with rfl | hfurther
        · obtain ⟨origin, horigin, heq⟩ := contents_of_mem_attach hin
          rw [← heq] at hvalue
          rcases horigin with hchild | hparent
          · exact ⟨origin, List.mem_flatMap.mpr ⟨scope, by simp, hchild⟩, hvalue⟩
          · exact ⟨origin, List.mem_flatMap.mpr ⟨around, by simp, hparent⟩, hvalue⟩
        · exact ⟨part, List.mem_flatMap.mpr ⟨top, by simp [hfurther], hin⟩, hvalue⟩

/-- What a path stands for is a value in one of the scopes searched or in a scope in them. -/
theorem mem_of_resolve {path : Path} {scope : Scope} {outer : List Scope} {value : α}
    (h : scope.resolve member outer path = some value) :
    ∃ part, part ∈ (scope :: outer).flatMap all ∧ value ∈ (member part.contents).values :=
  mem_of_resolveFrom h

end RecipeGraph.Graph.Scope
