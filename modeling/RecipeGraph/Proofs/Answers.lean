import RecipeGraph.Proofs.Copies

/-!
Which scope answers. Where a path leads does not depend on what is asked for there; only whether
something is found does. So two members that know the same names in every scope are found together
or not at all, and it is the same scope that answers for both.
-/
namespace RecipeGraph.Graph.Scope

/-- What the scope and each scope in it hold by themselves. -/
def layers (scope : Scope) : List Contents :=
  scope.gather fun contents => [contents]

theorem mem_layers {contents : Contents} {scope : Scope} :
    contents ∈ scope.layers ↔ ∃ part ∈ scope.all, part.contents = contents := by
  simp [layers, mem_gather, eq_comm]

theorem self_mem_layers (scope : Scope) : scope.contents ∈ scope.layers :=
  mem_layers.mpr ⟨scope, self_mem_all scope, rfl⟩

/-- The scope that holds the end of a path, with the name that is asked of it. -/
def leadsTo : Path → Scope → Option (Scope × String)
  | [], _ => none
  | [name], scope => some (scope, name)
  | name :: next :: rest, scope =>
      ((scope.names.get? name).bind scope.child?).bind (leadsTo (next :: rest))

section Answers

variable {α β : Type} (member : Contents → OrderedMap α)

/-- What a scope holds under a name. -/
def held (place : Scope × String) : Option α :=
  (member place.1.contents).get? place.2

/-- Where a path leads, if something is held there. -/
def finds (path : Path) (scope : Scope) : Option (Scope × String) :=
  (leadsTo path scope).filter fun place => (held member place).isSome

/-- The scope in which `lookUp` finds the value of a path, with the name that it has there. -/
def answering (path : Path) : List String → List Scope → Option (Scope × String)
  | _, [] => none
  | seen, scope :: around =>
      if scope.id ∈ seen then none
      else
        match finds member path scope with
        | some place => some place
        | none => answering path (scope.id :: seen) around

theorem findBelow_eq_leadsTo (path : Path) (scope : Scope) :
    scope.findBelow member path = (leadsTo path scope).bind (held member) := by
  induction path generalizing scope with
  | nil => rfl
  | cons name rest ih =>
    cases rest with
    | nil => rfl
    | cons next rest =>
      simp only [findBelow, leadsTo]
      cases (scope.names.get? name).bind scope.child? with
      | none => rfl
      | some child => exact ih child

theorem findBelow_eq_finds (path : Path) (scope : Scope) :
    scope.findBelow member path = (finds member path scope).bind (held member) := by
  rw [findBelow_eq_leadsTo]
  unfold finds
  cases leadsTo path scope with
  | none => rfl
  | some place =>
    cases hheld : held member place with
    | none => simp [Option.filter_some, hheld]
    | some value => simp [Option.filter_some, hheld]

/-- What is looked up is what the answering scope holds. -/
theorem lookUp_eq_held (path : Path) (seen : List String) (scopes : List Scope) :
    lookUp member path seen scopes = (answering member path seen scopes).bind (held member) := by
  induction scopes generalizing seen with
  | nil => rfl
  | cons scope around ih =>
    unfold lookUp answering
    rw [findBelow_eq_finds]
    by_cases hseen : scope.id ∈ seen
    · rw [if_pos hseen, if_pos hseen]
      rfl
    · rw [if_neg hseen, if_neg hseen]
      cases hfinds : finds member path scope with
      | none => exact ih _
      | some place =>
        obtain ⟨value, hvalue⟩ :=
          Option.isSome_iff_exists.mp (Option.filter_eq_some_iff.mp hfinds).2
        rw [Option.bind_some, hvalue]

theorem resolve_eq_lookUp (path : Path) (scope : Scope) (outer : List Scope) :
    scope.resolve member outer path = lookUp member path [] (upwards scope outer) :=
  resolveFrom_eq_lookUp member path [] scope outer

variable {member} {path : Path} {scope : Scope} {place : Scope × String}

theorem contents_leadsTo (h : leadsTo path scope = some place) :
    place.1.contents ∈ scope.layers := by
  induction path generalizing scope with
  | nil => cases h
  | cons name rest ih =>
    cases rest with
    | nil =>
      cases h
      exact self_mem_layers scope
    | cons next rest =>
      obtain ⟨child, hchild, hbelow⟩ := Option.bind_eq_some_iff.mp h
      obtain ⟨id, -, hid⟩ := Option.bind_eq_some_iff.mp hchild
      exact mem_gather_iff.mpr (Or.inr ⟨child, (mem_of_child? hid).1, ih hbelow⟩)

theorem mem_gather_upwards {f : Contents → List α} {x : α} {outer : List Scope}
    (h : x ∈ (upwards scope outer).flatMap (gather f)) :
    x ∈ (scope :: outer).flatMap (gather f) := by
  induction outer generalizing scope with
  | nil => exact h
  | cons around further ih =>
    rw [upwards, List.flatMap_cons, List.mem_append] at h
    rw [List.flatMap_cons, List.flatMap_cons, List.mem_append, List.mem_append]
    rcases h with hself | hin
    · exact Or.inl hself
    · have hbefore := ih hin
      rw [List.flatMap_cons, List.mem_append] at hbefore
      rcases hbefore with hattached | hfurther
      · rcases mem_gather_attach hattached with haround | hscope
        · exact Or.inr (Or.inl haround)
        · exact Or.inl hscope
      · exact Or.inr (Or.inr hfurther)

/-- A scope answers with something that it holds. -/
theorem answering_some {seen : List String} {scopes : List Scope}
    (h : answering member path seen scopes = some place) :
    place.1.contents ∈ scopes.flatMap layers ∧ ∃ value, held member place = some value := by
  induction scopes generalizing seen with
  | nil => cases h
  | cons scope around ih =>
    unfold answering at h
    split at h
    · cases h
    · split at h
      · rename_i found hfound
        obtain ⟨hleads, hheld⟩ := Option.filter_eq_some_iff.mp hfound
        cases h
        exact ⟨List.mem_flatMap.mpr ⟨scope, List.mem_cons_self .., contents_leadsTo hleads⟩,
          Option.isSome_iff_exists.mp hheld⟩
      · obtain ⟨hin, hheld⟩ := ih h
        rw [List.flatMap_cons]
        exact ⟨List.mem_append_right _ hin, hheld⟩

theorem answering_congr {other : Contents → OrderedMap β} {scopes : List Scope}
    (h : ∀ contents ∈ scopes.flatMap layers, ∀ name,
      ((member contents).get? name).isSome = ((other contents).get? name).isSome)
    (seen : List String) :
    answering member path seen scopes = answering other path seen scopes := by
  induction scopes generalizing seen with
  | nil => rfl
  | cons scope around ih =>
    rw [List.flatMap_cons] at h
    have hfurther := ih fun contents hin => h contents (List.mem_append_right _ hin)
    have hfound : finds member path scope = finds other path scope := by
      unfold finds
      cases hleads : leadsTo path scope with
      | none => rfl
      | some place =>
        have hknown := h place.1.contents
          (List.mem_append_left _ (contents_leadsTo hleads)) place.2
        change (held member place).isSome = (held other place).isSome at hknown
        rw [Option.filter_some, Option.filter_some, hknown]
    unfold answering
    rw [hfound, hfurther]

end Answers

end RecipeGraph.Graph.Scope
