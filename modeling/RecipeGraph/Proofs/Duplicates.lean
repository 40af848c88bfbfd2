import RecipeGraph.Proofs.Depiction

/-!
What merging and copying make of members. Merging leaves the member that merges with a picture of
the merged scope. Copying leaves everyone that there was as they were, and makes members of its own,
which depict the copy and are tied to none but each other.
-/
namespace RecipeGraph.Graph.Hierarchy

variable {h acc : Hierarchy} {n k m p : Nat} {way : List Nat} {member given : Member} {id : String}
  {scope package : Scope}

section Edit

variable (f : Contents → Contents)

theorem get?_edit (h : Hierarchy) (n k : Nat) : (h.edit n f).get? k = (h.get? k).map fun other =>
    if n = k then { other with contents := f other.contents } else other :=
  get?_update ..

theorem sameShape_edit (hid : ∀ contents, (f contents).id = contents.id) :
    h.SameShape (h.edit n f) := by
  intro k
  rw [get?_edit, Option.map_map]
  congr 1
  funext other
  by_cases hk : n = k <;> simp [hk, Member.ties, Member.id, hid]

theorem holds_edit : (h.edit n f).Holds m id k ↔ h.Holds m id k := by
  unfold Holds
  rw [get?_edit]
  constructor
  · rintro ⟨after, hafter, hmem⟩
    obtain ⟨before, hbefore, rfl⟩ := Option.map_eq_some_iff.mp hafter
    refine ⟨before, hbefore, ?_⟩
    split at hmem <;> exact hmem
  · rintro ⟨before, hbefore, hmem⟩
    rw [hbefore, Option.map_some]
    refine ⟨_, rfl, ?_⟩
    split <;> exact hmem

theorem descends_edit : (h.edit n f).Descends m way k ↔ h.Descends m way k := by
  constructor
  · intro hway
    induction hway with
    | here => exact .here
    | down _ hholds ih => exact ih.down ((holds_edit f).mp hholds)
  · intro hway
    induction hway with
    | here => exact .here
    | down _ hholds ih => exact ih.down ((holds_edit f).mpr hholds)

theorem Depicts.edit_elsewhere (hscope : h.Depicts m scope) (hoff : ∀ way, ¬ h.Descends m way n) :
    (h.edit n f).Depicts m scope := by
  refine hscope.congr fun way k hway => ?_
  have hnk : n ≠ k := by
    rintro rfl
    exact hoff way hway
  rw [get?_edit, Option.map_map]
  simp [Function.comp_def, hnk]

theorem Depicts.edit (hscope : h.Depicts n scope) :
    (h.edit n f).Depicts n (scope.mapContents f) := by
  obtain ⟨member, hn, hcontents, hnames, hchildren⟩ := hscope.find
  have hself := get?_edit f h n n
  rw [hn, Option.map_some, if_pos rfl] at hself
  refine depicts_iff.mpr ⟨_, hself, ?_, ?_, ?_⟩
  · rw [Scope.contents_mapContents, hcontents]
  · rw [Scope.names_mapContents, hnames]
  · rw [Scope.children_mapContents]
    refine ((List.forall₂_and_left _ _).mpr ⟨fun k hk => ?_, hchildren⟩).imp
      fun k child hboth => hboth.2.edit_elsewhere f hboth.1
    intro way hway
    obtain ⟨id, hholds⟩ := holds_of_mem_values hn hk
    cases hscope.way_nil (hway.from_child hholds)

end Edit

section Merge

/-- The children of a member, before it is merged into another one. -/
theorem coming_merge (hlinked : h.Linked) (hgiven : h.get? p = some given) (hnp : n ≠ p)
    (hoff : ∀ way, ¬ h.Descends p way n) (hself : ∀ id, ¬ h.Holds p id p) :
    (h.edit n (·.merge given.contents)).Coming n (some p) given.children.values where
  parents k hk := by
    obtain ⟨id, hmem⟩ := OrderedMap.mem_values.mp hk
    obtain ⟨child, hchild, -, hparent⟩ := hlinked.held p id k ⟨given, hgiven, hmem⟩
    have hget := get?_edit (·.merge given.contents) h n k
    rw [hchild, Option.map_some] at hget
    refine ⟨_, hget, ?_⟩
    split <;> exact hparent
  nodup := (List.nodup_flatMap.mp hlinked.children_nodup).1 given (List.mem_of_getElem? hgiven)
  origin_ne := fun heq => hnp (Option.some.inj heq).symm
  apart k hk heq := by
    cases heq
    obtain ⟨id, hholds⟩ := holds_of_mem_values hgiven hk
    exact hself id hholds
  target k hk way hway := by
    obtain ⟨id, hholds⟩ := holds_of_mem_values hgiven hk
    exact hoff _ (((descends_edit _).mp hway).from_child hholds)

theorem merge_eq (hgiven : h.get? p = some given) (n : Nat) :
    h.merge n p = given.children.values.foldl (fun acc child => acc.attach n child)
      (h.edit n (·.merge given.contents)) := by
  unfold merge
  rw [hgiven]

/-- Merging with a member does what merging with the scope does. -/
theorem Depicts.merge (hlinked : h.Linked) (hscope : h.Depicts n scope)
    (hpackage : h.Depicts p package) (hoff : ∀ way, ¬ h.Descends p way n)
    (hoff' : ∀ way, ¬ h.Descends n way p) : (h.merge n p).Depicts n (scope.merge package) := by
  obtain ⟨given, hgiven, hcontents, -, hchildren⟩ := hpackage.find
  have hnp : n ≠ p := by
    rintro rfl
    exact hoff [] .here
  have hself : ∀ id, ¬ h.Holds p id p := by
    intro id hholds
    cases hpackage.way_nil (Descends.here.down hholds)
  have hcoming := coming_merge hlinked hgiven hnp hoff hself
  have hlinked' : (h.edit n (·.merge given.contents)).Linked :=
    (sameShape_edit _ fun contents => contents.id_merge given.contents).linked hlinked
  rw [merge_eq hgiven]
  unfold Scope.merge
  rw [hcontents]
  refine (hscope.edit (·.merge given.contents)).attachAll hlinked' hcoming ?_ ?_
  · refine ((List.forall₂_and_left _ _).mpr ⟨fun k hk => ?_, hchildren⟩).imp
      fun k child hboth => hboth.2.edit_elsewhere _ hboth.1
    intro way hway
    obtain ⟨id, hholds⟩ := holds_of_mem_values hgiven hk
    exact hoff _ (hway.from_child hholds)
  · rintro q hq
    cases hq
    refine ⟨fun way hway => hoff' way ((descends_edit _).mp hway), fun k hk way hway => ?_⟩
    obtain ⟨id, hholds⟩ := holds_of_mem_values hgiven hk
    cases hpackage.way_nil (((descends_edit _).mp hway).from_child hholds)

end Merge

section Copy

/-- Everyone stays as they were, and those that are new are tied to none but each other. -/
structure Grown (h acc : Hierarchy) : Prop where
  kept : ∀ k < h.members.length, acc.get? k = h.get? k
  size : h.members.length ≤ acc.members.length
  children : ∀ m id k, h.members.length ≤ m → acc.Holds m id k → h.members.length ≤ k
  parents : ∀ k member p, h.members.length ≤ k → acc.get? k = some member →
    member.parent = some p → h.members.length ≤ p

theorem not_holds_of_ge (hm : h.members.length ≤ m) : ¬ h.Holds m id k := by
  rintro ⟨member, hmember, -⟩
  exact absurd (lt_of_get? hmember) (Nat.not_lt_of_le hm)

theorem grown_refl (h : Hierarchy) : h.Grown h where
  kept _ _ := rfl
  size := Nat.le_refl _
  children _ _ _ hm hholds := absurd hholds (not_holds_of_ge hm)
  parents _ _ _ hk hmember := absurd (lt_of_get? hmember) (Nat.not_lt_of_le hk)

namespace Grown

variable (hgrown : h.Grown acc)

include hgrown

theorem trans {after : Hierarchy} (hafter : acc.Grown after) : h.Grown after where
  kept k hk := (hafter.kept k (Nat.lt_of_lt_of_le hk hgrown.size)).trans (hgrown.kept k hk)
  size := Nat.le_trans hgrown.size hafter.size
  children m id k hm hholds := by
    rcases Nat.lt_or_ge m acc.members.length with hlt | hge
    · obtain ⟨member, hmember, hmem⟩ := hholds
      rw [hafter.kept m hlt] at hmember
      exact hgrown.children m id k hm ⟨member, hmember, hmem⟩
    · exact Nat.le_trans hgrown.size (hafter.children m id k hge hholds)
  parents k member p hk hmember hparent := by
    rcases Nat.lt_or_ge k acc.members.length with hlt | hge
    · rw [hafter.kept k hlt] at hmember
      exact hgrown.parents k member p hk hmember hparent
    · exact Nat.le_trans hgrown.size (hafter.parents k member p hge hmember hparent)

/-- Who is new leads to none but those that are new. -/
theorem descends (hm : h.members.length ≤ m) (hway : acc.Descends m way k) :
    h.members.length ≤ k := by
  induction hway with
  | here => exact hm
  | down _ hholds ih => exact hgrown.children _ _ _ ih hholds

theorem attach (hp : h.members.length ≤ p) (hn : h.members.length ≤ n) :
    h.Grown (acc.attach p n) where
  kept k hk := by
    cases hget : acc.get? n with
    | none =>
      unfold Hierarchy.attach
      rw [hget]
      exact hgrown.kept k hk
    | some member =>
      have hfrom : member.parent ≠ some k := by
        intro hparent
        exact absurd (hgrown.parents n member k hn hget hparent) (by omega)
      obtain ⟨noted, hafter, hkept⟩ := get?_attach_aside hget (by omega : p ≠ k) hfrom
      have hoff : ∀ way, ¬ acc.Descends n way k := by
        intro way hway
        exact absurd (hgrown.descends hn hway) (by omega)
      have hnk : n ≠ k := by omega
      rw [hafter, ← hgrown.kept k hk]
      simp [hnk, hkept hoff]
  size := by
    rw [length_attach]
    exact hgrown.size
  children m id k hm hholds := by
    rcases holds_attach hholds with hold | ⟨-, rfl⟩
    · exact hgrown.children m id k hm hold
    · exact hn
  parents k member q hk hmember hparent := by
    cases hget : acc.get? n with
    | none =>
      unfold Hierarchy.attach at hmember
      rw [hget] at hmember
      exact hgrown.parents k member q hk hmember hparent
    | some self =>
      obtain ⟨noted, hafter, -⟩ := get?_attach hget p k
      rw [hafter] at hmember
      obtain ⟨before, hbefore, rfl⟩ := Option.map_eq_some_iff.mp hmember
      dsimp only at hparent
      split at hparent
      · cases hparent
        exact hp
      · exact hgrown.parents k before q hk hbefore hparent

end Grown

/-- There is nothing to refresh at the top: the member that is made is alone. -/
theorem add_none (h : Hierarchy) (contents : Contents) :
    h.add contents none = h.enlarged contents := by
  have hself := h.get?_enlarged contents h.members.length
  rw [if_pos rfl] at hself
  have hadd : h.add contents none = (h.enlarged contents).refresh h.members.length := rfl
  refine congrArg Hierarchy.mk (List.ext_getElem? fun k => ?_)
  change (h.add contents none).get? k = (h.enlarged contents).get? k
  rw [hadd, get?_refresh]
  by_cases hk : k = h.members.length
  · subst hk
    have hlineage : (h.enlarged contents).lineageOf h.members.length = [] := by
      unfold lineageOf
      rw [idsUp_of_get? List.not_mem_nil hself]
      rfl
    rw [hself, hlineage]
    simp
  · have hoff : k ∉ (h.enlarged contents).below h.members.length := by
      intro hmem
      obtain ⟨way, hway⟩ := descends_of_mem_below hmem
      refine hk (hway.of_childless ?_).2
      rintro id j ⟨member, hmember, hheld⟩
      rw [hself] at hmember
      cases hmember
      simp at hheld
    simp [hoff]

theorem get?_add_self (h : Hierarchy) (contents : Contents) :
    (h.add contents none).get? h.members.length = some { contents := contents } := by
  rw [add_none, get?_enlarged, if_pos rfl]

@[simp] theorem length_add_none (h : Hierarchy) (contents : Contents) :
    (h.add contents none).members.length = h.members.length + 1 := by
  unfold add
  simp

theorem grown_enlarged (h : Hierarchy) (contents : Contents) : h.Grown (h.enlarged contents) where
  kept k hk := by
    rw [get?_enlarged, if_neg (Nat.ne_of_lt hk)]
  size := by simp [enlarged]
  children m id k hm hholds := by
    obtain ⟨member, hmember, hmem⟩ := hholds
    rw [get?_enlarged] at hmember
    split at hmember
    · cases hmember
      simp at hmem
    · exact absurd (lt_of_get? hmember) (Nat.not_lt_of_le hm)
  parents k member p hk hmember hparent := by
    rw [get?_enlarged] at hmember
    split at hmember
    · cases hmember
      cases hparent
    · exact absurd (lt_of_get? hmember) (Nat.not_lt_of_le hk)

theorem grown_add (h : Hierarchy) (contents : Contents) : h.Grown (h.add contents none) := by
  rw [add_none]
  exact grown_enlarged h contents

theorem grown_copyWithin (fuel : Nat) (h : Hierarchy) (n : Nat) :
    h.Grown (copyWithin fuel h n) := by
  induction fuel generalizing h n with
  | zero => exact grown_refl h
  | succ fuel ih =>
    unfold Hierarchy.copyWithin
    cases h.get? n with
    | none => exact grown_refl h
    | some member =>
      have hmade := grown_add h member.contents
      dsimp only
      generalize h.add member.contents none = made at hmade ⊢
      induction member.children.values generalizing made with
      | nil => exact hmade
      | cons child rest ihRest =>
        exact ihRest _ ((hmade.trans (ih made child)).attach (Nat.le_refl _) hmade.size)

theorem grown_copy (h : Hierarchy) (n : Nat) : h.Grown (h.copy n) :=
  grown_copyWithin _ h n

theorem Depicts.grown (hscope : h.Depicts n scope) (hgrown : h.Grown acc) :
    acc.Depicts n scope := by
  refine hscope.congr fun way k hway => ?_
  obtain ⟨part, hpart, -⟩ := hscope.within hway
  obtain ⟨member, hk, -⟩ := hpart.find
  rw [hgrown.kept k (lt_of_get? hk)]

/-- A copy depicts the copy, and nobody holds it. -/
structure TopDepicts (h : Hierarchy) (n : Nat) (scope : Scope) : Prop where
  depicts : h.Depicts n scope
  top : h.IsTop n

/-- A child that nobody held. -/
theorem Depicts.attach_top (hlinked : h.Linked) (hscope : h.Depicts n scope)
    (hchild : h.TopDepicts k package) (hoff : ∀ way, ¬ h.Descends k way n) :
    (h.attach n k).Depicts n (scope.attach package) := by
  obtain ⟨child, hget, hnone⟩ := hchild.top
  have hcoming : h.Coming n none [k] := {
    parents := by
      simpa using ⟨child, hget, hnone⟩
    nodup := List.nodup_singleton _
    origin_ne := by simp
    apart := by simp
    target := by
      intro j hj
      obtain rfl := List.mem_singleton.mp hj
      exact hoff }
  exact hscope.attachAll hlinked hcoming (.cons hchild.depicts .nil) (by simp)

/-- One more child for the copy, once it has been copied. -/
theorem TopDepicts.attach (hlinked : acc.Linked) (hfirst : h.TopDepicts n scope) (hgrown : h.Grown acc)
    (hchild : acc.TopDepicts h.members.length package) :
    (acc.attach n h.members.length).TopDepicts n (scope.attach package) := by
  obtain ⟨child, hget, hnone⟩ := hchild.top
  obtain ⟨self, hself, hparent⟩ := hfirst.top
  have hlt := lt_of_get? hself
  constructor
  · refine (hfirst.depicts.grown hgrown).attach_top hlinked hchild fun way hway => ?_
    exact absurd (hgrown.descends (Nat.le_refl _) hway) (Nat.not_le_of_lt hlt)
  · obtain ⟨noted, hafter, -⟩ := get?_attach hget n n
    rw [hgrown.kept n hlt, hself] at hafter
    refine ⟨_, hafter, ?_⟩
    simpa [Nat.ne_of_gt hlt] using hparent

/-- Copying a member makes members that depict the copy of its scope. -/
theorem topDepicts_copyWithin {fuel : Nat} (hforest : acc.Forest) (hgrown : h.Grown acc)
    (hscope : h.Depicts n scope) (hshort : ∀ way k, h.Descends n way k → way.length < fuel) :
    (copyWithin fuel acc n).TopDepicts acc.members.length scope.copy := by
  induction fuel generalizing acc n scope with
  | zero => exact absurd (hshort [] n .here) (Nat.lt_irrefl 0)
  | succ fuel ih =>
    obtain ⟨member, hn, hcontents, -, hchildren⟩ := hscope.find
    have hself := hgrown.kept n (lt_of_get? hn)
    rw [hn] at hself
    have hmade : (acc.add member.contents none).TopDepicts acc.members.length
        (Scope.ofContents member.contents) :=
      have hget := get?_add_self acc member.contents
      ⟨.intro hget .nil, _, hget, rfl⟩
    have hheld : ∀ k ∈ member.children.values, ∃ id, h.Holds n id k :=
      fun k hk => holds_of_mem_values hn hk
    unfold Hierarchy.copyWithin
    rw [hself, Scope.copy_eq, hcontents]
    have hforest' := hforest.add member.contents none
    have hgrown' := grown_add acc member.contents
    dsimp only
    generalize acc.add member.contents none = cur at hmade hforest' hgrown' ⊢
    generalize Scope.ofContents member.contents = made at hmade ⊢
    generalize member.children.values = ks, scope.children = children at hchildren hheld ⊢
    induction hchildren generalizing cur made with
    | nil => exact hmade
    | @cons k child ks children hfirst _ ihRest =>
      obtain ⟨⟨id, hholds⟩, hrest⟩ := List.forall_mem_cons.mp hheld
      have hcopied := ih hforest' (hgrown.trans hgrown') hfirst fun way m hway => by
        have hlonger := hshort _ m (hway.from_child hholds)
        simpa using hlonger
      have hnext := grown_copyWithin fuel cur k
      exact ihRest _ ((hforest'.copyWithin fuel k).attach _ _)
        ((hgrown'.trans hnext).attach (Nat.le_refl _) hgrown'.size) _
        (hmade.attach (hforest'.copyWithin fuel k).linked hnext hcopied) hrest

theorem Depicts.circleFree (hscope : h.Depicts n scope) : h.CircleFree n := by
  intro way k hway way' hway'
  obtain ⟨part, hpart, -⟩ := hscope.within hway
  exact hpart.way_nil hway'

/-- What leads into no circle is copied to the end. -/
theorem topDepicts_copy (hforest : h.Forest) (hscope : h.Depicts n scope) :
    (h.copy n).TopDepicts h.members.length scope.copy := by
  obtain ⟨member, hn, -⟩ := hscope.find
  exact topDepicts_copyWithin hforest (grown_refl h) hscope fun way k hway =>
    Nat.lt_succ_of_lt (hscope.circleFree.length_lt hforest.linked (lt_of_get? hn) hway)

end Copy

end RecipeGraph.Graph.Hierarchy
