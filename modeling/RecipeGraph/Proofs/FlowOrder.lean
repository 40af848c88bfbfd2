import RecipeGraph.Proofs.Sessions

/-!
What is compiled has no cycle. An edge leads into an element that still waits, and what still
waits has never been used as a source. So every edge out of an element is made after all edges
into it, and the ids of the edges grow along every way through the graph. Packages do not change
this, since all their copies have the edges of the one that was compiled.
-/
namespace RecipeGraph.Compile

open RecipeGraph.Graph Recipe Package

variable {idOf : Nat → String}

/-- Edges made in an order such that nothing flows into an element once it was used. What is
held may be used further; what is aloof was not used yet. -/
structure Ordered (idOf : Nat → String) (issued : Nat) (flows : List Edge)
    (held aloof : List String) : Prop where
  edges : ∀ edge ∈ flows, Numbered idOf issued edge.id
  used : ∀ id ∈ held ++ flows.map Edge.source, Numbered idOf issued id
  unused : ∀ id ∈ aloof, Numbered idOf issued id
  nodup : aloof.Nodup
  apart : ∀ id ∈ held ++ flows.map Edge.source, id ∉ aloof
  grows : ∀ edge ∈ flows, ∀ later ∈ flows, edge.target = later.source →
    ∀ m n, edge.id = idOf m → later.id = idOf n → m < n

namespace Ordered

variable {issued : Nat} {flows : List Edge} {held aloof : List String}

theorem used_subset {flows' : List Edge} {held' : List String} (hflows : flows' ⊆ flows)
    (hheld : held' ⊆ held) : held' ++ flows'.map Edge.source ⊆ held ++ flows.map Edge.source := by
  intro id hid
  rcases List.mem_append.mp hid with hmem | hmem
  · exact List.mem_append_left _ (hheld hmem)
  · exact List.mem_append_right _ (List.map_subset _ hflows hmem)

/-- Edges may vanish, and what is aloof may change its place. -/
theorem weaken (h : Ordered idOf issued flows held aloof) {flows' : List Edge}
    {held' aloof' : List String} (hflows : flows' ⊆ flows) (hheld : held' ⊆ held)
    (haloof : aloof'.Perm aloof) : Ordered idOf issued flows' held' aloof' where
  edges edge hedge := h.edges edge (hflows hedge)
  used id hid := h.used id (used_subset hflows hheld hid)
  unused id hid := h.unused id (haloof.subset hid)
  nodup := haloof.nodup_iff.mpr h.nodup
  apart id hid hmem := h.apart id (used_subset hflows hheld hid) (haloof.subset hmem)
  grows edge hedge later hlater := h.grows edge (hflows hedge) later (hflows hlater)

/-- What is aloof may be given up. -/
theorem abandon (h : Ordered idOf issued flows held aloof) {kept : List String}
    (hkept : kept.Sublist aloof) : Ordered idOf issued flows held kept where
  edges := h.edges
  used := h.used
  unused id hid := h.unused id (hkept.subset hid)
  nodup := h.nodup.sublist hkept
  apart id hid hmem := h.apart id hid (hkept.subset hmem)
  grows := h.grows

/-- A new element waits for what flows into it. -/
theorem wait (hinj : Function.Injective idOf) (h : Ordered idOf issued flows held aloof) :
    Ordered idOf (issued + 1) flows held (idOf issued :: aloof) where
  edges edge hedge := (h.edges edge hedge).mono (by omega)
  used id hid := (h.used id hid).mono (by omega)
  unused := by
    intro id hid
    rcases List.mem_cons.mp hid with rfl | hold
    · exact numbered_next idOf issued
    · exact (h.unused id hold).mono (by omega)
  nodup := by
    refine List.nodup_cons.mpr ⟨?_, h.nodup⟩
    intro hmem
    exact (h.unused _ hmem).ne_next hinj rfl
  apart := by
    intro id hid hmem
    rcases List.mem_cons.mp hmem with rfl | hold
    · exact (h.used _ hid).ne_next hinj rfl
    · exact h.apart id hid hold
  grows := h.grows

/-- A new element into which nothing flows at first. -/
theorem give (hinj : Function.Injective idOf) (h : Ordered idOf issued flows held aloof) :
    Ordered idOf (issued + 1) flows (idOf issued :: held) aloof where
  edges edge hedge := (h.edges edge hedge).mono (by omega)
  used := by
    intro id hid
    rcases List.mem_cons.mp hid with rfl | hold
    · exact numbered_next idOf issued
    · exact (h.used id hold).mono (by omega)
  unused id hid := (h.unused id hid).mono (by omega)
  nodup := h.nodup
  apart := by
    intro id hid hmem
    rcases List.mem_cons.mp hid with rfl | hold
    · exact (h.unused _ hmem).ne_next hinj rfl
    · exact h.apart id hold hmem
  grows := h.grows

/-- An element that has all its inflows may be used from then on. -/
theorem settle {id : String} (h : Ordered idOf issued flows held (id :: aloof)) :
    Ordered idOf issued flows (id :: held) aloof where
  edges := h.edges
  used := by
    intro x hx
    rcases List.mem_cons.mp hx with rfl | hold
    · exact h.unused x (List.mem_cons_self ..)
    · exact h.used x hold
  unused x hx := h.unused x (List.mem_cons_of_mem _ hx)
  nodup := (List.nodup_cons.mp h.nodup).2
  apart := by
    intro x hx hmem
    rcases List.mem_cons.mp hx with rfl | hold
    · exact (List.nodup_cons.mp h.nodup).1 hmem
    · exact h.apart x hold (List.mem_cons_of_mem _ hmem)
  grows := h.grows

/-- The new edge is later than all others, and nothing flows out of its target. -/
theorem flow (hinj : Function.Injective idOf) (h : Ordered idOf issued flows held aloof)
    (name : String) (look : Look) {source target : String} (hsource : source ∈ held)
    (htarget : target ∈ aloof) :
    Ordered idOf (issued + 1) (⟨idOf issued, name, source, target, look⟩ :: flows) held aloof := by
  have hsources : ∀ id ∈ held ++ source :: flows.map Edge.source,
      id ∈ held ++ flows.map Edge.source := by
    intro id hid
    rcases List.mem_append.mp hid with hmem | hmem
    · exact List.mem_append_left _ hmem
    · rcases List.mem_cons.mp hmem with rfl | hold
      · exact List.mem_append_left _ hsource
      · exact List.mem_append_right _ hold
  constructor
  case edges =>
    intro edge hedge
    rcases List.mem_cons.mp hedge with rfl | hold
    · exact numbered_next idOf issued
    · exact (h.edges edge hold).mono (by omega)
  case used =>
    intro id hid
    exact (h.used id (hsources id hid)).mono (by omega)
  case unused =>
    intro id hid
    exact (h.unused id hid).mono (by omega)
  case nodup => exact h.nodup
  case apart =>
    intro id hid
    exact h.apart id (hsources id hid)
  case grows =>
    intro edge hedge later hlater hjoin m n hm hn
    rcases List.mem_cons.mp hedge with rfl | hold
    · -- nothing flows out of the target, not even by the new edge itself
      have hused : later.source ∈ held ++ flows.map Edge.source :=
        hsources _ (List.mem_append_right _ (List.mem_map_of_mem hlater))
      exact absurd (hjoin ▸ htarget) (h.apart _ hused)
    · rcases List.mem_cons.mp hlater with rfl | hrest
      · obtain ⟨k, hk, hid⟩ := h.edges edge hold
        have hmk : m = k := hinj (hm.symm.trans hid)
        have hni : issued = n := hinj hn
        omega
      · exact h.grows edge hold later hrest hjoin m n hm hn

end Ordered

namespace Stage

/-- All of one kind that the scopes of a stage hold. -/
def collect {α : Type} (f : Contents → List α) (stage : Stage) : List α :=
  stage.roots.flatMap (Scope.gather f)

/-- What is ready, and what a variable stands for. -/
def held (stage : Stage) : List String :=
  stage.ready ++ stage.collect (·.variableIds.values)

/-- What waits for its inflows. A scope that lies in no other one is not an element yet. -/
def aloof (stage : Stage) : List String :=
  (stage.frame :: stage.others).flatMap Frame.waiting ++ stage.roots.map Scope.id

/-- The edges of a stage are in order. -/
def Ordered (idOf : Nat → String) (stage : Stage) : Prop :=
  Compile.Ordered idOf stage.issued (stage.collect (·.edges.values)) stage.held stage.aloof

section Collect

variable {α : Type} {f : Contents → List α} {x : α} {stage next : Stage}

theorem mem_roots {root : Scope} : root ∈ stage.roots ↔
    root = stage.frame.scope ∨ root ∈ stage.others.map Frame.scope ∨ root ∈ stage.shelf := by
  unfold roots
  rw [List.mem_append, List.mem_cons, or_assoc]

theorem mem_collect : x ∈ stage.collect f ↔ ∃ root ∈ stage.roots, x ∈ root.gather f :=
  List.mem_flatMap

theorem collect_of_root {root : Scope} (hroot : root ∈ stage.roots) (hx : x ∈ root.gather f) :
    x ∈ stage.collect f :=
  mem_collect.mpr ⟨root, hroot, hx⟩

/-- What holds of the new innermost scope holds of the stage, if nothing else is new. -/
theorem collect_of_frame (stage : Stage) (h : x ∈ next.collect f)
    (hothers : next.others = stage.others) (hshelf : next.shelf = stage.shelf) :
    x ∈ next.frame.scope.gather f ∨ x ∈ stage.collect f := by
  obtain ⟨root, hroot, hx⟩ := mem_collect.mp h
  rcases mem_roots.mp hroot with rfl | hold
  · exact Or.inl hx
  · rw [hothers, hshelf] at hold
    exact Or.inr (collect_of_root (mem_roots.mpr (Or.inr hold)) hx)

theorem collect_edit {g : Contents → Contents} (h : x ∈ (stage.edit g).collect f) :
    x ∈ f (g stage.frame.scope.contents) ∨ x ∈ stage.collect f := by
  rcases collect_of_frame stage h rfl rfl with hframe | hold
  · rcases Scope.mem_gather_mapContents hframe with hnew | hown
    · exact Or.inl hnew
    · exact Or.inr (collect_of_root (mem_roots.mpr (Or.inl rfl)) hown)
  · exact Or.inr hold

theorem collect_edit_same {g : Contents → Contents} (hg : ∀ contents, f (g contents) = f contents) :
    (stage.edit g).collect f ⊆ stage.collect f := by
  intro x hx
  rcases collect_edit hx with hnew | hold
  · rw [hg] at hnew
    exact collect_of_root (mem_roots.mpr (Or.inl rfl)) (Scope.mem_gather_iff.mpr (Or.inl hnew))
  · exact hold

/-- Beside a new scope there is what was there before. -/
theorem collect_opened (stage : Stage) (h : x ∈ next.collect f) {contents : Contents}
    (hscope : next.frame.scope = .ofContents contents)
    (hothers : next.others = stage.frame :: stage.others) (hshelf : next.shelf = stage.shelf) :
    x ∈ f contents ∨ x ∈ stage.collect f := by
  obtain ⟨root, hroot, hin⟩ := mem_collect.mp h
  rcases mem_roots.mp hroot with rfl | hother | hmem
  · rw [hscope] at hin
    rcases Scope.mem_gather_iff.mp hin with hself | ⟨child, hchild, -⟩
    · exact Or.inl hself
    · cases hchild
  · rw [hothers] at hother
    rcases List.mem_cons.mp hother with rfl | hfurther
    · exact Or.inr (collect_of_root (mem_roots.mpr (Or.inl rfl)) hin)
    · exact Or.inr (collect_of_root (mem_roots.mpr (Or.inr (Or.inl hfurther))) hin)
  · rw [hshelf] at hmem
    exact Or.inr (collect_of_root (mem_roots.mpr (Or.inr (Or.inr hmem))) hin)

/-- A new scope holds nothing yet. -/
theorem collect_open {contents : Contents} (hscope : next.frame.scope = .ofContents contents)
    (hothers : next.others = stage.frame :: stage.others) (hshelf : next.shelf = stage.shelf)
    (hempty : f contents = []) : next.collect f ⊆ stage.collect f := by
  intro x hx
  refine (collect_opened stage hx hscope hothers hshelf).resolve_left ?_
  rw [hempty]
  exact List.not_mem_nil

theorem collect_leave {around : Frame}
    (hscope : next.frame.scope = around.scope.attach stage.frame.scope)
    (hothers : stage.others = around :: next.others) (hshelf : next.shelf = stage.shelf) :
    next.collect f ⊆ stage.collect f := by
  have haround : around.scope ∈ stage.roots := by
    refine mem_roots.mpr (Or.inr (Or.inl ?_))
    rw [hothers]
    exact List.mem_cons_self ..
  intro x hx
  obtain ⟨root, hroot, hin⟩ := mem_collect.mp hx
  rcases mem_roots.mp hroot with rfl | hother | hmem
  · rw [hscope] at hin
    rcases Scope.mem_gather_attach hin with hparent | hchild
    · exact collect_of_root haround hparent
    · exact collect_of_root (mem_roots.mpr (Or.inl rfl)) hchild
  · refine collect_of_root (mem_roots.mpr (Or.inr (Or.inl ?_))) hin
    rw [hothers]
    exact List.mem_cons_of_mem _ hother
  · rw [hshelf] at hmem
    exact collect_of_root (mem_roots.mpr (Or.inr (Or.inr hmem))) hin

theorem collect_resume (hothers : stage.others = next.frame :: next.others)
    (hshelf : next.shelf = stage.frame.scope :: stage.shelf) :
    next.collect f ⊆ stage.collect f := by
  intro x hx
  obtain ⟨root, hroot, hin⟩ := mem_collect.mp hx
  refine collect_of_root (mem_roots.mpr ?_) hin
  rw [hothers]
  rcases mem_roots.mp hroot with rfl | hother | hmem
  · exact Or.inr (Or.inl (List.mem_cons_self ..))
  · exact Or.inr (Or.inl (List.mem_cons_of_mem _ hother))
  · rw [hshelf] at hmem
    rcases List.mem_cons.mp hmem with rfl | hold
    · exact Or.inl rfl
    · exact Or.inr (Or.inr hold)

/-- The copy of a package holds what the package holds, but for what it is called. -/
theorem collect_relabeled {package : Scope} (hpackage : package ∈ stage.shelf) {id name : String}
    (h : x ∈ (stage.withScope
      (stage.frame.scope.attach (relabel package id name))).collect f) :
    x ∈ f { package.contents with id := id, name := name } ∨ x ∈ stage.collect f := by
  have hbrought : ∀ y ∈ package.copy.gather f, y ∈ stage.collect f := fun y hy =>
    collect_of_root (mem_roots.mpr (Or.inr (Or.inr hpackage))) (Scope.mem_gather_copy hy)
  rcases collect_of_frame stage h rfl rfl with hframe | hold
  · rcases Scope.mem_gather_attach hframe with hparent | hchild
    · exact Or.inr (collect_of_root (mem_roots.mpr (Or.inl rfl)) hparent)
    · rcases Scope.mem_gather_mapContents hchild with hself | hin
      · rw [Scope.contents_copy] at hself
        exact Or.inl hself
      · exact Or.inr (hbrought x hin)
  · exact Or.inr hold

theorem collect_adopt {package : Scope} (hpackage : package ∈ stage.shelf) {id name : String}
    (hf : ∀ contents, f { contents with id := id, name := name } = f contents) :
    (stage.withScope (stage.frame.scope.attach (relabel package id name))).collect f ⊆
      stage.collect f := by
  intro x hx
  rcases collect_relabeled hpackage hx with hself | hold
  · rw [hf] at hself
    exact collect_of_root (mem_roots.mpr (Or.inr (Or.inr hpackage)))
      (Scope.mem_gather_iff.mpr (Or.inl hself))
  · exact hold

theorem collect_absorb {package : Scope} (hpackage : package ∈ stage.shelf)
    (hf : ∀ contents other x, x ∈ f (Contents.merge contents other) →
      x ∈ f other ∨ x ∈ f contents) :
    (stage.withScope (stage.frame.scope.merge package.copy)).collect f ⊆ stage.collect f := by
  have htaken : ∀ x ∈ package.copy.gather f, x ∈ stage.collect f := by
    intro x hx
    exact collect_of_root (mem_roots.mpr (Or.inr (Or.inr hpackage))) (Scope.mem_gather_copy hx)
  have hown : ∀ x ∈ stage.frame.scope.gather f, x ∈ stage.collect f := by
    intro x hx
    exact collect_of_root (mem_roots.mpr (Or.inl rfl)) hx
  intro x hx
  rcases collect_of_frame stage hx rfl rfl with hframe | hold
  · rcases Scope.mem_gather_merge hframe with hself | hin | hin
    · rcases hf _ _ x hself with hother | hcontents
      · exact htaken x (Scope.mem_gather_iff.mpr (Or.inl hother))
      · exact hown x (Scope.mem_gather_iff.mpr (Or.inl hcontents))
    · exact hown x hin
    · exact htaken x hin
  · exact hold

end Collect

section Aloof

variable {stage next : Stage}

theorem aloof_eq (stage : Stage) : stage.aloof =
    (stage.frame.waiting ++ stage.others.flatMap Frame.waiting) ++
      (stage.frame.scope.id :: (stage.others.map fun frame => frame.scope.id) ++
        stage.shelf.map Scope.id) := by
  unfold aloof roots
  rw [List.flatMap_cons, List.map_append, List.map_cons, List.map_map]
  rfl

theorem aloof_same (hwaiting : next.frame.waiting = stage.frame.waiting)
    (hid : next.frame.scope.id = stage.frame.scope.id) (hothers : next.others = stage.others)
    (hshelf : next.shelf = stage.shelf) : next.aloof = stage.aloof := by
  rw [aloof_eq, aloof_eq, hwaiting, hid, hothers, hshelf]

theorem aloof_edit {g : Contents → Contents} (hg : ∀ contents, (g contents).id = contents.id) :
    (stage.edit g).aloof = stage.aloof := by
  refine aloof_same rfl ?_ rfl rfl
  change (stage.frame.scope.mapContents g).contents.id = _
  rw [Scope.contents_mapContents, hg]
  rfl

theorem aloof_open (hwaiting : next.frame.waiting = [])
    (hothers : next.others = stage.frame :: stage.others) (hshelf : next.shelf = stage.shelf) :
    next.aloof.Perm (next.frame.scope.id :: stage.aloof) := by
  rw [aloof_eq, aloof_eq, hwaiting, hothers, hshelf]
  exact List.perm_middle

theorem aloof_leave {around : Frame}
    (hwaiting : stage.frame.waiting = []) (hothers : stage.others = around :: next.others)
    (hframe : next.frame =
      ⟨around.scope.attach stage.frame.scope, stage.frame.scope.id :: around.waiting⟩)
    (hshelf : next.shelf = stage.shelf) : next.aloof.Perm stage.aloof := by
  rw [aloof_eq, aloof_eq, hframe, hothers, hshelf, hwaiting]
  exact List.perm_middle.symm

theorem aloof_resume (hwaiting : stage.frame.waiting = [])
    (hothers : stage.others = next.frame :: next.others)
    (hshelf : next.shelf = stage.frame.scope :: stage.shelf) : next.aloof.Perm stage.aloof := by
  rw [aloof_eq, aloof_eq, hothers, hshelf, hwaiting]
  refine List.Perm.append_left _ ?_
  rw [List.map_cons]
  exact List.perm_middle

end Aloof

section Step

variable {stage next : Stage}

theorem ready_subset_held (stage : Stage) : stage.ready ⊆ stage.held :=
  List.subset_append_left _ _

theorem held_subset (hready : next.ready ⊆ stage.held)
    (hbound : next.collect (·.variableIds.values) ⊆ stage.collect (·.variableIds.values)) :
    next.held ⊆ stage.held :=
  List.append_subset.mpr ⟨hready, fun _ hx => List.mem_append_right _ (hbound hx)⟩

/-- What a path stands for is held. -/
theorem held_of_resolve {path : Path} {id : String}
    (h : stage.frame.scope.resolve Contents.variableIds stage.outerScopes path = some id) :
    id ∈ stage.held := by
  obtain ⟨part, hpart, hvalue⟩ := Scope.mem_of_resolve h
  obtain ⟨top, htop, hin⟩ := List.mem_flatMap.mp hpart
  refine List.mem_append_right _ (collect_of_root ?_ (Scope.mem_gather.mpr ⟨part, hin, hvalue⟩))
  rcases List.mem_cons.mp htop with rfl | houter
  · exact mem_roots.mpr (Or.inl rfl)
  · refine mem_roots.mpr (Or.inr (Or.inl ?_))
    unfold others
    rw [List.map_append]
    exact List.mem_append_left _ houter

/-- No new edge and no new element: only what is there is arranged anew. -/
theorem Ordered.rearrange (h : stage.Ordered idOf) (hissued : next.issued = stage.issued)
    (hready : next.ready ⊆ stage.held)
    (hcollect : ∀ f : Contents → List Edge, f = (·.edges.values) →
      next.collect f ⊆ stage.collect f)
    (hbound : next.collect (·.variableIds.values) ⊆ stage.collect (·.variableIds.values))
    (haloof : next.aloof.Perm stage.aloof) : next.Ordered idOf := by
  unfold Stage.Ordered
  rw [hissued]
  exact h.weaken (hcollect _ rfl) (held_subset hready hbound) haloof

/-- One move keeps the edges in order. -/
theorem Ordered.step (hinj : Function.Injective idOf) (h : stage.Ordered idOf)
    (hmove : Move idOf stage next) : next.Ordered idOf := by
  cases hmove with
  | vertex name look =>
    have hkept : (stage.issue.edit (·.addVertex ⟨idOf stage.issued, name, look⟩)).aloof =
        stage.aloof := aloof_edit fun _ => rfl
    refine (Compile.Ordered.wait hinj h).weaken (collect_edit_same fun _ => rfl) ?_
      (List.Perm.of_eq (congrArg (idOf stage.issued :: ·) hkept))
    exact held_subset (ready_subset_held stage) (collect_edit_same fun _ => rfl)
  | edge name look hsource htarget =>
    have haloof : _ ∈ stage.aloof := List.mem_append_left _ (List.mem_append_left _ htarget)
    refine (Compile.Ordered.flow hinj h name look (ready_subset_held stage hsource) haloof).weaken
      ?_ ?_ (List.Perm.of_eq (aloof_edit fun _ => rfl))
    · intro edge hedge
      rcases collect_edit hedge with hnew | hold
      · rcases OrderedMap.mem_values_insert hnew with heq | hown
        · exact heq ▸ List.mem_cons_self ..
        · exact List.mem_cons_of_mem _ (collect_of_root (mem_roots.mpr (Or.inl rfl))
            (Scope.mem_gather_iff.mpr (Or.inl hown)))
      · exact List.mem_cons_of_mem _ hold
    · exact held_subset (ready_subset_held stage) (collect_edit_same fun _ => rfl)
  | @settle id rest hwaiting =>
    have hcons : stage.aloof = id :: ((rest ++ stage.others.flatMap Frame.waiting) ++
        stage.roots.map Scope.id) := by
      unfold aloof
      rw [List.flatMap_cons, hwaiting]
      rfl
    unfold Stage.Ordered at h
    rw [hcons] at h
    exact h.settle
  | refer hresolve =>
    refine Ordered.rearrange h rfl ?_ (fun _ _ => List.Subset.refl _) (List.Subset.refl _)
      (List.Perm.refl _)
    exact List.cons_subset.mpr ⟨held_of_resolve hresolve, ready_subset_held stage⟩
  | drop hkept =>
    exact Ordered.rearrange h rfl (fun _ hx => ready_subset_held stage (hkept hx))
      (fun _ _ => List.Subset.refl _) (List.Subset.refl _) (List.Perm.refl _)
  | bind hid name look =>
    refine Compile.Ordered.weaken h (collect_edit_same fun _ => rfl) ?_
      (List.Perm.of_eq (aloof_edit fun _ => rfl))
    refine List.append_subset.mpr ⟨ready_subset_held stage, ?_⟩
    intro x hx
    rcases collect_edit hx with hnew | hold
    · rcases OrderedMap.mem_values_insert hnew with rfl | hown
      · exact ready_subset_held stage hid
      · exact List.mem_append_right _ (collect_of_root (mem_roots.mpr (Or.inl rfl))
            (Scope.mem_gather_iff.mpr (Or.inl hown)))
    · exact List.mem_append_right _ hold
  | adorn adornment =>
    refine Ordered.rearrange h rfl (ready_subset_held stage) ?_ ?_
      (List.Perm.of_eq (aloof_edit adornment.id_apply))
    · rintro f rfl
      refine collect_edit_same fun contents => ?_
      rw [adornment.edges_apply]
    · refine collect_edit_same fun contents => ?_
      rw [adornment.variableIds_apply]
  | enter name look =>
    unfold Stage.Ordered
    refine (Compile.Ordered.wait hinj h).weaken (collect_open rfl rfl rfl rfl) ?_
      (aloof_open rfl rfl rfl)
    exact held_subset (List.nil_subset _) (collect_open rfl rfl rfl rfl)
  | leave hwaiting houter =>
    have hothers := others_of_outer houter
    refine Ordered.rearrange h rfl (List.nil_subset _) ?_ ?_ (aloof_leave hwaiting hothers rfl rfl)
    · rintro f rfl
      exact collect_leave rfl hothers rfl
    · exact collect_leave rfl hothers rfl
  | suspend =>
    unfold Stage.Ordered
    refine (Compile.Ordered.wait hinj h).weaken (collect_open rfl rfl rfl rfl) ?_
      (aloof_open rfl rfl rfl)
    exact held_subset (List.nil_subset _) (collect_open rfl rfl rfl rfl)
  | resume hwaiting houter hcallers =>
    have hothers := others_of_callers houter hcallers
    refine Ordered.rearrange h rfl (List.nil_subset _) ?_ ?_ (aloof_resume hwaiting hothers rfl)
    · rintro f rfl
      exact collect_resume hothers rfl
    · exact collect_resume hothers rfl
  | adopt hpackage name =>
    refine (Compile.Ordered.give hinj h).weaken (collect_adopt hpackage fun _ => rfl) ?_
      (List.Perm.of_eq (aloof_same rfl rfl rfl rfl))
    refine List.append_subset.mpr ⟨?_, ?_⟩
    · exact List.cons_subset_cons _ (ready_subset_held stage)
    · intro x hx
      exact List.mem_cons_of_mem _ (List.mem_append_right _
        (collect_adopt hpackage (fun _ => rfl) hx))
  | absorb hpackage =>
    refine Ordered.rearrange h rfl (ready_subset_held stage) ?_ ?_
      (List.Perm.of_eq (aloof_same rfl (Scope.id_merge _ _) rfl rfl))
    · rintro f rfl
      exact collect_absorb hpackage fun _ _ _ => Contents.mem_edges_merge
    · refine collect_absorb hpackage fun contents other x hx => ?_
      rw [Contents.variableIds_merge] at hx
      exact OrderedMap.mem_values_merge hx

end Step

end Stage

section Reachable

variable {stage : Stage}

theorem Stage.ordered_start (issued : Nat) : (Stage.start idOf issued []).Ordered idOf := by
  constructor
  case edges =>
    intro edge hedge
    cases hedge
  case used =>
    intro id hid
    cases hid
  case unused =>
    intro id hid
    cases List.mem_singleton.mp hid
    exact numbered_next idOf issued
  case nodup => exact List.pairwise_singleton ..
  case apart =>
    intro id hid
    cases hid
  case grows =>
    intro edge hedge
    cases hedge

/-- A new text begins with a scope that holds nothing, beside what is on the shelf. -/
theorem Stage.Ordered.next (hinj : Function.Injective idOf) (h : stage.Ordered idOf) :
    (Stage.start idOf stage.issued stage.shelf).Ordered idOf := by
  let suspended : Stage :=
    { Stage.start idOf stage.issued stage.shelf with
      callers := (stage.frame, stage.outer) :: stage.callers }
  have hsuspended : suspended.Ordered idOf := h.step hinj (.suspend stage)
  have hcollect : ∀ {α : Type} (f : Contents → List α),
      (Stage.start idOf stage.issued stage.shelf).collect f ⊆ suspended.collect f := by
    intro α f x hx
    obtain ⟨root, hroot, hin⟩ := Stage.mem_collect.mp hx
    refine Stage.collect_of_root (Stage.mem_roots.mpr ?_) hin
    rcases Stage.mem_roots.mp hroot with rfl | hother | hmem
    · exact Or.inl rfl
    · cases hother
    · exact Or.inr (Or.inr hmem)
  have haloof : (Stage.start idOf stage.issued stage.shelf).aloof.Sublist suspended.aloof := by
    rw [Stage.aloof_eq, Stage.aloof_eq]
    refine List.Sublist.append (List.nil_sublist _) ?_
    exact (List.sublist_append_right _ _).cons_cons _
  exact (hsuspended.abandon haloof).weaken (hcollect _)
    (List.append_subset.mpr
      ⟨List.nil_subset _, fun _ hx => List.mem_append_right _ (hcollect _ hx)⟩)
    (List.Perm.refl _)

/-- At every stage that can be reached the edges are in order. -/
theorem Reachable.ordered (hinj : Function.Injective idOf) (h : Reachable idOf stage) :
    stage.Ordered idOf := by
  induction h with
  | first issued => exact Stage.ordered_start issued
  | move _ hmove ih => exact ih.step hinj hmove
  | next _ ih => exact ih.next hinj

end Reachable

section Acyclic

/-- Something flows from one element to another, somewhere in the scope. -/
def Flow (scope : Scope) (source target : String) : Prop :=
  ∃ part ∈ scope.all, ∃ edge ∈ part.contents.edges.values,
    edge.source = source ∧ edge.target = target

/-- The edges on a way through the graph have growing numbers. -/
theorem numbers_grow {scope : Scope} {issued : Nat} {flows : List Edge}
    {held aloof : List String} (h : Ordered idOf issued flows held aloof)
    (hflows : scope.gather (·.edges.values) ⊆ flows) {source target : String}
    (hway : Relation.TransGen (Flow scope) source target) :
    ∃ first ∈ flows, ∃ last ∈ flows, ∃ m n, first.id = idOf m ∧ last.id = idOf n ∧ m ≤ n ∧
      first.source = source ∧ last.target = target := by
  have hedge : ∀ part ∈ scope.all, ∀ edge ∈ part.contents.edges.values,
      edge ∈ flows ∧ ∃ n, edge.id = idOf n := by
    intro part hpart edge hedge
    have hmem := hflows (Scope.mem_gather.mpr ⟨part, hpart, hedge⟩)
    obtain ⟨n, -, hn⟩ := h.edges edge hmem
    exact ⟨hmem, n, hn⟩
  induction hway with
  | single hflow =>
    obtain ⟨part, hpart, edge, hin, hsource, htarget⟩ := hflow
    obtain ⟨hmem, n, hn⟩ := hedge part hpart edge hin
    exact ⟨edge, hmem, edge, hmem, n, n, hn, hn, Nat.le_refl n, hsource, htarget⟩
  | tail _ hflow ih =>
    obtain ⟨part, hpart, edge, hin, hsource, htarget⟩ := hflow
    obtain ⟨first, hfirst, last, hlast, m, k, hm, hk, hle, hbegin, hjoin⟩ := ih
    obtain ⟨hmem, n, hn⟩ := hedge part hpart edge hin
    have hlt : k < n := h.grows last hlast edge hmem (hjoin.trans hsource.symm) k n hk hn
    exact ⟨first, hfirst, edge, hmem, m, n, hm, hn, by omega, hbegin, htarget⟩

/-- No value comes back to where it came from, whatever packages ask for each other and whatever
is in the cache. -/
theorem no_way_back (hinj : Function.Injective idOf) (hne : ∀ n, idOf n ≠ "") {world : World}
    (hworld : Session idOf world) (library : Library) (source filename : String)
    (chain : List String) (id : String) :
    ¬ Relation.TransGen
      (Flow ((Compiler.mk idOf library).compile source filename chain world).1.scope) id id := by
  intro hway
  obtain ⟨stage, hreachable, -, -, hscope⟩ := hworld.compiled hne library source filename chain
  rw [← hscope] at hway
  have hordered := hreachable.ordered hinj
  have hflows : stage.frame.scope.gather (·.edges.values) ⊆ stage.collect (·.edges.values) :=
    fun _ hx => Stage.collect_of_root (Stage.mem_roots.mpr (Or.inl rfl)) hx
  obtain ⟨first, hfirst, last, hlast, m, n, hm, hn, hle, hbegin, hend⟩ :=
    numbers_grow hordered hflows hway
  have hlt : n < m :=
    hordered.grows last hlast first hfirst (hend.trans hbegin.symm) n m hn hm
  omega

theorem no_way_back_tally :
    ¬ Relation.TransGen
      (Flow ((Compiler.mk tally (.ofStored {})).compile "a = f(g())" "main.fiz" [] {}).1.scope)
      (tally 1) (tally 1) :=
  no_way_back tally_injective tally_ne_empty .begin _ _ _ _ _

end Acyclic

end RecipeGraph.Compile
