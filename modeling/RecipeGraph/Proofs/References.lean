import RecipeGraph.Proofs.Elements
import RecipeGraph.Proofs.FlowOrder

/-!
Nothing that is compiled refers to something that is not there. Edges lead into the scope they
stand in, and what edges and variables refer to stays among the elements of the scopes around.
A package loses its own id when it is brought in, but that id was never used, and a child that
gives way to another one had the same elements.
-/
namespace RecipeGraph.Compile

open RecipeGraph.Graph Recipe Package

variable {idOf : Nat → String}

/-- What the scopes refer to are elements of them. -/
def Closed (scopes : List Scope) : Prop :=
  ∀ x ∈ scopes.flatMap (Scope.gather Contents.references), x ∈ scopes.flatMap Scope.elements

/-- Two scopes that stand for each other. -/
structure Alike (first second : Scope) : Prop where
  contents : first.contents = second.contents
  elements : ∀ x, x ∈ first.elements ↔ x ∈ second.elements

section Alike

variable {first second third : Scope}

theorem Alike.refl (scope : Scope) : Alike scope scope :=
  ⟨rfl, fun _ => Iff.rfl⟩

theorem Alike.symm (h : Alike first second) : Alike second first :=
  ⟨h.contents.symm, fun x => (h.elements x).symm⟩

theorem Alike.trans (h : Alike first second) (h' : Alike second third) : Alike first third :=
  ⟨h.contents.trans h'.contents, fun x => (h.elements x).trans (h'.elements x)⟩

theorem Alike.id (h : Alike first second) : first.id = second.id :=
  congrArg Contents.id h.contents

theorem alike_copy {scope : Scope} (h : scope.DistinctIds) : Alike scope.copy scope :=
  ⟨Scope.contents_copy scope, fun _ => Scope.mem_elements_copy h⟩

end Alike

section Closed

variable {scope scope' : Scope} {outer : List Scope} {x : String}

theorem mem_within :
    x ∈ (scope :: outer).flatMap Scope.elements ↔
      x ∈ scope.elements ∨ x ∈ outer.flatMap Scope.elements := by
  rw [List.flatMap_cons, List.mem_append]

theorem within_mono (helements : scope.elements ⊆ scope'.elements)
    (hx : x ∈ (scope :: outer).flatMap Scope.elements) :
    x ∈ (scope' :: outer).flatMap Scope.elements :=
  mem_within.mpr ((mem_within.mp hx).imp (fun hin => helements hin) fun houter => houter)

theorem Closed.replace (h : Closed (scope :: outer)) (helements : scope.elements ⊆ scope'.elements)
    (hreferences : ∀ x ∈ scope'.gather Contents.references,
      x ∈ scope.gather Contents.references ∨
        x ∈ (scope' :: outer).flatMap Scope.elements) : Closed (scope' :: outer) := by
  intro x hx
  rw [List.flatMap_cons, List.mem_append] at hx
  rcases hx with hown | houter
  · rcases hreferences x hown with hold | hnew
    · refine within_mono helements (h x ?_)
      rw [List.flatMap_cons, List.mem_append]
      exact Or.inl hold
    · exact hnew
  · refine within_mono helements (h x ?_)
    rw [List.flatMap_cons, List.mem_append]
    exact Or.inr houter

/-- A new scope refers to nothing. -/
theorem Closed.open (h : Closed outer) {contents : Contents}
    (hempty : contents.references = []) : Closed (.ofContents contents :: outer) := by
  intro x hx
  rw [List.flatMap_cons, List.mem_append] at hx
  rcases hx with hnew | houter
  · rcases Scope.mem_gather_iff.mp hnew with hself | ⟨child, hchild, -⟩
    · change x ∈ contents.references at hself
      rw [hempty] at hself
      cases hself
    · cases hchild
  · exact mem_within.mpr (Or.inr (h x houter))

theorem closed_nil : Closed [] :=
  fun _ hx => hx

end Closed

namespace Stage

/-- The scopes that lie in another one. -/
def known (stage : Stage) : List Scope :=
  stage.roots.flatMap Scope.inner

/-- The scopes that a path is looked up in. -/
def reach (stage : Stage) : List Scope :=
  stage.frame.scope :: stage.outerScopes

/-- All references at a stage are to elements that are there. -/
structure Linked (idOf : Nat → String) (stage : Stage) : Prop where
  sound : ∀ root ∈ stage.roots, root.Sound
  waiting : ∀ frame ∈ stage.frame :: stage.others, ∀ id ∈ frame.waiting, frame.scope.Has id
  inner : ∀ part ∈ stage.known,
    Numbered idOf stage.issued part.id ∧ part.id ∉ stage.roots.map Scope.id
  alike : ∀ first ∈ stage.known, ∀ second ∈ stage.known, first.id = second.id →
    Alike first second
  ready : ∀ id ∈ stage.ready, id ∈ stage.reach.flatMap Scope.elements
  closed : Closed stage.reach
  callers : ∀ caller ∈ stage.callers, Closed ((caller.1 :: caller.2).map Frame.scope)
  shelf : ∀ package ∈ stage.shelf, Closed [package]

variable {stage next : Stage}

theorem frame_mem_roots (stage : Stage) : stage.frame.scope ∈ stage.roots :=
  mem_roots.mpr (Or.inl rfl)

theorem others_mem_roots {frame : Frame} (h : frame ∈ stage.others) :
    frame.scope ∈ stage.roots :=
  mem_roots.mpr (Or.inr (Or.inl (List.mem_map_of_mem h)))

theorem shelf_mem_roots {package : Scope} (h : package ∈ stage.shelf) : package ∈ stage.roots :=
  mem_roots.mpr (Or.inr (Or.inr h))

theorem around_mem_others {around : Frame} {further : List Frame}
    (houter : stage.outer = around :: further) : around ∈ stage.others := by
  rw [others_of_outer houter]
  exact List.mem_cons_self ..

theorem caller_mem_others {frame : Frame} {outer : List Frame}
    {callers : List (Frame × List Frame)} (houter : stage.outer = [])
    (hcallers : stage.callers = (frame, outer) :: callers) : frame ∈ stage.others := by
  rw [others_of_callers houter hcallers]
  exact List.mem_cons_self ..

theorem child_known {root child : Scope} (hroot : root ∈ stage.roots)
    (hchild : child ∈ root.children) : child ∈ stage.known :=
  List.mem_flatMap.mpr ⟨root, hroot, Scope.child_mem_inner hchild⟩

section Moves

/-- Only the innermost frame is ever changed. -/
theorem frames_step (hmove : Move idOf stage next) :
    ∀ frame ∈ next.others, frame ∈ stage.frame :: stage.others := by
  cases hmove with
  | enter name look => exact fun _ h => h
  | suspend => exact fun _ h => h
  | leave hwaiting houter =>
    intro frame hframe
    rw [others_of_outer houter]
    exact List.mem_cons_of_mem _ (List.mem_cons_of_mem _ hframe)
  | resume hwaiting houter hcallers =>
    intro frame hframe
    rw [others_of_callers houter hcallers]
    exact List.mem_cons_of_mem _ (List.mem_cons_of_mem _ hframe)
  | _ => exact fun _ h => List.mem_cons_of_mem _ h

theorem shelf_step (hmove : Move idOf stage next) :
    ∀ package ∈ next.shelf, package = stage.frame.scope ∨ package ∈ stage.shelf := by
  cases hmove with
  | resume hwaiting houter hcallers => exact fun _ h => List.mem_cons.mp h
  | _ => exact fun _ h => Or.inr h

theorem roots_step (hmove : Move idOf stage next) :
    ∀ root ∈ next.roots, root = next.frame.scope ∨ root ∈ stage.roots := by
  intro root hroot
  rcases mem_roots.mp hroot with rfl | hother | hshelf
  · exact Or.inl rfl
  · obtain ⟨frame, hframe, rfl⟩ := List.mem_map.mp hother
    rcases List.mem_cons.mp (frames_step hmove frame hframe) with rfl | hold
    · exact Or.inr (frame_mem_roots stage)
    · exact Or.inr (others_mem_roots hold)
  · rcases shelf_step hmove root hshelf with rfl | hold
    · exact Or.inr (frame_mem_roots stage)
    · exact Or.inr (shelf_mem_roots hold)

theorem issued_step (hmove : Move idOf stage next) : stage.issued ≤ next.issued := by
  cases hmove with
  | vertex | edge | enter | suspend | adopt => exact Nat.le_succ _
  | _ => exact Nat.le_refl _

end Moves

section Sound

/-- Contents with the same vertices and edges are as tidy. -/
theorem tidy_of_same {scope : Scope} (h : scope.Tidy) {f : Contents → Contents}
    (hvertices : (f scope.contents).vertices = scope.contents.vertices)
    (hedges : (f scope.contents).edges = scope.contents.edges) :
    (scope.mapContents f).Tidy := by
  constructor
  case keyed =>
    rw [Scope.contents_mapContents, hvertices]
    exact h.keyed
  case distinct =>
    rw [Scope.children_mapContents]
    exact h.distinct
  case targets =>
    unfold Scope.Has
    rw [Scope.contents_mapContents, Scope.children_mapContents, hvertices, hedges]
    exact h.targets

theorem tidy_addVertex {scope : Scope} (h : scope.Tidy) (vertex : Vertex) :
    (scope.mapContents (·.addVertex vertex)).Tidy := by
  constructor
  case keyed =>
    rintro ⟨key, value⟩ hentry
    rw [Scope.contents_mapContents] at hentry
    rcases OrderedMap.mem_insert hentry with ⟨rfl, rfl⟩ | hold
    · rfl
    · exact h.keyed _ hold
  case distinct =>
    rw [Scope.children_mapContents]
    exact h.distinct
  case targets =>
    intro edge hedge
    rw [Scope.contents_mapContents] at hedge
    unfold Scope.Has
    rw [Scope.contents_mapContents, Scope.children_mapContents]
    rcases h.targets edge hedge with hkey | hchild
    · exact Or.inl (OrderedMap.mem_keys_insert.mpr (Or.inr hkey))
    · exact Or.inr hchild

theorem tidy_addEdge {scope : Scope} (h : scope.Tidy) {edge : Edge}
    (htarget : scope.Has edge.target) :
    (scope.mapContents (·.addEdge edge)).Tidy := by
  constructor
  case keyed =>
    rw [Scope.contents_mapContents]
    exact h.keyed
  case distinct =>
    rw [Scope.children_mapContents]
    exact h.distinct
  case targets =>
    intro other hother
    rw [Scope.contents_mapContents] at hother
    unfold Scope.Has
    rw [Scope.contents_mapContents, Scope.children_mapContents]
    rcases OrderedMap.mem_values_insert hother with rfl | hold
    · exact htarget
    · exact h.targets other hold

theorem id_relabel (package : Scope) (id name : String) : (relabel package id name).id = id := by
  unfold relabel Scope.id
  rw [Scope.contents_mapContents]

theorem sound_relabel {package : Scope} (h : package.Sound) (id name : String) :
    (relabel package id name).Sound :=
  h.copy.mapContents (tidy_of_same h.copy.tidy rfl rfl)

theorem Linked.sound_step (h : stage.Linked idOf) (hmove : Move idOf stage next) :
    ∀ root ∈ next.roots, root.Sound := by
  have hframe := h.sound _ (frame_mem_roots stage)
  intro root hroot
  rcases roots_step hmove root hroot with rfl | hold
  · cases hmove with
    | vertex name look => exact hframe.mapContents (tidy_addVertex hframe.tidy _)
    | edge name look hsource htarget =>
      have hhas := h.waiting stage.frame (List.mem_cons_self ..) _ htarget
      exact hframe.mapContents (tidy_addEdge hframe.tidy hhas)
    | settle | refer | drop => exact hframe
    | bind hid name look => exact hframe.mapContents (tidy_of_same hframe.tidy rfl rfl)
    | adorn adornment =>
      exact hframe.mapContents (tidy_of_same hframe.tidy (adornment.vertices_apply _)
        (adornment.edges_apply _))
    | enter | suspend => exact Scope.sound_ofContents rfl rfl
    | leave hwaiting houter =>
      exact (h.sound _ (others_mem_roots (around_mem_others houter))).attach hframe
    | resume hwaiting houter hcallers =>
      exact h.sound _ (others_mem_roots (caller_mem_others houter hcallers))
    | adopt hpackage name =>
      exact hframe.attach (sound_relabel (h.sound _ (shelf_mem_roots hpackage)) _ _)
    | absorb hpackage => exact hframe.merge (h.sound _ (shelf_mem_roots hpackage)).copy
  · exact h.sound root hold

end Sound

section Waiting

theorem Linked.waiting_step (h : stage.Linked idOf) (hmove : Move idOf stage next) :
    ∀ frame ∈ next.frame :: next.others, ∀ id ∈ frame.waiting, frame.scope.Has id := by
  have hframe := h.waiting stage.frame (List.mem_cons_self ..)
  intro frame hmem
  rcases List.mem_cons.mp hmem with rfl | hother
  · cases hmove with
    | vertex name look =>
      have hkeys : ∀ contents : Contents, contents.vertices.keys ⊆
          (contents.addVertex ⟨idOf stage.issued, name, look⟩).vertices.keys :=
        fun _ _ hkey => OrderedMap.mem_keys_insert.mpr (Or.inr hkey)
      intro id hid
      rcases List.mem_cons.mp hid with rfl | hold
      · left
        change _ ∈ (stage.frame.scope.mapContents _).contents.vertices.keys
        rw [Scope.contents_mapContents]
        exact OrderedMap.mem_keys_insert.mpr (Or.inl rfl)
      · exact (hframe id hold).mapContents (hkeys _)
    | edge name look hsource htarget =>
      exact fun id hid => (hframe id hid).mapContents (List.Subset.refl _)
    | settle hwaiting =>
      intro id hid
      refine hframe id ?_
      rw [hwaiting]
      exact List.mem_cons_of_mem _ hid
    | refer | drop => exact hframe
    | bind => exact fun id hid => (hframe id hid).mapContents (List.Subset.refl _)
    | adorn adornment =>
      intro id hid
      refine (hframe id hid).mapContents ?_
      rw [adornment.vertices_apply]
      exact List.Subset.refl _
    | enter | suspend =>
      intro id hid
      cases hid
    | @leave around further hwaiting houter =>
      have haround := h.waiting around (List.mem_cons_of_mem _ (around_mem_others houter))
      intro id hid
      rcases List.mem_cons.mp hid with rfl | hold
      · exact Scope.has_attach around.scope stage.frame.scope
      · exact (haround id hold).attach
    | resume hwaiting houter hcallers =>
      exact h.waiting _ (List.mem_cons_of_mem _ (caller_mem_others houter hcallers))
    | adopt => exact fun id hid => (hframe id hid).attach
    | absorb => exact fun id hid => (hframe id hid).merge
  · exact h.waiting frame (frames_step hmove frame hother)

end Waiting

section Known

theorem mem_known_of_frame (hmove : Move idOf stage next) {part : Scope} (h : part ∈ next.known) :
    part ∈ next.frame.scope.inner ∨ part ∈ stage.known := by
  obtain ⟨root, hroot, hin⟩ := List.mem_flatMap.mp h
  rcases roots_step hmove root hroot with rfl | hold
  · exact Or.inl hin
  · exact Or.inr (List.mem_flatMap.mpr ⟨root, hold, hin⟩)

theorem inner_known {root part : Scope} (hroot : root ∈ stage.roots) (hin : part ∈ root.inner) :
    part ∈ stage.known :=
  List.mem_flatMap.mpr ⟨root, hroot, hin⟩

theorem rootId_mem_aloof {root : Scope} (hroot : root ∈ stage.roots) : root.id ∈ stage.aloof :=
  List.mem_append_right _ (List.mem_map_of_mem hroot)

/-- A scope with an id that no scope had before within another one. -/
structure Joins (idOf : Nat → String) (stage next : Stage) (fresh : Scope) : Prop where
  new : ∀ part ∈ stage.known, part.id ≠ fresh.id
  numbered : Numbered idOf next.issued fresh.id
  inside : fresh.id ∉ next.roots.map Scope.id

/-- Every scope within another one was there before in this form or is the one that joined. -/
def Grows (stage next : Stage) (fresh : Option Scope) : Prop :=
  ∀ part ∈ next.known, part ∈ fresh ∨ ∃ original ∈ stage.known, Alike part original

/-- Every scope within another one was there before, is a copy of one that was, or is the one that
joined. -/
def Stems (stage next : Stage) (fresh : Option Scope) : Prop :=
  ∀ part ∈ next.known,
    part ∈ fresh ∨ ∃ original ∈ stage.known, part = original ∨ part = original.copy

theorem Stems.of_frame (hmove : Move idOf stage next) {fresh : Option Scope}
    (h : ∀ part ∈ next.frame.scope.inner,
      part ∈ fresh ∨ ∃ original ∈ stage.known, part = original ∨ part = original.copy) :
    Stems stage next fresh := by
  intro part hpart
  rcases mem_known_of_frame hmove hpart with hframe | hold
  · exact h part hframe
  · exact Or.inr ⟨part, hold, Or.inl rfl⟩

theorem Linked.distinctIds_known (h : stage.Linked idOf) {part : Scope}
    (hpart : part ∈ stage.known) :
    part.DistinctIds := by
  obtain ⟨root, hroot, hin⟩ := List.mem_flatMap.mp hpart
  exact (h.sound root hroot).distinctIds.of_mem (Scope.inner_subset_all hin)

theorem Stems.grows (h : stage.Linked idOf) {fresh : Option Scope}
    (hstems : Stems stage next fresh) :
    Grows stage next fresh := by
  intro part hpart
  refine (hstems part hpart).imp_right ?_
  rintro ⟨original, horiginal, rfl | rfl⟩
  · exact ⟨_, horiginal, .refl _⟩
  · exact ⟨original, horiginal, alike_copy (h.distinctIds_known horiginal)⟩

theorem Linked.mem_inner_copy (h : stage.Linked idOf) {package part : Scope}
    (hpackage : package ∈ stage.shelf) (hin : part ∈ package.copy.inner) :
    ∃ original ∈ stage.known, part = original.copy := by
  have hroot := shelf_mem_roots hpackage
  obtain ⟨original, horiginal, heq⟩ := Scope.mem_inner_copy (h.sound package hroot).distinctIds hin
  exact ⟨original, inner_known hroot horiginal, heq⟩

theorem Linked.alike_of_copy (h : stage.Linked idOf) {package part : Scope}
    (hpackage : package ∈ stage.shelf) (hin : part ∈ package.copy.inner) :
    ∃ original ∈ stage.known, Alike part original := by
  obtain ⟨original, horiginal, rfl⟩ := h.mem_inner_copy hpackage hin
  exact ⟨original, horiginal, alike_copy (h.distinctIds_known horiginal)⟩

/-- A move lets at most one scope join, and all others within another one stem from those that
were there. -/
theorem Linked.stems_step (hinj : Function.Injective idOf) (h : stage.Linked idOf)
    (hordered : stage.Ordered idOf) (hmove : Move idOf stage next) :
    ∃ fresh, Stems stage next fresh ∧ ∀ scope ∈ fresh, Joins idOf stage next scope := by
  have hown : ∀ root ∈ stage.roots, ∀ part ∈ root.inner,
      ∃ original ∈ stage.known, part = original ∨ part = original.copy :=
    fun root hroot part hin => ⟨part, inner_known hroot hin, Or.inl rfl⟩
  have hcopied : ∀ package ∈ stage.shelf, ∀ part ∈ package.copy.inner,
      ∃ original ∈ stage.known, part = original ∨ part = original.copy := by
    intro package hpackage part hin
    obtain ⟨original, horiginal, heq⟩ := h.mem_inner_copy hpackage hin
    exact ⟨original, horiginal, Or.inr heq⟩
  have hnobody : (∀ part ∈ next.frame.scope.inner, ∃ original ∈ stage.known,
        part = original ∨ part = original.copy) →
      ∃ fresh, Stems stage next fresh ∧ ∀ scope ∈ fresh, Joins idOf stage next scope := by
    intro hold
    refine ⟨none, .of_frame hmove fun part hpart => Or.inr (hold part hpart), ?_⟩
    intro scope hscope
    cases hscope
  have hsomebody : ∀ fresh : Scope, (∀ part ∈ next.frame.scope.inner,
        part = fresh ∨ ∃ original ∈ stage.known, part = original ∨ part = original.copy) →
      Joins idOf stage next fresh →
      ∃ fresh, Stems stage next fresh ∧ ∀ scope ∈ fresh, Joins idOf stage next scope := by
    intro fresh hold hjoins
    refine ⟨some fresh, .of_frame hmove fun part hpart => (hold part hpart).imp ?_ id, ?_⟩
    · rintro rfl
      exact Option.mem_some_self part
    · rintro scope hscope
      cases hscope
      exact hjoins
  have hframe := hown _ (frame_mem_roots stage)
  have hnext := hordered.step hinj hmove
  cases hmove with
  | vertex | edge | bind | adorn =>
    refine hnobody fun part hpart => hframe part ?_
    exact Scope.inner_mapContents _ _ ▸ hpart
  | settle | refer | drop => exact hnobody hframe
  | enter | suspend =>
    refine hnobody fun part hpart => ?_
    cases hpart
  | leave hwaiting houter =>
    have haround := others_mem_roots (around_mem_others houter)
    refine hsomebody stage.frame.scope ?_ ⟨?_, ?_, ?_⟩
    · intro part hpart
      rcases Scope.mem_inner_attach hpart with hchild | hparent
      · rw [Scope.all_eq] at hchild
        rcases List.mem_cons.mp hchild with rfl | hin
        · exact Or.inl rfl
        · exact Or.inr (hframe part hin)
      · exact Or.inr (hown _ haround part hparent)
    · intro part hpart hid
      exact (h.inner part hpart).2 (hid ▸ List.mem_map_of_mem (frame_mem_roots stage))
    · exact hordered.unused _ (rootId_mem_aloof (frame_mem_roots stage))
    · -- it waits now, and nothing waits twice
      intro hmem
      exact (List.nodup_append.mp hnext.nodup).2.2 _ (List.mem_cons_self ..) _ hmem rfl
  | resume hwaiting houter hcallers =>
    exact hnobody (hown _ (others_mem_roots (caller_mem_others houter hcallers)))
  | @adopt package hpackage name =>
    have hid := id_relabel package (idOf stage.issued) name
    refine hsomebody (relabel package (idOf stage.issued) name) ?_ ⟨?_, ?_, ?_⟩
    · intro part hpart
      rcases Scope.mem_inner_attach hpart with hchild | hparent
      · rw [Scope.all_eq] at hchild
        rcases List.mem_cons.mp hchild with rfl | hin
        · exact Or.inl rfl
        · refine Or.inr (hcopied package hpackage part ?_)
          unfold relabel at hin
          rwa [Scope.children_mapContents] at hin
      · exact Or.inr (hframe part hparent)
    · intro part hpart
      rw [hid]
      exact (h.inner part hpart).1.ne_next hinj
    · rw [hid]
      exact numbered_next idOf stage.issued
    · rw [hid]
      intro hmem
      obtain ⟨root, hroot, heq⟩ := List.mem_map.mp (show _ ∈ stage.roots.map Scope.id from hmem)
      exact (hordered.unused _ (rootId_mem_aloof hroot)).ne_next hinj heq
  | @absorb package hpackage =>
    refine hnobody fun part hpart => ?_
    obtain ⟨child, hchild, hin⟩ := Scope.mem_inner.mp hpart
    rcases Scope.mem_children_foldl_attach hchild with hother | hold
    · exact hcopied package hpackage part (Scope.mem_inner.mpr ⟨child, hother, hin⟩)
    · rw [Scope.children_mapContents] at hold
      exact hframe part (Scope.mem_inner.mpr ⟨child, hold, hin⟩)

theorem Linked.known_step (hinj : Function.Injective idOf) (h : stage.Linked idOf)
    (hordered : stage.Ordered idOf) (hmove : Move idOf stage next) :
    ∃ fresh, Grows stage next fresh ∧ ∀ scope ∈ fresh, Joins idOf stage next scope := by
  obtain ⟨fresh, hstems, hjoins⟩ := h.stems_step hinj hordered hmove
  exact ⟨fresh, hstems.grows h, hjoins⟩

theorem rootId_step (hmove : Move idOf stage next) {root : Scope} (hroot : root ∈ next.roots) :
    root.id ∈ stage.roots.map Scope.id ∨ root.id = idOf stage.issued := by
  have hframe := List.mem_map_of_mem (f := Scope.id) (frame_mem_roots stage)
  rcases roots_step hmove root hroot with rfl | hold
  · cases hmove with
    | vertex | edge | bind =>
      left
      change (stage.frame.scope.mapContents _).contents.id ∈ _
      rw [Scope.contents_mapContents]
      exact hframe
    | adorn adornment =>
      left
      change (stage.frame.scope.mapContents _).contents.id ∈ _
      rw [Scope.contents_mapContents, adornment.id_apply]
      exact hframe
    | settle | refer | drop | adopt => exact Or.inl hframe
    | enter | suspend => exact Or.inr rfl
    | @leave around further hwaiting houter =>
      have haround := others_mem_roots (around_mem_others houter)
      exact Or.inl (List.mem_map.mpr ⟨around.scope, haround, rfl⟩)
    | resume hwaiting houter hcallers =>
      exact Or.inl (List.mem_map_of_mem (others_mem_roots (caller_mem_others houter hcallers)))
    | absorb =>
      left
      change (stage.frame.scope.merge _).id ∈ _
      rw [Scope.id_merge]
      exact hframe
  · exact Or.inl (List.mem_map_of_mem hold)

theorem Linked.inner_step (hinj : Function.Injective idOf) (h : stage.Linked idOf)
    (hordered : stage.Ordered idOf) (hmove : Move idOf stage next) :
    ∀ part ∈ next.known,
      Numbered idOf next.issued part.id ∧ part.id ∉ next.roots.map Scope.id := by
  obtain ⟨fresh, hgrows, hjoins⟩ := h.known_step hinj hordered hmove
  intro part hpart
  rcases hgrows part hpart with hnew | ⟨original, horiginal, halike⟩
  · exact ⟨(hjoins part hnew).numbered, (hjoins part hnew).inside⟩
  · obtain ⟨hnumbered, houtside⟩ := h.inner original horiginal
    rw [halike.id]
    refine ⟨hnumbered.mono (issued_step hmove), ?_⟩
    intro hmem
    obtain ⟨root, hroot, hid⟩ := List.mem_map.mp hmem
    rcases rootId_step hmove hroot with hold | hlast
    · exact houtside (hid ▸ hold)
    · exact hnumbered.ne_next hinj (hid.symm.trans hlast)

theorem Linked.alike_step (hinj : Function.Injective idOf) (h : stage.Linked idOf)
    (hordered : stage.Ordered idOf) (hmove : Move idOf stage next) :
    ∀ first ∈ next.known, ∀ second ∈ next.known, first.id = second.id →
      Alike first second := by
  obtain ⟨fresh, hgrows, hjoins⟩ := h.known_step hinj hordered hmove
  intro first hfirst second hsecond hid
  rcases hgrows first hfirst with hnew | ⟨original, horiginal, halike⟩
  · rcases hgrows second hsecond with hnew' | ⟨original, horiginal, halike⟩
    · rw [Option.mem_unique hnew hnew']
      exact .refl second
    · exact absurd (halike.id.symm.trans hid.symm) ((hjoins first hnew).new original horiginal)
  · rcases hgrows second hsecond with hnew' | ⟨original', horiginal', halike'⟩
    · exact absurd (halike.id.symm.trans hid) ((hjoins second hnew').new original horiginal)
    · have hids : original.id = original'.id := halike.id.symm.trans (hid.trans halike'.id)
      exact halike.trans ((h.alike original horiginal original' horiginal' hids).trans halike'.symm)

end Known

section Closing

theorem elements_relabel {package : Scope} {id name x : String} (hx : x ∈ package.copy.elements)
    (hne : x ≠ package.copy.id) : x ∈ (relabel package id name).elements := by
  refine Scope.mem_elements_iff.mpr (Or.inr ?_)
  unfold relabel
  rw [Scope.contents_mapContents, Scope.children_mapContents]
  exact (Scope.mem_elements_iff.mp hx).resolve_left hne

theorem references_relabel {package : Scope} {id name x : String}
    (hx : x ∈ (relabel package id name).gather Contents.references) :
    x ∈ package.copy.gather Contents.references := by
  rcases Scope.mem_gather_mapContents hx with hself | hin
  · exact Scope.mem_gather_iff.mpr (Or.inl hself)
  · exact hin

/-- What is referred to was used, so it is nothing that stands aloof. -/
theorem reference_not_aloof (hordered : stage.Ordered idOf) {root : Scope}
    (hroot : root ∈ stage.roots) {x : String} (hx : x ∈ root.gather Contents.references) :
    x ∉ stage.aloof := by
  refine hordered.apart x ?_
  obtain ⟨part, hpart, hin⟩ := Scope.mem_gather.mp hx
  rcases List.mem_append.mp hin with hedge | hvalue
  · obtain ⟨edge, hmem, rfl⟩ := List.mem_map.mp hedge
    exact List.mem_append_right _ (List.mem_map_of_mem
      (collect_of_root hroot (Scope.mem_gather.mpr ⟨part, hpart, hmem⟩)))
  · exact List.mem_append_left _ (List.mem_append_right _
      (collect_of_root hroot (Scope.mem_gather.mpr ⟨part, hpart, hvalue⟩)))

/-- A package refers only to what comes along with it. -/
theorem Linked.package_closed (h : stage.Linked idOf) (hordered : stage.Ordered idOf)
    {package : Scope} (hpackage : package ∈ stage.shelf) {x : String}
    (hx : x ∈ package.copy.gather Contents.references) :
    x ∈ package.copy.elements ∧ x ≠ package.copy.id := by
  have hroot := shelf_mem_roots hpackage
  have hreference := Scope.mem_gather_copy hx
  constructor
  · have hin := h.shelf package hpackage x
      (List.mem_flatMap.mpr ⟨package, List.mem_singleton_self _, hreference⟩)
    rw [List.flatMap_singleton] at hin
    exact (Scope.mem_elements_copy (h.sound package hroot).distinctIds).mpr hin
  · rintro rfl
    rw [Scope.id_copy] at hreference
    exact reference_not_aloof hordered hroot hreference (rootId_mem_aloof hroot)

/-- Children that come together by a merge stand for each other if they have the same id. -/
theorem Linked.children_alike (h : stage.Linked idOf) {package : Scope}
    (hpackage : package ∈ stage.shelf) :
    ∀ first ∈ stage.frame.scope.children ++ package.copy.children,
      ∀ second ∈ stage.frame.scope.children ++ package.copy.children,
        first.id = second.id → Alike first second := by
  have horiginal : ∀ child ∈ stage.frame.scope.children ++ package.copy.children,
      ∃ original ∈ stage.known, Alike child original := by
    intro child hchild
    rcases List.mem_append.mp hchild with hown | hcopy
    · exact ⟨child, child_known (frame_mem_roots stage) hown, .refl child⟩
    · exact h.alike_of_copy hpackage (Scope.child_mem_inner hcopy)
  intro first hfirst second hsecond hid
  obtain ⟨original, hknown, hlike⟩ := horiginal first hfirst
  obtain ⟨original', hknown', hlike'⟩ := horiginal second hsecond
  have hids : original.id = original'.id := hlike.id.symm.trans (hid.trans hlike'.id)
  exact hlike.trans ((h.alike original hknown original' hknown' hids).trans hlike'.symm)

/-- So no element is lost when they come together. -/
theorem Linked.children_keep (h : stage.Linked idOf) {package : Scope}
    (hpackage : package ∈ stage.shelf) :
    ∀ first ∈ stage.frame.scope.children ++ package.copy.children,
      ∀ second ∈ stage.frame.scope.children ++ package.copy.children,
        first.id = second.id → first.elements ⊆ second.elements :=
  fun first hfirst second hsecond hid x hx =>
    ((h.children_alike hpackage first hfirst second hsecond hid).elements x).mp hx

/-- A child under the next id takes nobody's place. -/
theorem Linked.nothing_replaced (hinj : Function.Injective idOf) (h : stage.Linked idOf)
    (child : Scope) (hid : child.id = idOf stage.issued) :
    ∀ old ∈ stage.frame.scope.children, old.id = child.id → old.elements ⊆ child.elements := by
  intro old hold heq
  have hnumbered := (h.inner old (child_known (frame_mem_roots stage) hold)).1
  exact absurd (heq.trans hid) (hnumbered.ne_next hinj)

/-- As long as it is the innermost one, a scope loses no element. -/
theorem Linked.elements_step (hinj : Function.Injective idOf) (h : stage.Linked idOf)
    (hmove : Move idOf stage next) (houter : next.outer = stage.outer)
    (hcallers : next.callers = stage.callers) :
    stage.frame.scope.elements ⊆ next.frame.scope.elements := by
  intro x hx
  cases hmove with
  | vertex name look =>
    exact Scope.elements_mapContents rfl
      (fun _ hkey => OrderedMap.mem_keys_insert.mpr (Or.inr hkey)) hx
  | edge | bind => exact Scope.elements_mapContents rfl (List.Subset.refl _) hx
  | settle | refer | drop => exact hx
  | adorn adornment =>
    refine Scope.elements_mapContents (adornment.id_apply _) ?_ hx
    rw [adornment.vertices_apply]
    exact List.Subset.refl _
  | enter => exact absurd houter (List.cons_ne_self _ _)
  | leave hwaiting hstage => exact absurd (houter.trans hstage).symm (List.cons_ne_self _ _)
  | suspend => exact absurd hcallers (List.cons_ne_self _ _)
  | resume hwaiting hnone hstage =>
    exact absurd (hcallers.trans hstage).symm (List.cons_ne_self _ _)
  | adopt hpackage name =>
    exact Scope.elements_attach (h.nothing_replaced hinj _ (id_relabel _ _ name)) (Or.inl hx)
  | absorb hpackage =>
    have htidy := (h.sound _ (shelf_mem_roots hpackage)).copy.tidy
    exact Scope.elements_merge htidy (h.children_keep hpackage) (Or.inl hx)

theorem Linked.ready_step (hinj : Function.Injective idOf) (h : stage.Linked idOf)
    (hmove : Move idOf stage next) : ∀ id ∈ next.ready, id ∈ next.reach.flatMap Scope.elements := by
  have hkept : next.outer = stage.outer → next.callers = stage.callers →
      ∀ id ∈ stage.ready, id ∈ next.reach.flatMap Scope.elements := by
    intro houter hcallers id hid
    have hold := within_mono (h.elements_step hinj hmove houter hcallers) (h.ready id hid)
    unfold reach outerScopes
    rw [houter]
    exact hold
  cases hmove with
  | vertex | edge | bind | adorn | absorb => exact hkept rfl rfl
  | drop hsubset => exact fun id hid => hkept rfl rfl id (hsubset hid)
  | settle hwaiting =>
    intro id hid
    rcases List.mem_cons.mp hid with rfl | hold
    · have hhas : stage.frame.scope.Has id := by
        refine h.waiting stage.frame (List.mem_cons_self ..) id ?_
        rw [hwaiting]
        exact List.mem_cons_self ..
      exact mem_within.mpr (Or.inl hhas.mem_elements)
    · exact hkept rfl rfl id hold
  | refer hresolve =>
    intro id hid
    rcases List.mem_cons.mp hid with rfl | hold
    · obtain ⟨part, hpart, hvalue⟩ := Scope.mem_of_resolve hresolve
      obtain ⟨top, htop, hin⟩ := List.mem_flatMap.mp hpart
      refine h.closed id (List.mem_flatMap.mpr ⟨top, htop, ?_⟩)
      exact Scope.mem_gather.mpr ⟨part, hin, List.mem_append_right _ hvalue⟩
    · exact hkept rfl rfl id hold
  | enter | leave | suspend | resume =>
    intro id hid
    cases hid
  | @adopt package hpackage name =>
    intro id hid
    rcases List.mem_cons.mp hid with rfl | hold
    · have hhas := Scope.has_attach stage.frame.scope
        (relabel package (idOf stage.issued) name)
      rw [id_relabel] at hhas
      exact mem_within.mpr (Or.inl hhas.mem_elements)
    · exact hkept rfl rfl id hold

theorem Linked.closed_step (hinj : Function.Injective idOf) (h : stage.Linked idOf)
    (hordered : stage.Ordered idOf) (hmove : Move idOf stage next) : Closed next.reach := by
  have helements := h.elements_step hinj hmove
  have hready := h.ready_step hinj hmove
  cases hmove with
  | vertex name look =>
    refine h.closed.replace (helements rfl rfl) fun x hx => Or.inl ?_
    rcases Scope.mem_gather_mapContents hx with hself | hold
    · exact Scope.mem_gather_iff.mpr (Or.inl hself)
    · exact hold
  | edge name look hsource htarget =>
    refine h.closed.replace (helements rfl rfl) fun x hx => ?_
    rcases Scope.mem_gather_mapContents hx with hself | hold
    · rcases Contents.references_addEdge hself with rfl | hold
      · exact Or.inr (hready _ hsource)
      · exact Or.inl (Scope.mem_gather_iff.mpr (Or.inl hold))
    · exact Or.inl hold
  | settle | refer | drop => exact h.closed
  | bind hid name look =>
    refine h.closed.replace (helements rfl rfl) fun x hx => ?_
    rcases Scope.mem_gather_mapContents hx with hself | hold
    · have hbound : x ∈ (stage.frame.scope.contents.bindVariable name _).references := hself
      rcases Contents.references_bindVariable hbound with rfl | hold
      · exact Or.inr (hready _ hid)
      · exact Or.inl (Scope.mem_gather_iff.mpr (Or.inl hold))
    · exact Or.inl hold
  | adorn adornment =>
    refine h.closed.replace (helements rfl rfl) fun x hx => Or.inl ?_
    rcases Scope.mem_gather_mapContents hx with hself | hold
    · unfold Contents.references at hself
      rw [adornment.edges_apply, adornment.variableIds_apply] at hself
      exact Scope.mem_gather_iff.mpr (Or.inl hself)
    · exact hold
  | enter name look => exact h.closed.open rfl
  | @leave around further hwaiting houter =>
    have hreach : stage.reach =
        stage.frame.scope :: around.scope :: further.map Frame.scope := by
      unfold reach outerScopes
      rw [houter]
      rfl
    have haround := others_mem_roots (around_mem_others houter)
    have hkept : ∀ x, x ∈ around.scope.elements ∨ x ∈ stage.frame.scope.elements →
        x ∈ (around.scope.attach stage.frame.scope).elements := by
      intro x hx
      refine Scope.elements_attach ?_ hx
      intro old hold hid
      have hinside := (h.inner old (child_known haround hold)).2
      exact absurd (List.mem_map.mpr ⟨_, frame_mem_roots stage, hid.symm⟩) hinside
    have hclosed := h.closed
    rw [hreach] at hclosed
    intro x hx
    have hreference : x ∈ (stage.frame.scope :: around.scope :: further.map Frame.scope).flatMap
        (Scope.gather Contents.references) := by
      rw [List.flatMap_cons, List.flatMap_cons, List.mem_append, List.mem_append]
      rcases List.mem_append.mp hx with hin | hfurther
      · rcases Scope.mem_gather_attach hin with hparent | hchild
        · exact Or.inr (Or.inl hparent)
        · exact Or.inl hchild
      · exact Or.inr (Or.inr hfurther)
    rcases mem_within.mp (hclosed x hreference) with hown | houtside
    · exact mem_within.mpr (Or.inl (hkept x (Or.inr hown)))
    · rcases mem_within.mp houtside with hparent | hfurther
      · exact mem_within.mpr (Or.inl (hkept x (Or.inl hparent)))
      · exact mem_within.mpr (Or.inr hfurther)
  | suspend => exact closed_nil.open rfl
  | @resume frame outer callers hwaiting houter hcallers =>
    have hcaller : (frame, outer) ∈ stage.callers := by
      rw [hcallers]
      exact List.mem_cons_self ..
    exact h.callers (frame, outer) hcaller
  | adopt hpackage name =>
    refine h.closed.replace (helements rfl rfl) fun x hx => ?_
    rcases Scope.mem_gather_attach hx with hown | hchild
    · exact Or.inl hown
    · obtain ⟨hin, hne⟩ := h.package_closed hordered hpackage (references_relabel hchild)
      have hbrought := Scope.elements_attach (h.nothing_replaced hinj _ (id_relabel _ _ name))
        (Or.inr (elements_relabel hin hne))
      exact Or.inr (mem_within.mpr (Or.inl hbrought))
  | @absorb package hpackage =>
    have hbrought : ∀ x ∈ package.copy.gather Contents.references,
        x ∈ (stage.frame.scope.merge package.copy).elements := by
      intro x hx
      exact Scope.elements_merge (h.sound _ (shelf_mem_roots hpackage)).copy.tidy
        (h.children_keep hpackage) (Or.inr (h.package_closed hordered hpackage hx))
    refine h.closed.replace (helements rfl rfl) fun x hx => ?_
    rcases Scope.mem_gather_merge hx with hself | hown | hin
    · rcases Contents.references_merge hself with hpackaged | hown
      · exact Or.inr (mem_within.mpr (Or.inl
          (hbrought x (Scope.mem_gather_iff.mpr (Or.inl hpackaged)))))
      · exact Or.inl (Scope.mem_gather_iff.mpr (Or.inl hown))
    · exact Or.inl hown
    · exact Or.inr (mem_within.mpr (Or.inl (hbrought x hin)))

theorem Linked.callers_step (h : stage.Linked idOf) (hmove : Move idOf stage next) :
    ∀ caller ∈ next.callers, Closed ((caller.1 :: caller.2).map Frame.scope) := by
  cases hmove with
  | suspend =>
    intro caller hcaller
    rcases List.mem_cons.mp hcaller with rfl | hold
    · exact h.closed
    · exact h.callers caller hold
  | resume hwaiting houter hcallers =>
    intro caller hcaller
    refine h.callers caller ?_
    rw [hcallers]
    exact List.mem_cons_of_mem _ hcaller
  | _ => exact h.callers

theorem Linked.shelf_step (h : stage.Linked idOf) (hmove : Move idOf stage next) :
    ∀ package ∈ next.shelf, Closed [package] := by
  cases hmove with
  | resume hwaiting houter hcallers =>
    intro package hpackage
    rcases List.mem_cons.mp hpackage with rfl | hold
    · have hclosed := h.closed
      unfold reach outerScopes at hclosed
      rw [houter] at hclosed
      exact hclosed
    · exact h.shelf package hold
  | _ => exact h.shelf

end Closing

theorem Linked.step (hinj : Function.Injective idOf) (h : stage.Linked idOf)
    (hordered : stage.Ordered idOf) (hmove : Move idOf stage next) : next.Linked idOf where
  sound := h.sound_step hmove
  waiting := h.waiting_step hmove
  inner := h.inner_step hinj hordered hmove
  alike := h.alike_step hinj hordered hmove
  ready := h.ready_step hinj hmove
  closed := h.closed_step hinj hordered hmove
  callers := h.callers_step hmove
  shelf := h.shelf_step hmove

theorem linked_start (idOf : Nat → String) (issued : Nat) :
    (Stage.start idOf issued []).Linked idOf := by
  have hroots : ∀ root ∈ (Stage.start idOf issued []).roots,
      root = .ofContents { id := idOf issued } := fun _ hroot => List.mem_singleton.mp hroot
  have hknown : (Stage.start idOf issued []).known = [] := rfl
  constructor
  case sound =>
    intro root hroot
    rw [hroots root hroot]
    exact Scope.sound_ofContents rfl rfl
  case waiting =>
    intro frame hframe id hid
    rw [List.mem_singleton.mp hframe] at hid
    cases hid
  case inner =>
    intro part hpart
    cases hpart
  case alike =>
    intro first hfirst
    cases hfirst
  case ready =>
    intro id hid
    cases hid
  case closed => exact closed_nil.open rfl
  case callers =>
    intro caller hcaller
    cases hcaller
  case shelf =>
    intro package hpackage
    cases hpackage

/-- Those who wait for a package may be forgotten. -/
theorem Linked.forget (h : stage.Linked idOf) :
    Stage.Linked idOf { stage with callers := [] } := by
  have hothers : ∀ frame ∈ ({ stage with callers := [] } : Stage).others,
      frame ∈ stage.others := by
    intro frame hframe
    exact List.mem_append_left _ ((List.append_nil stage.outer) ▸ hframe)
  have hroots : ∀ root ∈ ({ stage with callers := [] } : Stage).roots, root ∈ stage.roots := by
    intro root hroot
    rcases mem_roots.mp hroot with rfl | hother | hshelf
    · exact frame_mem_roots stage
    · obtain ⟨frame, hframe, rfl⟩ := List.mem_map.mp hother
      exact others_mem_roots (hothers frame hframe)
    · exact shelf_mem_roots hshelf
  have hknown : ∀ part ∈ ({ stage with callers := [] } : Stage).known, part ∈ stage.known := by
    intro part hpart
    obtain ⟨root, hroot, hin⟩ := List.mem_flatMap.mp hpart
    exact inner_known (hroots root hroot) hin
  constructor
  case sound => exact fun root hroot => h.sound root (hroots root hroot)
  case waiting =>
    intro frame hframe
    rcases List.mem_cons.mp hframe with rfl | hother
    · exact h.waiting _ (List.mem_cons_self ..)
    · exact h.waiting frame (List.mem_cons_of_mem _ (hothers frame hother))
  case inner =>
    intro part hpart
    obtain ⟨hnumbered, houtside⟩ := h.inner part (hknown part hpart)
    exact ⟨hnumbered, fun hmem => houtside (List.map_subset _ hroots hmem)⟩
  case alike =>
    exact fun first hfirst second hsecond =>
      h.alike first (hknown first hfirst) second (hknown second hsecond)
  case ready => exact h.ready
  case closed => exact h.closed
  case callers =>
    intro caller hcaller
    cases hcaller
  case shelf => exact h.shelf

/-- At every stage that can be reached all references are to elements that are there. -/
theorem linked_of_reachable (hinj : Function.Injective idOf) (h : Reachable idOf stage) :
    stage.Linked idOf := by
  induction h with
  | first issued => exact linked_start idOf issued
  | move hreachable hmove ih => exact ih.step hinj (hreachable.ordered hinj) hmove
  | @next stage hreachable ih =>
    exact (ih.step hinj (hreachable.ordered hinj) (.suspend stage)).forget

end Stage

section Compiled

/-- The id of a vertex somewhere in the scope, of a scope in it or of the scope itself. -/
def IsElement (scope : Scope) (id : String) : Prop :=
  ∃ part ∈ scope.all,
    part.id = id ∨ ∃ vertex ∈ part.contents.vertices.values, vertex.id = id

/-- Every edge of a part leads into that part, and all that an edge leads out of or a variable
stands for is an element of the scope. -/
structure Resolved (scope part : Scope) : Prop where
  targets : ∀ edge ∈ part.contents.edges.values,
    edge.target ∈ part.contents.vertices.keys ∨ ∃ child ∈ part.children, child.id = edge.target
  sources : ∀ edge ∈ part.contents.edges.values, IsElement scope edge.source
  values : ∀ id ∈ part.contents.variableIds.values, IsElement scope id

theorem isElement_of_mem {scope : Scope} (hsound : scope.Sound) {id : String}
    (h : id ∈ scope.elements) : IsElement scope id := by
  obtain ⟨part, hpart, hid⟩ := Scope.mem_elements.mp h
  refine ⟨part, hpart, ?_⟩
  rcases hid with rfl | hkey
  · exact Or.inl rfl
  · exact Or.inr (List.mem_map.mp ((hsound part hpart).key_mem hkey))

/-- Nothing in what is compiled refers to something that is not there, whatever packages are
brought in and whatever is in the cache. -/
theorem references_resolved (hinj : Function.Injective idOf) (hne : ∀ n, idOf n ≠ "")
    {world : World} (hworld : Session idOf world) (library : Library) (source filename : String)
    (chain : List String) :
    let scope := ((Compiler.mk idOf library).compile source filename chain world).1.scope
    ∀ part ∈ scope.all, Resolved scope part := by
  intro scope part hpart
  obtain ⟨stage, hreachable, houter, -, hscope⟩ :=
    hworld.compiled hne library source filename chain
  have hlinked := Stage.linked_of_reachable hinj hreachable
  have hsound : scope.Sound := by
    have hframe := hlinked.sound _ (Stage.frame_mem_roots stage)
    rwa [hscope] at hframe
  have hclosed : Closed [scope] := by
    have hreach := hlinked.closed
    unfold Stage.reach Stage.outerScopes at hreach
    rwa [houter, hscope] at hreach
  have hreference : ∀ x ∈ part.contents.references, IsElement scope x := by
    intro x hx
    have hin := hclosed x (List.mem_flatMap.mpr ⟨scope, List.mem_singleton_self _,
      Scope.mem_gather.mpr ⟨part, hpart, hx⟩⟩)
    rw [List.flatMap_singleton] at hin
    exact isElement_of_mem hsound hin
  constructor
  case targets =>
    intro edge hedge
    exact ((hsound part hpart).targets edge hedge).imp (fun hkey => hkey) List.mem_map.mp
  case sources =>
    intro edge hedge
    exact hreference _ (List.mem_append_left _ (List.mem_map_of_mem hedge))
  case values =>
    intro id hid
    exact hreference _ (List.mem_append_right _ hid)

theorem references_resolved_tally :
    let scope := ((Compiler.mk tally (.ofStored {})).compile "a = f(g())" "main.fiz" [] {}).1.scope
    ∀ part ∈ scope.all, Resolved scope part :=
  references_resolved tally_injective tally_ne_empty .begin _ _ _ _

end Compiled

end RecipeGraph.Compile
