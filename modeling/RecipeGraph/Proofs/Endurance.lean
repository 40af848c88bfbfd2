import RecipeGraph.Proofs.Stability

/-!
No scope of a text is ever lost. A scope under construction becomes a part of the one around it, and
whatever takes the place of a part is a copy of it. So each part is there at the end, with all that
it held before, and every part of the same id is a copy.
-/
namespace RecipeGraph

open RecipeGraph.Graph

namespace Graph.Scope

variable {before after scope part : Scope}

theorem all_copy (h : scope.DistinctIds) : scope.copy.all = scope.all.map copy := by
  induction scope using Scope.induction with
  | step contents names children ih =>
    have hparts : (children.map copy).flatMap all = (children.flatMap all).map copy := by
      rw [List.flatMap_map, List.map_flatMap]
      exact List.flatMap_congr fun child hchild => ih child hchild (h.of_child hchild)
    rw [all_eq, all_eq (mk _ _ _), children_copy h, children_mk, allOf_eq_flatMap,
      allOf_eq_flatMap, hparts, List.map_cons]

/-- The part holds all that it held before, or more. -/
def Holds (part scope : Scope) : Prop :=
  ∃ same ∈ scope.all, part.contents.Extends same.contents

theorem Extends.holds (h : before.Extends after) (hbefore : before.DistinctIds)
    (hafter : after.DistinctIds) (hpart : part ∈ before.all) : part.Holds after := by
  rcases mem_all.mp hpart with rfl | ⟨child, hchild, hin⟩
  · exact ⟨after, self_mem_all after, h.contents⟩
  · obtain ⟨child', hchild', hcopy⟩ :=
      List.mem_map.mp (h.children.subset (List.mem_map_of_mem hchild))
    have hcopied : part.copy ∈ child'.copy.all := by
      rw [hcopy, all_copy (hbefore.of_child hchild)]
      exact List.mem_map_of_mem hin
    obtain ⟨same, hsame, heq⟩ := mem_all_copy (hafter.of_child hchild') hcopied
    refine ⟨same, mem_all_of_child hchild' hsame, ?_⟩
    rw [← contents_copy part, heq, contents_copy]
    exact .refl _

end Graph.Scope

namespace Compile.Stage

variable {idOf : Nat → String} {stage next : Stage}

/-- The scopes under construction of the text that is not asked for by any other. -/
def own (stage : Stage) : List Scope :=
  match stage.callers.getLast? with
  | none => stage.frame.scope :: stage.outer.map Frame.scope
  | some (frame, outer) => frame.scope :: outer.map Frame.scope

/-- The part is in one of the scopes under construction, with all that it held before. -/
def Keeps (stage : Stage) (part : Scope) : Prop :=
  ∃ scope ∈ stage.own, part.Holds scope

theorem own_subset_roots (stage : Stage) : stage.own ⊆ stage.roots := by
  intro scope hscope
  unfold own at hscope
  unfold roots others
  rw [List.map_append]
  cases hlast : stage.callers.getLast? with
  | none =>
    rw [hlast] at hscope
    rcases List.mem_cons.mp hscope with rfl | houter
    · exact List.mem_append_left _ (List.mem_cons_self ..)
    · exact List.mem_append_left _ (List.mem_cons_of_mem _ (List.mem_append_left _ houter))
  | some caller =>
    rw [hlast] at hscope
    have hcaller : scope ∈ (caller.1 :: caller.2).map Frame.scope := hscope
    obtain ⟨frame, hframe, rfl⟩ := List.mem_map.mp hcaller
    refine List.mem_append_left _ (List.mem_cons_of_mem _ (List.mem_append_right _ ?_))
    exact List.mem_map_of_mem
      (List.mem_flatMap.mpr ⟨caller, List.mem_of_getLast? hlast, hframe⟩)

theorem Keeps.of_mem {scope part : Scope} (hscope : scope ∈ stage.own) (hpart : part ∈ scope.all) :
    stage.Keeps part :=
  ⟨scope, hscope, part, hpart, .refl _⟩

/-- What the text has under construction is kept when its frames shift, and while it waits. -/
theorem Shift.keeps (h : Shift stage next) (hdistinct : ∀ scope ∈ stage.own, scope.DistinctIds)
    (hdistinct' : ∀ scope ∈ next.own, scope.DistinctIds) :
    ∀ scope ∈ stage.own, ∀ part ∈ scope.all, next.Keeps part := by
  intro scope hscope part hpart
  have hstay : stage.own = next.own → next.Keeps part :=
    fun hsame => .of_mem (hsame ▸ hscope) hpart
  cases h with
  | adds houter hcallers h =>
    cases hlast : stage.callers.getLast? with
    | some caller => exact hstay (by unfold own; rw [hcallers, hlast])
    | none =>
      have hown : stage.own = stage.frame.scope :: stage.outer.map Frame.scope := by
        unfold own
        rw [hlast]
      have hown' : next.own = next.frame.scope :: stage.outer.map Frame.scope := by
        unfold own
        rw [hcallers, hlast, houter]
      rw [hown] at hscope hdistinct
      rw [hown'] at hdistinct'
      rcases List.mem_cons.mp hscope with rfl | hmem
      · refine ⟨next.frame.scope, hown' ▸ List.mem_cons_self .., ?_⟩
        exact h.holds (hdistinct _ (List.mem_cons_self ..)) (hdistinct' _ (List.mem_cons_self ..))
          hpart
      · exact .of_mem (hown' ▸ List.mem_cons_of_mem _ hmem) hpart
  | opens houter hcallers =>
    cases hlast : stage.callers.getLast? with
    | some caller => exact hstay (by unfold own; rw [hcallers, hlast])
    | none =>
      have hown' : next.own = next.frame.scope :: stage.own := by
        unfold own
        rw [hcallers, hlast, houter]
        rfl
      exact .of_mem (hown' ▸ List.mem_cons_of_mem _ hscope) hpart
  | @closes around houter hcallers hscope' h =>
    cases hlast : stage.callers.getLast? with
    | some caller => exact hstay (by unfold own; rw [hcallers, hlast])
    | none =>
      have hown : stage.own =
          stage.frame.scope :: around.scope :: next.outer.map Frame.scope := by
        unfold own
        rw [hlast, houter]
        rfl
      have hown' : next.own = next.frame.scope :: next.outer.map Frame.scope := by
        unfold own
        rw [hcallers, hlast]
      rw [hown] at hscope hdistinct
      rw [hown'] at hdistinct'
      have hhere : next.frame.scope ∈ next.own := hown' ▸ List.mem_cons_self ..
      rcases List.mem_cons.mp hscope with rfl | hmem
      · have hchild : stage.frame.scope ∈ next.frame.scope.children :=
          hscope' ▸ Scope.self_mem_placeChild _ _
        exact .of_mem hhere (Scope.mem_all_of_child hchild hpart)
      · rcases List.mem_cons.mp hmem with rfl | hfurther
        · exact ⟨_, hhere, h.holds (hdistinct _ (List.mem_cons_of_mem _ (List.mem_cons_self ..)))
            (hdistinct' _ (List.mem_cons_self ..)) hpart⟩
        · exact .of_mem (hown' ▸ List.mem_cons_of_mem _ hfurther) hpart
  | suspends houter hcallers =>
    refine hstay ?_
    unfold own
    rw [hcallers, List.getLast?_cons]
    cases stage.callers.getLast? with
    | none => rfl
    | some caller => rfl
  | resumes houter hcallers =>
    refine hstay ?_
    unfold own
    rw [hcallers, List.getLast?_cons]
    cases next.callers.getLast? with
    | none => rfl
    | some caller => rfl

theorem keeps_run (hinj : Function.Injective idOf) (h : Reachable idOf stage)
    (hrun : Run idOf stage next) {part : Scope} (hpart : stage.Keeps part) : next.Keeps part := by
  have hdistinct : ∀ {stage : Stage}, Reachable idOf stage → ∀ scope ∈ stage.own,
      scope.DistinctIds := fun hreachable scope hscope =>
    ((linked_of_reachable hinj hreachable).sound scope
      (own_subset_roots _ hscope)).distinctIds
  induction hrun with
  | refl => exact hpart
  | tail hrun hmove ih =>
    obtain ⟨scope, hscope, same, hsame, hextends⟩ := ih
    have hreachable := h.run hrun
    obtain ⟨scope', hscope', last, hlast, hextends'⟩ :=
      (shift_step hinj hreachable hmove).keeps (hdistinct hreachable)
        (hdistinct (hreachable.move hmove)) scope hscope same hsame
    exact ⟨scope', hscope', last, hlast, hextends.trans hextends'⟩

/-- Parts of one id in one scope hold the same by themselves. -/
theorem contents_eq_of_id (hinj : Function.Injective idOf) (h : Reachable idOf stage)
    {root first second : Scope} (hroot : root ∈ stage.roots) (hfirst : first ∈ root.all)
    (hsecond : second ∈ root.all) (hid : first.id = second.id) :
    first.contents = second.contents := by
  have hlinked := linked_of_reachable hinj h
  have halone : ∀ part ∈ root.inner, part.id ≠ root.id := fun part hpart hsame =>
    (hlinked.inner part (inner_known hroot hpart)).2 (hsame ▸ List.mem_map_of_mem hroot)
  rcases Scope.mem_all.mp hfirst with rfl | hin
  · rcases Scope.mem_all.mp hsecond with rfl | hin'
    · rfl
    · exact absurd hid.symm (halone second (Scope.mem_inner.mpr hin'))
  · rcases Scope.mem_all.mp hsecond with rfl | hin'
    · exact absurd hid (halone first (Scope.mem_inner.mpr hin))
    · rw [← Scope.contents_copy first, ← Scope.contents_copy second,
        same_copy hinj h first (inner_known hroot (Scope.mem_inner.mpr hin)) second
          (inner_known hroot (Scope.mem_inner.mpr hin')) hid]

end Compile.Stage

end RecipeGraph
