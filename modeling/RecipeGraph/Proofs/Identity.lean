import RecipeGraph.Proofs.References

/-!
What an id stands for. An id is given out once, to a scope or to a vertex, and never comes to
stand for anything else. A copy keeps ids only together with all that they stand for, and a
package brought in as a child gets an id of its own.
-/
namespace RecipeGraph

open RecipeGraph.Graph

/-- What a scope has ids for: itself, and its vertices. -/
def Graph.Contents.holdings (contents : Contents) : List (String × Option Vertex) :=
  (contents.id, none) :: contents.vertices.values.map fun vertex => (vertex.id, some vertex)

section Holdings

variable {contents other : Contents} {entry : String × Option Vertex}

theorem Graph.Contents.mem_holdings : entry ∈ contents.holdings ↔ entry = (contents.id, none) ∨
    ∃ vertex ∈ contents.vertices.values, entry = (vertex.id, some vertex) := by
  unfold holdings
  rw [List.mem_cons, List.mem_map]
  simp only [eq_comm]

theorem Graph.Contents.holdings_addVertex {vertex : Vertex}
    (h : entry ∈ (contents.addVertex vertex).holdings) :
    entry = (vertex.id, some vertex) ∨ entry ∈ contents.holdings := by
  rcases mem_holdings.mp h with hself | ⟨held, hheld, heq⟩
  · exact Or.inr (mem_holdings.mpr (Or.inl hself))
  · rcases OrderedMap.mem_values_insert hheld with rfl | hold
    · exact Or.inl heq
    · exact Or.inr (mem_holdings.mpr (Or.inr ⟨held, hold, heq⟩))

theorem Graph.Contents.holdings_merge (h : entry ∈ (contents.merge other).holdings) :
    entry ∈ other.holdings ∨ entry ∈ contents.holdings := by
  rcases mem_holdings.mp h with hself | ⟨vertex, hvertex, heq⟩
  · rw [id_merge] at hself
    exact Or.inr (mem_holdings.mpr (Or.inl hself))
  · exact (mem_vertexValues_merge hvertex).imp
      (fun hin => mem_holdings.mpr (Or.inr ⟨vertex, hin, heq⟩))
      (fun hown => mem_holdings.mpr (Or.inr ⟨vertex, hown, heq⟩))

end Holdings

namespace Compile

open Recipe Package

variable {idOf : Nat → String}

namespace Stage

/-- No id stands for two things. -/
structure Registered (idOf : Nat → String) (stage : Stage) : Prop where
  numbered : ∀ entry ∈ stage.collect Contents.holdings, Numbered idOf stage.issued entry.1
  single : ∀ first ∈ stage.collect Contents.holdings, ∀ second ∈ stage.collect Contents.holdings,
    first.1 = second.1 → first.2 = second.2

variable {stage next : Stage}

/-- A move gives out at most one id, and that is the next one. -/
theorem holdings_step (hmove : Move idOf stage next) :
    ∃ fresh : Option (String × Option Vertex),
      (∀ entry ∈ fresh, entry.1 = idOf stage.issued ∧ stage.issued < next.issued) ∧
      ∀ entry ∈ next.collect Contents.holdings,
        entry ∈ fresh ∨ entry ∈ stage.collect Contents.holdings := by
  have hnothing : next.collect Contents.holdings ⊆ stage.collect Contents.holdings →
      ∃ fresh : Option (String × Option Vertex),
        (∀ entry ∈ fresh, entry.1 = idOf stage.issued ∧ stage.issued < next.issued) ∧
        ∀ entry ∈ next.collect Contents.holdings,
          entry ∈ fresh ∨ entry ∈ stage.collect Contents.holdings := by
    intro hsubset
    exact ⟨none, fun _ hnone => absurd hnone (Option.not_mem_none _),
      fun entry hentry => Or.inr (hsubset hentry)⟩
  have hsomething : ∀ value, stage.issued < next.issued →
      (∀ entry ∈ next.collect Contents.holdings,
        entry = (idOf stage.issued, value) ∨ entry ∈ stage.collect Contents.holdings) →
      ∃ fresh : Option (String × Option Vertex),
        (∀ entry ∈ fresh, entry.1 = idOf stage.issued ∧ stage.issued < next.issued) ∧
        ∀ entry ∈ next.collect Contents.holdings,
          entry ∈ fresh ∨ entry ∈ stage.collect Contents.holdings := by
    intro value hissued hsubset
    refine ⟨some (idOf stage.issued, value), ?_, ?_⟩
    · rintro entry hentry
      cases hentry
      exact ⟨rfl, hissued⟩
    · intro entry hentry
      refine (hsubset entry hentry).imp ?_ id
      rintro rfl
      exact Option.mem_some_self _
  cases hmove with
  | vertex name look =>
    refine hsomething (some ⟨idOf stage.issued, name, look⟩) (Nat.lt_succ_self _) ?_
    intro entry hentry
    rcases collect_edit hentry with hnew | hold
    · refine (Contents.holdings_addVertex hnew).imp_right fun hown => ?_
      exact collect_of_root (frame_mem_roots stage) (Scope.mem_gather_iff.mpr (Or.inl hown))
    · exact Or.inr hold
  | edge | bind => exact hnothing (collect_edit_same fun _ => rfl)
  | settle | refer | drop => exact hnothing (List.Subset.refl _)
  | adorn adornment =>
    refine hnothing (collect_edit_same fun contents => ?_)
    unfold Contents.holdings
    rw [adornment.id_apply, adornment.vertices_apply]
  | enter | suspend =>
    refine hsomething none (Nat.lt_succ_self _) fun entry hentry => ?_
    exact (collect_opened stage hentry rfl rfl rfl).imp_left List.mem_singleton.mp
  | leave hwaiting houter => exact hnothing (collect_leave rfl (others_of_outer houter) rfl)
  | resume hwaiting houter hcallers =>
    exact hnothing (collect_resume (others_of_callers houter hcallers) rfl)
  | @adopt package hpackage name =>
    refine hsomething none (Nat.lt_succ_self _) fun entry hentry => ?_
    rcases collect_relabeled hpackage hentry with hself | hold
    · refine (Contents.mem_holdings.mp hself).imp_right ?_
      rintro ⟨vertex, hvertex, rfl⟩
      exact collect_of_root (shelf_mem_roots hpackage) (Scope.mem_gather_iff.mpr
        (Or.inl (Contents.mem_holdings.mpr (Or.inr ⟨vertex, hvertex, rfl⟩))))
    · exact Or.inr hold
  | absorb hpackage =>
    exact hnothing (collect_absorb hpackage fun _ _ _ => Contents.holdings_merge)

theorem Registered.step (hinj : Function.Injective idOf) (h : stage.Registered idOf)
    (hmove : Move idOf stage next) : next.Registered idOf := by
  obtain ⟨fresh, hfresh, hsubset⟩ := holdings_step hmove
  constructor
  case numbered =>
    intro entry hentry
    rcases hsubset entry hentry with hnew | hold
    · obtain ⟨hid, hissued⟩ := hfresh entry hnew
      exact ⟨stage.issued, hissued, hid⟩
    · exact (h.numbered entry hold).mono (issued_step hmove)
  case single =>
    intro first hfirst second hsecond hid
    rcases hsubset first hfirst with hnew | hold
    · rcases hsubset second hsecond with hnew' | hold'
      · rw [Option.mem_unique hnew hnew']
      · exact absurd (hid.symm.trans (hfresh first hnew).1)
          ((h.numbered second hold').ne_next hinj)
    · rcases hsubset second hsecond with hnew' | hold'
      · exact absurd (hid.trans (hfresh second hnew').1) ((h.numbered first hold).ne_next hinj)
      · exact h.single first hold second hold' hid

theorem registered_start (idOf : Nat → String) (issued : Nat) :
    (Stage.start idOf issued []).Registered idOf := by
  have hentries : ∀ entry ∈ (Stage.start idOf issued []).collect Contents.holdings,
      entry = (idOf issued, none) := fun _ hentry => List.mem_singleton.mp hentry
  constructor
  case numbered =>
    intro entry hentry
    rw [hentries entry hentry]
    exact numbered_next idOf issued
  case single =>
    intro first hfirst second hsecond _
    rw [hentries first hfirst, hentries second hsecond]

theorem registered_of_reachable (hinj : Function.Injective idOf) (h : Reachable idOf stage) :
    stage.Registered idOf := by
  induction h with
  | first issued => exact registered_start idOf issued
  | move _ hmove ih => exact ih.step hinj hmove
  | @next stage _ ih =>
    have hsuspended := ih.step hinj (.suspend stage)
    have hkept : (Stage.start idOf stage.issued stage.shelf).collect Contents.holdings ⊆
        Stage.collect Contents.holdings { Stage.start idOf stage.issued stage.shelf with
          callers := (stage.frame, stage.outer) :: stage.callers } := by
      intro entry hentry
      obtain ⟨root, hroot, hin⟩ := mem_collect.mp hentry
      refine collect_of_root (mem_roots.mpr ?_) hin
      rcases mem_roots.mp hroot with rfl | hother | hmem
      · exact Or.inl rfl
      · cases hother
      · exact Or.inr (Or.inr hmem)
    exact ⟨fun entry hentry => hsuspended.numbered entry (hkept hentry),
      fun first hfirst second hsecond =>
        hsuspended.single first (hkept hfirst) second (hkept hsecond)⟩

end Stage

end Compile

end RecipeGraph
