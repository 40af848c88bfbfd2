import RecipeGraph.Proofs.Copies
import RecipeGraph.Proofs.Uniqueness

/-!
The way up from a scope. Ids repeat within a tree, for a package that comes in twice brings its
scopes twice. But scopes of one id are copies of one scope, and a scope has fewer elements than
those around it, so no id repeats on the way up. The guard against going round in a circle
therefore never ends a search.
-/
namespace RecipeGraph

open RecipeGraph.Graph Package

namespace Graph.Scope

variable {root scope part : Scope} {around : List Scope}

/-- A copy is what a copy of it is. -/
theorem copy_copy (h : scope.DistinctIds) : scope.copy.copy = scope.copy := by
  induction scope using Scope.induction with
  | step contents names children ih =>
    have hcopies : (children.map copy).map copy = children.map copy := by
      rw [List.map_map]
      exact List.map_congr_left fun child hchild => ih child hchild (h.of_child hchild)
    rw [copy_eq (copy _), children_copy h, contents_copy, children_mk, hcopies, copy_eq,
      children_mk]

theorem length_elements_lt (h : part ∈ scope.inner) :
    part.elements.length < scope.elements.length := by
  obtain ⟨child, hchild, hin⟩ := mem_inner.mp h
  have hmembers : part.elements.length ≤ scope.members.length := by
    refine ((elements_sublist hin).trans ?_).length_le
    exact (List.sublist_flatten_of_mem (List.mem_map_of_mem hchild)).trans
      (List.sublist_append_right _ _)
  rw [elements_eq scope, List.length_cons]
  omega

theorem Inside.mem_inner (h : Inside root part around) : ∀ scope ∈ around, part ∈ scope.inner := by
  induction h with
  | root =>
    intro scope hnone
    cases hnone
  | @child middle child around _ hchild ih =>
    refine List.forall_mem_cons.mpr ⟨child_mem_inner hchild, fun scope hscope => ?_⟩
    obtain ⟨top, htop, hin⟩ := Scope.mem_inner.mp (ih scope hscope)
    have hbelow : child ∈ middle.all := mem_all_of_child hchild (self_mem_all child)
    exact Scope.mem_inner.mpr ⟨top, htop, mem_all_trans hbelow hin⟩

/-- Where no id comes again the guard has nothing to say. -/
theorem lookUp_eq_findSome? {α : Type} (member : Contents → OrderedMap α) (path : Path)
    {seen : List String} {scopes : List Scope} (hdistinct : (scopes.map id).Nodup)
    (hnew : ∀ scope ∈ scopes, scope.id ∉ seen) :
    lookUp member path seen scopes = scopes.findSome? (·.findBelow member path) := by
  induction scopes generalizing seen with
  | nil => rfl
  | cons scope rest ih =>
    obtain ⟨hself, hrest⟩ := List.nodup_cons.mp hdistinct
    have hlater : ∀ other ∈ rest, other.id ∉ scope.id :: seen := by
      intro other hother hmem
      rcases List.mem_cons.mp hmem with hsame | hseen
      · exact hself (hsame ▸ List.mem_map_of_mem hother)
      · exact hnew other (List.mem_cons_of_mem _ hother) hseen
    unfold lookUp
    rw [if_neg (hnew scope (List.mem_cons_self ..)), List.findSome?_cons, ih hrest hlater]
    cases scope.findBelow member path with
    | some value => rfl
    | none => rfl

end Graph.Scope

namespace Compile

variable {idOf : Nat → String}

namespace Stage

variable {stage : Stage}

/-- Scopes within others that have one id are copies of one scope. -/
theorem same_copy (hinj : Function.Injective idOf) (h : Reachable idOf stage) :
    ∀ first ∈ stage.known, ∀ second ∈ stage.known, first.id = second.id →
      first.copy = second.copy := by
  induction h with
  | first issued =>
    intro first hnone
    cases hnone
  | @move stage next h hmove ih =>
    have hlinked := linked_of_reachable hinj h
    obtain ⟨fresh, hstems, hjoins⟩ := hlinked.stems_step hinj (h.ordered hinj) hmove
    have horigin : ∀ part ∈ next.known, part ∈ fresh ∨
        ∃ original ∈ stage.known, part.id = original.id ∧ part.copy = original.copy := by
      intro part hpart
      refine (hstems part hpart).imp_right ?_
      rintro ⟨original, horiginal, rfl | rfl⟩
      · exact ⟨_, horiginal, rfl, rfl⟩
      · exact ⟨original, horiginal, Scope.id_copy original,
          Scope.copy_copy (hlinked.distinctIds_known horiginal)⟩
    intro first hfirst second hsecond hid
    rcases horigin first hfirst with hnew | ⟨original, horiginal, hid₁, hcopy₁⟩
    · rcases horigin second hsecond with hnew' | ⟨original, horiginal, hid₂, -⟩
      · rw [Option.mem_unique hnew hnew']
      · exact absurd (hid₂.symm.trans hid.symm) ((hjoins first hnew).new original horiginal)
    · rcases horigin second hsecond with hnew | ⟨original', horiginal', hid₂, hcopy₂⟩
      · exact absurd (hid₁.symm.trans hid) ((hjoins second hnew).new original horiginal)
      · have hids : original.id = original'.id := hid₁.symm.trans (hid.trans hid₂)
        exact hcopy₁.trans ((ih original horiginal original' horiginal' hids).trans hcopy₂.symm)
  | @next stage _ ih =>
    have hkept : ∀ part ∈ (Stage.start idOf stage.issued stage.shelf).known,
        part ∈ stage.known := by
      intro part hpart
      obtain ⟨root, hroot, hin⟩ := List.mem_flatMap.mp hpart
      rcases mem_roots.mp hroot with rfl | hother | hshelf
      · cases hin
      · cases hother
      · exact inner_known (shelf_mem_roots hshelf) hin
    exact fun first hfirst second hsecond =>
      ih first (hkept first hfirst) second (hkept second hsecond)

/-- No scope has the id of one that it lies in. -/
theorem id_ne_of_inner (hinj : Function.Injective idOf) (h : Reachable idOf stage)
    {root scope part : Scope} (hroot : root ∈ stage.roots) (hscope : scope ∈ root.all)
    (hpart : part ∈ scope.inner) : part.id ≠ scope.id := by
  intro hid
  have hlinked := linked_of_reachable hinj h
  have hknown : part ∈ stage.known := by
    obtain ⟨top, htop, hin⟩ := Scope.mem_inner.mp hpart
    refine inner_known hroot ?_
    rcases Scope.mem_all.mp hscope with rfl | ⟨child, hchild, hbelow⟩
    · exact hpart
    · have hlow := Scope.mem_all_trans (Scope.inner_subset_all hpart) hbelow
      exact Scope.mem_inner.mpr ⟨child, hchild, hlow⟩
  rcases Scope.mem_all.mp hscope with rfl | ⟨child, hchild, hbelow⟩
  · exact (hlinked.inner part hknown).2 (hid ▸ List.mem_map_of_mem hroot)
  · -- copies of one scope have as many elements as each other
    have haround : scope ∈ stage.known :=
      inner_known hroot (Scope.mem_inner.mpr ⟨child, hchild, hbelow⟩)
    have helements : part.elements = scope.elements := by
      rw [← Scope.elements_copy (hlinked.distinctIds_known hknown),
        ← Scope.elements_copy (hlinked.distinctIds_known haround),
        same_copy hinj h part hknown scope haround hid]
    exact absurd (Scope.length_elements_lt hpart) (helements ▸ Nat.lt_irrefl _)

theorem ids_nodup_around (hinj : Function.Injective idOf) (h : Reachable idOf stage)
    {root part : Scope} {around : List Scope} (hroot : root ∈ stage.roots)
    (hinside : Scope.Inside root part around) : ((part :: around).map Scope.id).Nodup := by
  induction hinside with
  | root => exact List.nodup_singleton _
  | @child scope child around hscope hchild ih =>
    refine List.nodup_cons.mpr ⟨?_, ih⟩
    intro hmem
    obtain ⟨other, hother, hid⟩ := List.mem_map.mp hmem
    have hall : other ∈ root.all :=
      List.forall_mem_cons.mpr ⟨hscope.mem_all, hscope.around_mem_all⟩ other hother
    have hin : child ∈ other.inner := (hscope.child hchild).mem_inner other hother
    exact id_ne_of_inner hinj h hroot hall hin hid.symm

end Stage

/-- No id repeats on the way up from a part of what is finished, and so the value of a path is
the one in the nearest scope that has it; there is none only if no scope up to the root has one. -/
theorem nearest_value_found (hinj : Function.Injective idOf) (hne : ∀ n, idOf n ≠ "")
    {root part : Scope} {around : List Scope} (h : Finished idOf root)
    (hinside : Scope.Inside root part around) :
    ((part :: around).map Scope.id).Nodup ∧
      ∀ {α : Type} (member : Contents → OrderedMap α) (path : Path),
        Scope.lookUp member path [] (part :: around) =
          (part :: around).findSome? (·.findBelow member path) := by
  obtain ⟨stage, hreachable, hroot⟩ := h.is_root hne
  have hdistinct := Stage.ids_nodup_around hinj hreachable hroot hinside
  refine ⟨hdistinct, fun member path => ?_⟩
  exact Scope.lookUp_eq_findSome? member path hdistinct fun _ _ => List.not_mem_nil

/-- One scope is there twice, and from the inner place names around it are found all the same. -/
theorem nearest_value_found_twice :
    let root := ((Compiler.mk tally oneInside).compile "@\"lib.fiz\"\nb @ \"lib.fiz\"\ny = g()"
      "main.fiz" [] {}).1.scope
    ∃ middle ∈ root.children, ∃ part ∈ middle.children, part.id ∈ root.children.map Scope.id ∧
      ([part, middle, root].map Scope.id).Nodup ∧
      Scope.lookUp Contents.variableIds ["a", "x"] [] [part, middle, root] = some (tally 3) ∧
      Scope.lookUp Contents.variableIds ["y"] [] [part, middle, root] = some (tally 5) := by
  intro root
  have hshape : ∃ middle ∈ root.children, ∃ part ∈ middle.children,
      part.id ∈ root.children.map Scope.id ∧
      [part, middle, root].findSome? (·.findBelow Contents.variableIds ["a", "x"]) =
        some (tally 3) ∧
      [part, middle, root].findSome? (·.findBelow Contents.variableIds ["y"]) =
        some (tally 5) := by
    decide +kernel
  obtain ⟨middle, hmiddle, part, hpart, htwice, hx, hy⟩ := hshape
  obtain ⟨hnodup, hfound⟩ := nearest_value_found tally_injective tally_ne_empty
    (.compiled .begin oneInside _ _ []) (.child (.child .root hmiddle) hpart)
  exact ⟨middle, hmiddle, part, hpart, htwice, hnodup, (hfound _ _).trans hx,
    (hfound _ _).trans hy⟩

end Compile

end RecipeGraph
