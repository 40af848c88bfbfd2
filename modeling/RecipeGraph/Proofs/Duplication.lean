import RecipeGraph.Proofs.Forest
import Mathlib.Data.List.Perm.Subperm

/-!
How deep copying goes. A way below a member that leads into no circle passes nobody twice, so that
it is no longer than there are members. Copying leaves the members that there were where they
are, and never gets to the depth at which it would stop.
-/
namespace RecipeGraph.Graph.Hierarchy

variable {h acc : Hierarchy} {n k m p : Nat} {way : List Nat} {member : Member} {id : String}
  {fuel : Nat}

theorem Descends.from_child (hholds : h.Holds n id k) (hway : h.Descends k way m) :
    h.Descends n (k :: way) m := by
  induction hway with
  | here => exact Descends.here.down hholds
  | down _ hlast ih => exact ih.down hlast

theorem CircleFree.of_child (hfree : h.CircleFree n) (hholds : h.Holds n id k) :
    h.CircleFree k :=
  fun _ m hway => hfree _ m (hway.from_child hholds)

/-- Nobody is passed twice. -/
theorem CircleFree.way_nodup (hfree : h.CircleFree n) (hway : h.Descends n way k) :
    (n :: way).Nodup := by
  induction hway with
  | here => simp
  | @down way m k id hway hholds ih =>
    have hnew : k ∉ n :: way := by
      intro hk
      obtain ⟨before, -, hto⟩ := hway.prior hk
      obtain ⟨rest, hback⟩ := hway.onward hk
      exact absurd (hfree before k hto _ (hback.down hholds)) (by simp)
    rw [← List.cons_append, ← List.concat_eq_append, List.nodup_concat]
    exact ⟨hnew, ih⟩

theorem Linked.lt_of_descends (hlinked : h.Linked) (hn : n < h.members.length)
    (hway : h.Descends n way k) : ∀ m ∈ n :: way, m < h.members.length := by
  induction hway with
  | here => simpa using hn
  | down _ hholds ih =>
    obtain ⟨child, hchild, -⟩ := hlinked.held _ _ _ hholds
    have hlt := lt_of_get? hchild
    intro m hm
    rw [← List.cons_append, List.mem_append, List.mem_singleton] at hm
    rcases hm with hbefore | rfl
    · exact ih m hbefore
    · exact hlt

theorem CircleFree.length_lt (hfree : h.CircleFree n) (hlinked : h.Linked)
    (hn : n < h.members.length) (hway : h.Descends n way k) : way.length < h.members.length := by
  have hsub : (n :: way) ⊆ List.range h.members.length :=
    fun m hm => List.mem_range.mpr (hlinked.lt_of_descends hn hway m hm)
  have hle := (List.subperm_of_subset (hfree.way_nodup hway) hsub).length_le
  simp only [List.length_cons, List.length_range] at hle
  omega

/-- The members that there were have the children that they had, and nobody else has one of them
for a parent. -/
structure Apart (h acc : Hierarchy) : Prop where
  size : h.members.length ≤ acc.members.length
  children : ∀ k < h.members.length,
    (acc.get? k).map Member.children = (h.get? k).map Member.children
  parents : ∀ k member p, h.members.length ≤ k → acc.get? k = some member →
    member.parent = some p → h.members.length ≤ p

theorem apart_refl (h : Hierarchy) : Apart h h where
  size := Nat.le_refl _
  children _ _ := rfl
  parents k member p hk hmember := absurd (lt_of_get? hmember) (by omega)

namespace Apart

variable (hapart : Apart h acc)

include hapart

theorem of_sameShape {after : Hierarchy} (hsame : acc.SameShape after)
    (hlength : after.members.length = acc.members.length) : Apart h after where
  size := hlength ▸ hapart.size
  children k hk := by
    rw [← hapart.children k hk]
    have hties := congrArg (Option.map fun ties => ties.2.2) (hsame k)
    simp only [Option.map_map] at hties
    exact hties
  parents k member p hk hmember hparent := by
    obtain ⟨other, hother, -, heq, -⟩ := hsame.find hmember
    exact hapart.parents k other p hk hother (heq.trans hparent)

theorem add (contents : Contents) : Apart h (acc.add contents none) := by
  have hsize := hapart.size
  have henlarged : Apart h (acc.enlarged contents) := by
    refine ⟨?_, ?_, ?_⟩
    · simp only [enlarged, List.length_append, List.length_singleton]
      omega
    · intro k hk
      rw [get?_enlarged, if_neg (by omega), hapart.children k hk]
    · intro k member p hk hmember hparent
      rw [get?_enlarged] at hmember
      split at hmember
      · cases hmember
        simp at hparent
      · exact hapart.parents k member p hk hmember hparent
  exact henlarged.of_sameShape (sameShape_refresh _ _) (length_refresh _ _)

theorem attach (hp : h.members.length ≤ p) (hn : h.members.length ≤ n) :
    Apart h (acc.attach p n) := by
  cases hget : acc.get? n with
  | none => simpa [Hierarchy.attach, hget] using hapart
  | some member =>
    obtain ⟨self, hself, -, hparent, heq⟩ := attach_eq (p := p) hget
    rw [heq]
    refine Apart.of_sameShape ⟨?_, ?_, ?_⟩ (sameShape_refresh _ _) (length_refresh _ _)
    · simpa [taken] using hapart.size
    · intro k hk
      have hstays : self.parent ≠ some k := by
        intro hheld
        have hle := hapart.parents n member k hn hget (hparent.symm.trans hheld)
        omega
      have hpk : p ≠ k := by omega
      rw [get?_reparented, get?_taken, Option.map_map, Option.map_map, ← hapart.children k hk]
      congr 1
      funext other
      simp [hstays, hpk]
    · intro k other q hk hother hq
      rw [get?_reparented, get?_taken, Option.map_map] at hother
      obtain ⟨before, hbefore, rfl⟩ := Option.map_eq_some_iff.mp hother
      by_cases hnk : n = k
      · have hpq : p = q := by simpa [hnk] using hq
        omega
      · refine hapart.parents k before q hk hbefore ?_
        by_cases hpk : p = k <;> simpa [hnk, hpk, Member.place] using hq

theorem copyWithin (fuel n : Nat) : Apart h (copyWithin fuel acc n) := by
  induction fuel generalizing acc n with
  | zero => exact hapart
  | succ fuel ih =>
    unfold Hierarchy.copyWithin
    cases acc.get? n with
    | none => exact hapart
    | some member =>
      have hmade := hapart.add member.contents
      have hbase := hapart.size
      dsimp only
      generalize acc.members.length = first at hbase ⊢
      generalize acc.add member.contents none = made at hmade ⊢
      induction member.children.values generalizing made with
      | nil => exact hmade
      | cons child rest ihRest => exact ihRest _ ((ih hmade child).attach hbase hmade.size)

theorem get?_some (hmember : acc.get? n = some member) (hn : n < h.members.length) :
    ∃ other, h.get? n = some other ∧ other.children = member.children := by
  have hchildren := hapart.children n hn
  rw [hmember, Option.map_some] at hchildren
  exact Option.map_eq_some_iff.mp hchildren.symm

end Apart

/-- More depth makes no difference when all ways below are shorter. -/
theorem copyWithin_add (hlinked : h.Linked) (hapart : Apart h acc) (hn : n < h.members.length)
    (hshort : ∀ way k, h.Descends n way k → way.length < fuel) (extra : Nat) :
    copyWithin (fuel + extra) acc n = copyWithin fuel acc n := by
  induction fuel generalizing acc n with
  | zero => exact absurd (hshort [] n .here) (by simp)
  | succ fuel ih =>
    rw [Nat.succ_add]
    unfold copyWithin
    cases hget : acc.get? n with
    | none => rfl
    | some member =>
      obtain ⟨other, hother, hchildren⟩ := hapart.get?_some hget hn
      have hmade := hapart.add member.contents
      have hbase := hapart.size
      have hheld : ∀ child ∈ member.children.values, ∃ id, h.Holds n id child := by
        intro child hchild
        obtain ⟨id, hid⟩ := OrderedMap.mem_values.mp hchild
        exact ⟨id, other, hother, hchildren ▸ hid⟩
      dsimp only
      generalize acc.members.length = first at hbase ⊢
      generalize acc.add member.contents none = made at hmade ⊢
      generalize member.children.values = children at hheld ⊢
      induction children generalizing made with
      | nil => rfl
      | cons child rest ihRest =>
        obtain ⟨id, hholds⟩ := hheld child (by simp)
        obtain ⟨found, hfound, -⟩ := hlinked.held n id child hholds
        have hsame := ih hmade (lt_of_get? hfound) fun way k hway => by
          have hlonger := hshort _ k (hway.from_child hholds)
          simpa using hlonger
        rw [List.foldl_cons, List.foldl_cons, hsame]
        exact ihRest _ ((hmade.copyWithin fuel child).attach hbase hmade.size)
          fun other hmem => hheld other (by simp [hmem])

/-- A copy is never cut short. -/
theorem copyWithin_eq_copy (hlinked : h.Linked) (hfree : h.CircleFree n)
    (hfuel : h.members.length < fuel) : copyWithin fuel h n = h.copy n := by
  by_cases hn : n < h.members.length
  · obtain ⟨extra, rfl⟩ := Nat.exists_eq_add_of_le hfuel
    refine copyWithin_add hlinked (apart_refl h) hn (fun way k hway => ?_) extra
    have hlt := hfree.length_lt hlinked hn hway
    omega
  · have hnone : h.get? n = none := List.getElem?_eq_none (Nat.le_of_not_lt hn)
    obtain ⟨less, rfl⟩ : ∃ less, fuel = less + 1 := ⟨fuel - 1, by omega⟩
    simp [copy, copyWithin, hnone]

end RecipeGraph.Graph.Hierarchy
