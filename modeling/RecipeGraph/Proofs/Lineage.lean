import RecipeGraph.Graph.Hierarchy
import RecipeGraph.Proofs.Maps

/-!
Ways down a hierarchy. Where children know who holds them, there is one way at most from the top
to a member, whatever goes in a circle elsewhere. Going up from the member then retraces it, so
that a refresh takes down the ids on the way, for all members that the refreshed one leads to.
-/
namespace RecipeGraph.Graph

/-- What ties a member to others. -/
def Member.ties (member : Member) : String × Option Nat × OrderedMap Nat :=
  (member.id, member.parent, member.children)

/-- What a member knows of where it comes from. -/
def Member.origin (member : Member) : String × Option Nat × List String :=
  (member.id, member.parent, member.lineage)

namespace Hierarchy

/-- A member holds a child under an id. -/
def Holds (h : Hierarchy) (n : Nat) (id : String) (k : Nat) : Prop :=
  ∃ member, h.get? n = some member ∧ (id, k) ∈ member.children.entries

/-- A member that has no parent. -/
def IsTop (h : Hierarchy) (n : Nat) : Prop :=
  ∃ member, h.get? n = some member ∧ member.parent = none

/-- The id of a member. -/
def idAt (h : Hierarchy) (n : Nat) : String :=
  ((h.get? n).map Member.id).getD ""

/-- The members on a way down from child to child, without the one where it starts. -/
inductive Descends (h : Hierarchy) (top : Nat) : List Nat → Nat → Prop
  | here : Descends h top [] top
  | down {way : List Nat} {n k : Nat} {id : String} (hway : Descends h top way n)
      (hholds : h.Holds n id k) : Descends h top (way ++ [k]) k

/-- No id comes twice among the children of a member, and each child is held under its id and
knows who holds it. -/
structure Linked (h : Hierarchy) : Prop where
  distinct : ∀ n member, h.get? n = some member → member.children.Distinct
  held : ∀ n id k, h.Holds n id k →
    ∃ child, h.get? k = some child ∧ child.id = id ∧ child.parent = some n

/-- No member that can be reached from this one lies below itself. -/
def CircleFree (h : Hierarchy) (n : Nat) : Prop :=
  ∀ way k, h.Descends n way k → ∀ way', h.Descends k way' k → way' = []

/-- All members that can be reached from a top know the ids on their way from there. -/
structure Forest (h : Hierarchy) : Prop where
  linked : h.Linked
  lineage : ∀ top way n member, h.IsTop top → h.Descends top way n → h.get? n = some member →
    member.lineage = way.map h.idAt

variable {h h' : Hierarchy} {top top' n k : Nat} {way way' : List Nat} {seen : List Nat}
  {member : Member} {id : String}

theorem mem_childrenOf : k ∈ h.childrenOf n ↔ ∃ id, h.Holds n id k := by
  unfold childrenOf Holds
  cases h.get? n with
  | none => simp
  | some member => simp [OrderedMap.mem_values]

theorem idAt_of_get? (hn : h.get? n = some member) : h.idAt n = member.id := by
  simp [idAt, hn]

theorem lt_of_get? (hn : h.get? n = some member) : n < h.members.length :=
  (List.getElem?_eq_some_iff.mp hn).1

section Ways

namespace Descends

/-- A way passes its members on shorter ways to them. -/
theorem prior (hway : h.Descends top way n) (hk : k ∈ top :: way) :
    ∃ before, before <+: way ∧ h.Descends top before k := by
  induction hway with
  | here =>
    obtain rfl : k = top := by simpa using hk
    exact ⟨[], List.prefix_rfl, .here⟩
  | @down way n j id hway hholds ih =>
    by_cases hj : k = j
    · subst hj
      exact ⟨way ++ [k], List.prefix_rfl, hway.down hholds⟩
    · obtain ⟨before, hbefore, hdown⟩ := ih (by simpa [hj] using hk)
      exact ⟨before, hbefore.trans (List.prefix_append way [j]), hdown⟩

theorem mem_end (hway : h.Descends top way n) : n ∈ top :: way := by
  cases hway with
  | here => simp
  | down => simp

theorem of_childless (hnone : ∀ id k, ¬ h.Holds top id k) (hway : h.Descends top way n) :
    way = [] ∧ n = top := by
  induction hway with
  | here => exact ⟨rfl, rfl⟩
  | down _ hholds ih =>
    obtain ⟨-, rfl⟩ := ih
    exact absurd hholds (hnone _ _)

/-- From every member that it passes a way leads on to its end. -/
theorem onward (hway : h.Descends top way n) (hk : k ∈ top :: way) :
    ∃ rest, h.Descends k rest n := by
  induction hway with
  | here =>
    obtain rfl : k = top := by simpa using hk
    exact ⟨[], .here⟩
  | @down way n j id hway hholds ih =>
    by_cases hj : k = j
    · subst hj
      exact ⟨[], .here⟩
    · obtain ⟨rest, hdown⟩ := ih (by simpa [hj] using hk)
      exact ⟨rest ++ [j], hdown.down hholds⟩

end Descends

namespace Linked

variable (hlinked : h.Linked)

include hlinked

theorem not_top_of_holds (hholds : h.Holds n id k) : ¬ h.IsTop k := by
  rintro ⟨member, hk, hparent⟩
  obtain ⟨child, hchild, -, hheld⟩ := hlinked.held n id k hholds
  obtain rfl : member = child := by simpa [hk] using hchild
  simp [hparent] at hheld

theorem holder_eq {m : Nat} {id' : String} (hholds : h.Holds n id k) (hholds' : h.Holds m id' k) :
    m = n := by
  obtain ⟨child, hchild, -, hheld⟩ := hlinked.held n id k hholds
  obtain ⟨child', hchild', -, hheld'⟩ := hlinked.held m id' k hholds'
  obtain rfl : child = child' := by simpa [hchild] using hchild'
  simpa [hheld] using hheld'.symm

/-- No two ways lead from a top to one member. -/
theorem one_way (htop : h.IsTop top) (htop' : h.IsTop top') (hway : h.Descends top way n)
    (hway' : h.Descends top' way' n) : top' = top ∧ way' = way := by
  induction hway generalizing way' with
  | here =>
    cases hway' with
    | here => exact ⟨rfl, rfl⟩
    | down _ hholds => exact absurd htop (hlinked.not_top_of_holds hholds)
  | down hway hholds ih =>
    cases hway' with
    | here => exact absurd htop' (hlinked.not_top_of_holds hholds)
    | down hway' hholds' =>
      obtain rfl := hlinked.holder_eq hholds hholds'
      obtain ⟨rfl, rfl⟩ := ih hway'
      exact ⟨rfl, rfl⟩

theorem way_nodup (htop : h.IsTop top) (hway : h.Descends top way n) : (top :: way).Nodup := by
  induction hway with
  | here => simp
  | @down way n k id hway hholds ih =>
    have hnew : k ∉ top :: way := by
      intro hk
      obtain ⟨before, hbefore, hshort⟩ := hway.prior hk
      obtain ⟨-, rfl⟩ := hlinked.one_way htop htop (hway.down hholds) hshort
      have hle := hbefore.length_le
      simp only [List.length_append, List.length_singleton] at hle
      omega
    rw [← List.cons_append, ← List.concat_eq_append, List.nodup_concat]
    exact ⟨hnew, ih⟩

end Linked

end Ways

section Upwards

theorem idsUp_of_get? (hnew : n ∉ seen) (hn : h.get? n = some member) :
    h.idsUp seen n = member.id ::
      match member.parent with
      | none => []
      | some parent => h.idsUp (n :: seen) parent := by
  rw [idsUp, dif_neg hnew]
  split
  · rename_i hnone
    simp [hn] at hnone
  · rename_i found hfound
    obtain rfl : member = found := by simpa [hn] using hfound
    rfl

variable (hlinked : h.Linked)

include hlinked

/-- The way up to the top is the way down in reverse. -/
theorem Linked.idsUp_eq (htop : h.IsTop top) (hway : h.Descends top way n)
    (hfree : ∀ m ∈ top :: way, m ∉ seen) :
    h.idsUp seen n = ((top :: way).map h.idAt).reverse := by
  induction hway generalizing seen with
  | here =>
    obtain ⟨member, hmember, hparent⟩ := htop
    rw [idsUp_of_get? (hfree top (by simp)) hmember, hparent]
    simp [idAt_of_get? hmember]
  | @down way n k id hway hholds ih =>
    obtain ⟨child, hchild, -, hparent⟩ := hlinked.held n id k hholds
    have hnodup := hlinked.way_nodup htop (hway.down hholds)
    have hrest : ∀ m ∈ top :: way, m ∉ k :: seen := by
      intro m hm
      have hmk : m ≠ k := by
        rintro rfl
        rw [← List.cons_append, List.nodup_append] at hnodup
        exact hnodup.2.2 m hm m (by simp) rfl
      have hold : m ∉ seen := hfree m (List.mem_append_left [k] hm)
      simp [hmk, hold]
    rw [idsUp_of_get? (hfree k (by simp)) hchild, hparent]
    simp [ih hrest, idAt_of_get? hchild]

theorem Linked.lineageOf_eq (htop : h.IsTop top) (hway : h.Descends top way n) :
    h.lineageOf n = way.map h.idAt := by
  unfold lineageOf
  rw [hlinked.idsUp_eq htop hway (by simp)]
  simp

end Upwards

section Downwards

/-- What is pending is walked through, and so are the children of what is walked through. -/
theorem walk_closed (h : Hierarchy) (seen pending : List Nat) :
    (∀ n ∈ pending, n < h.members.length → n ∈ seen ∨ n ∈ h.walk seen pending) ∧
      ∀ n ∈ h.walk seen pending, ∀ k ∈ h.childrenOf n, k < h.members.length →
        k ∈ seen ∨ k ∈ h.walk seen pending := by
  fun_induction walk h seen pending with
  | case1 seen => simp
  | case2 seen n rest hskip ih =>
    refine ⟨?_, ih.2⟩
    intro m hm hbound
    rcases List.mem_cons.mp hm with rfl | hrest
    · exact Or.inl (hskip.resolve_right (by omega))
    · exact ih.1 m hrest hbound
  | case3 seen n rest hskip ih =>
    have hshift : ∀ m, m ∈ n :: seen ∨ m ∈ h.walk (n :: seen) (h.childrenOf n ++ rest) →
        m ∈ seen ∨ m ∈ n :: h.walk (n :: seen) (h.childrenOf n ++ rest) := by
      intro m hm
      simp only [List.mem_cons] at hm ⊢
      tauto
    constructor
    · intro m hm hbound
      rcases List.mem_cons.mp hm with rfl | hrest
      · simp
      · exact hshift m (ih.1 m (by simp [hrest]) hbound)
    · intro m hm k hk hbound
      rcases List.mem_cons.mp hm with rfl | hwalked
      · exact hshift k (ih.1 k (by simp [hk]) hbound)
      · exact hshift k (ih.2 m hwalked k hk hbound)

theorem Linked.mem_below (hlinked : h.Linked) (hn : n < h.members.length)
    (hway : h.Descends n way k) : k ∈ h.below n := by
  obtain ⟨hpending, hchildren⟩ := walk_closed h [] [n]
  induction hway with
  | here => simpa [below] using hpending n (by simp) hn
  | down _ hholds ih =>
    obtain ⟨child, hchild, -⟩ := hlinked.held _ _ _ hholds
    simpa [below] using
      hchildren _ ih _ (mem_childrenOf.mpr ⟨_, hholds⟩) (lt_of_get? hchild)

end Downwards

section Shape

@[simp] theorem get?_update (h : Hierarchy) (n k : Nat) (f : Member → Member) :
    (h.update n f).get? k = (h.get? k).map fun member => if n = k then f member else member := by
  unfold update get?
  rw [List.getElem?_modify]
  rfl

@[simp] theorem length_update (h : Hierarchy) (n : Nat) (f : Member → Member) :
    (h.update n f).members.length = h.members.length :=
  List.length_modify ..

theorem get?_foldl_update (note : Nat → Member → Member) (ks : List Nat)
    (htwice : ∀ k member, note k (note k member) = note k member) :
    (ks.foldl (fun acc k => acc.update k (note k)) h).get? n =
      (h.get? n).map fun member => if n ∈ ks then note n member else member := by
  induction ks generalizing h with
  | nil => simp
  | cons first rest ih =>
    rw [List.foldl_cons, ih, get?_update, Option.map_map]
    congr 1
    funext member
    by_cases hfirst : first = n
    · subst hfirst
      by_cases hrest : first ∈ rest <;> simp [hrest, htwice]
    · have hne : n ≠ first := Ne.symm hfirst
      simp [hfirst, hne]

theorem get?_refresh (h : Hierarchy) (n k : Nat) :
    (h.refresh n).get? k = (h.get? k).map fun member =>
      if k ∈ h.below n then { member with lineage := h.lineageOf k } else member :=
  get?_foldl_update (fun k member => { member with lineage := h.lineageOf k }) (h.below n)
    fun _ _ => rfl

@[simp] theorem length_refresh (h : Hierarchy) (n : Nat) :
    (h.refresh n).members.length = h.members.length := by
  unfold refresh
  generalize h.lineageOf = lineageOf
  generalize h.below n = ks
  induction ks generalizing h with
  | nil => rfl
  | cons first rest ih => exact (ih _).trans (length_update ..)

/-- The same members with the same ids, parents and children. -/
def SameShape (h h' : Hierarchy) : Prop :=
  ∀ n, (h'.get? n).map Member.ties = (h.get? n).map Member.ties

namespace SameShape

variable (hsame : h.SameShape h')

include hsame

theorem symm : h'.SameShape h :=
  fun n => (hsame n).symm

theorem find (hn : h'.get? n = some member) :
    ∃ other, h.get? n = some other ∧ other.id = member.id ∧ other.parent = member.parent ∧
      other.children = member.children := by
  have hties := hsame n
  rw [hn, Option.map_some] at hties
  obtain ⟨other, hother, heq⟩ := Option.map_eq_some_iff.mp hties.symm
  simp only [Member.ties, Prod.mk.injEq] at heq
  exact ⟨other, hother, heq⟩

theorem idAt_eq (n : Nat) : h'.idAt n = h.idAt n := by
  have hid := congrArg (Option.map Prod.fst) (hsame n)
  simp only [Option.map_map] at hid
  exact congrArg (·.getD "") hid

theorem holds (hholds : h'.Holds n id k) : h.Holds n id k := by
  obtain ⟨member, hn, hmem⟩ := hholds
  obtain ⟨other, hother, -, -, hchildren⟩ := hsame.find hn
  exact ⟨other, hother, hchildren ▸ hmem⟩

theorem isTop (htop : h'.IsTop n) : h.IsTop n := by
  obtain ⟨member, hn, hparent⟩ := htop
  obtain ⟨other, hother, -, heq, -⟩ := hsame.find hn
  exact ⟨other, hother, heq.trans hparent⟩

theorem descends (hway : h'.Descends top way n) : h.Descends top way n := by
  induction hway with
  | here => exact .here
  | down _ hholds ih => exact ih.down (hsame.holds hholds)

theorem linked (hlinked : h.Linked) : h'.Linked where
  distinct n member hn := by
    obtain ⟨other, hother, -, -, hchildren⟩ := hsame.find hn
    exact hchildren ▸ hlinked.distinct n other hother
  held n id k hholds := by
    obtain ⟨other, hother, hid, hparent⟩ := hlinked.held n id k (hsame.holds hholds)
    obtain ⟨child, hchild, hid', hparent', -⟩ := hsame.symm.find hother
    exact ⟨child, hchild, hid'.trans hid, hparent'.trans hparent⟩

end SameShape

theorem sameShape_refresh (h : Hierarchy) (n : Nat) : h.SameShape (h.refresh n) := by
  intro k
  rw [get?_refresh, Option.map_map]
  congr 1
  funext member
  by_cases hk : k ∈ h.below n <;> simp [hk, Member.ties, Member.id]

theorem Forest.of_sameShape (hforest : h.Forest) (hsame : h.SameShape h')
    (hlineage : ∀ n member, h'.get? n = some member →
      ∃ other, h.get? n = some other ∧ other.lineage = member.lineage) : h'.Forest where
  linked := hsame.linked hforest.linked
  lineage top way n member htop hway hn := by
    obtain ⟨other, hother, heq⟩ := hlineage n member hn
    rw [← heq, hforest.lineage top way n other (hsame.isTop htop) (hsame.descends hway) hother]
    exact List.map_congr_left fun k _ => (hsame.idAt_eq k).symm

/-- All but one member stay where they are or are let go, and keep what they know. -/
structure Rearranged (h h' : Hierarchy) (n : Nat) : Prop where
  linked : h'.Linked
  holds : ∀ m id k, k ≠ n → h'.Holds m id k → h.Holds m id k
  kept : ∀ k, k ≠ n → (h'.get? k).map Member.origin = (h.get? k).map Member.origin

theorem Forest.rearranged_refl (hforest : h.Forest) (n : Nat) : h.Rearranged h n where
  linked := hforest.linked
  holds _ _ _ _ hholds := hholds
  kept _ _ := rfl

namespace Rearranged

variable (hmoved : h.Rearranged h' n)

include hmoved

/-- A way that avoids the member was there before. -/
theorem descends (hway : h'.Descends top way k) (havoids : ∀ m ∈ way, m ≠ n) :
    h.Descends top way k := by
  induction hway with
  | here => exact .here
  | @down way m k id _ hholds ih =>
    have hbefore := ih fun j hj => havoids j (by simp [hj])
    exact hbefore.down (hmoved.holds m id k (havoids k (by simp)) hholds)

theorem find (hne : k ≠ n) (hk : h'.get? k = some member) :
    ∃ other, h.get? k = some other ∧ other.id = member.id ∧ other.parent = member.parent ∧
      other.lineage = member.lineage := by
  have horigin := hmoved.kept k hne
  rw [hk, Option.map_some] at horigin
  obtain ⟨other, hother, heq⟩ := Option.map_eq_some_iff.mp horigin.symm
  simp only [Member.origin, Prod.mk.injEq] at heq
  exact ⟨other, hother, heq⟩

theorem idAt_eq (hne : k ≠ n) : h'.idAt k = h.idAt k := by
  have hid := congrArg (Option.map Prod.fst) (hmoved.kept k hne)
  simp only [Option.map_map] at hid
  exact congrArg (·.getD "") hid

theorem isTop (htop : h'.IsTop top) (hne : top ≠ n) : h.IsTop top := by
  obtain ⟨member, hmember, hparent⟩ := htop
  obtain ⟨other, hother, -, heq, -⟩ := hmoved.find hne hmember
  exact ⟨other, hother, heq.trans hparent⟩

/-- Who is not below the one that was moved knows the right ids. -/
theorem lineage_eq (hforest : h.Forest) (htop : h'.IsTop top) (hway : h'.Descends top way k)
    (havoids : n ∉ top :: way) (hk : h'.get? k = some member) :
    member.lineage = way.map h'.idAt := by
  have hne : ∀ m ∈ top :: way, m ≠ n := by
    rintro m hm rfl
    exact havoids hm
  have hsteady : ∀ m ∈ way, m ≠ n := fun m hm => hne m (by simp [hm])
  obtain ⟨other, hother, -, -, hlineage⟩ := hmoved.find (hne k hway.mem_end) hk
  calc
    member.lineage = other.lineage := hlineage.symm
    _ = way.map h.idAt := hforest.lineage top way k other
      (hmoved.isTop htop (hne top (by simp))) (hmoved.descends hway hsteady) hother
    _ = way.map h'.idAt := List.map_congr_left fun m hm => (hmoved.idAt_eq (hsteady m hm)).symm

/-- It is enough to refresh the one that was moved. -/
theorem forest (hforest : h.Forest) (hn : n < h'.members.length) : (h'.refresh n).Forest where
  linked := (sameShape_refresh h' n).linked hmoved.linked
  lineage top way k member htop hway hk := by
    have hsame := sameShape_refresh h' n
    have htop' : h'.IsTop top := hsame.isTop htop
    have hway' : h'.Descends top way k := hsame.descends hway
    have hids : way.map (h'.refresh n).idAt = way.map h'.idAt :=
      List.map_congr_left fun m _ => hsame.idAt_eq m
    rw [get?_refresh] at hk
    obtain ⟨before, hbefore, rfl⟩ := Option.map_eq_some_iff.mp hk
    rw [hids]
    by_cases hbelow : k ∈ h'.below n
    · simpa [hbelow] using hmoved.linked.lineageOf_eq htop' hway'
    · have havoids : n ∉ top :: way := by
        intro hn'
        obtain ⟨rest, hrest⟩ := hway'.onward hn'
        exact hbelow (hmoved.linked.mem_below hn hrest)
      simpa [hbelow] using hmoved.lineage_eq hforest htop' hway' havoids hbefore

end Rearranged

end Shape

end Hierarchy

end RecipeGraph.Graph
