import RecipeGraph.Proofs.Archives

/-!
Regions. Where no child, no parent and no record leads into a set of members and records or out of
it, whatever is done outside of the set leaves all that is in it exactly as it was, and the set stays
such a region.
-/
namespace RecipeGraph.Graph

namespace Hierarchy

variable {h h' : Hierarchy} {n m k p : Nat} {way : List Nat} {D : Nat → Prop}

/-- A member holds another one, or takes it for its parent. -/
def Tied (h : Hierarchy) (m k : Nat) : Prop :=
  (∃ id, h.Holds m id k) ∨ ∃ member, h.get? m = some member ∧ member.parent = some k

/-- No tie leads into a set of members or out of it. -/
structure Closed (h : Hierarchy) (D : Nat → Prop) : Prop where
  bound : ∀ k, D k → k < h.members.length
  ties : ∀ m k, h.Tied m k → (D m ↔ D k)

/-- The members of a closed set stay as they were, and the set stays closed. -/
structure Spares (h h' : Hierarchy) (D : Nat → Prop) : Prop where
  kept : ∀ k, D k → h'.get? k = h.get? k
  closed : h'.Closed D

theorem Spares.trans {h'' : Hierarchy} (hfirst : h.Spares h' D) (hsecond : h'.Spares h'' D) :
    h.Spares h'' D where
  kept k hk := (hsecond.kept k hk).trans (hfirst.kept k hk)
  closed := hsecond.closed

namespace Closed

variable (hclosed : h.Closed D)

include hclosed

theorem descends (hway : h.Descends n way k) : D n ↔ D k := by
  induction hway with
  | here => rfl
  | down _ hholds ih => exact ih.trans (hclosed.ties _ _ (Or.inl ⟨_, hholds⟩))

theorem spares_refl : h.Spares h D :=
  ⟨fun _ _ => rfl, hclosed⟩

/-- It is enough that no tie comes that leads to a member of the set. -/
theorem spares (hkept : ∀ k, D k → h'.get? k = h.get? k)
    (hholds : ∀ m id k, D k → h'.Holds m id k → ∃ id', h.Holds m id' k)
    (hparents : ∀ m member k, D k → h'.get? m = some member → member.parent = some k →
      ∃ before, h.get? m = some before ∧ before.parent = some k) : h.Spares h' D where
  kept := hkept
  closed := by
    constructor
    · intro k hk
      obtain ⟨member, hmember⟩ := exists_get? (hclosed.bound k hk)
      exact lt_of_get? ((hkept k hk).trans hmember)
    · intro m k htied
      constructor
      · intro hm
        refine (hclosed.ties m k ?_).mp hm
        unfold Tied Holds at htied ⊢
        rwa [hkept m hm] at htied
      · intro hk
        refine (hclosed.ties m k ?_).mpr hk
        rcases htied with ⟨id, hholds'⟩ | ⟨member, hm, hparent⟩
        · exact Or.inl (hholds m id k hk hholds')
        · exact Or.inr (hparents m member k hk hm hparent)

theorem off_way (hn : ¬ D n) (hk : D k) (way : List Nat) : ¬ h.Descends n way k :=
  fun hway => hn ((hclosed.descends hway).mpr hk)

theorem parent_ne {member : Member} (hn : ¬ D n) (hget : h.get? n = some member) (hk : D k) :
    member.parent ≠ some k :=
  fun hparent => hn ((hclosed.ties n k (Or.inr ⟨member, hget, hparent⟩)).mpr hk)

theorem spares_attach (hp : ¬ D p) (hn : ¬ D n) : h.Spares (h.attach p n) D := by
  cases hget : h.get? n with
  | none =>
    have hself : h.attach p n = h := by simp [Hierarchy.attach, hget]
    rw [hself]
    exact hclosed.spares_refl
  | some member =>
    refine hclosed.spares (fun k hk => ?_) (fun m id k hk hholds => ?_)
      fun m after k hk hm hparent => ?_
    · have hpk : p ≠ k := fun heq => hp (heq ▸ hk)
      have hnk : n ≠ k := fun heq => hn (heq ▸ hk)
      obtain ⟨noted, hafter, hkept⟩ :=
        get?_attach_aside hget hpk (hclosed.parent_ne hn hget hk)
      simp [hafter, hnk, hkept (hclosed.off_way hn hk)]
    · rcases holds_attach hholds with hold | ⟨-, rfl⟩
      · exact ⟨id, hold⟩
      · exact absurd hk hn
    · obtain ⟨noted, hafter, -⟩ := get?_attach hget p m
      rw [hafter] at hm
      obtain ⟨before, hbefore, rfl⟩ := Option.map_eq_some_iff.mp hm
      dsimp only at hparent
      split at hparent
      · cases hparent
        exact absurd hk hp
      · exact ⟨before, hbefore, hparent⟩

theorem spares_release (hn : ¬ D n) : h.Spares (h.setParent n none) D := by
  cases hget : h.get? n with
  | none =>
    have hself : h.setParent n none = h := by simp [Hierarchy.setParent, hget]
    rw [hself]
    exact hclosed.spares_refl
  | some member =>
    refine hclosed.spares (fun k hk => ?_) (fun m id k hk hholds => ?_)
      fun m after k hk hm hparent => ?_
    · have hnk : n ≠ k := fun heq => hn (heq ▸ hk)
      obtain ⟨noted, hafter, hkept⟩ := get?_release hget k
      simp [hafter, hnk, hkept (hclosed.off_way hn hk), hclosed.parent_ne hn hget hk]
    · obtain ⟨noted, hafter, -⟩ := get?_release hget m
      obtain ⟨after, hm, hmem⟩ := hholds
      rw [hafter] at hm
      obtain ⟨before, hbefore, rfl⟩ := Option.map_eq_some_iff.mp hm
      dsimp only at hmem
      split at hmem
      · exact ⟨id, before, hbefore, mem_of_released hmem⟩
      · exact ⟨id, before, hbefore, hmem⟩
    · obtain ⟨noted, hafter, -⟩ := get?_release hget m
      rw [hafter] at hm
      obtain ⟨before, hbefore, rfl⟩ := Option.map_eq_some_iff.mp hm
      dsimp only at hparent
      split at hparent
      · cases hparent
      · exact ⟨before, hbefore, hparent⟩

theorem spares_move (hn : ¬ D n) {parent : Option Nat} (hparent : ∀ p ∈ parent, ¬ D p) :
    h.Spares (h.move n parent) D := by
  cases parent with
  | none => exact hclosed.spares_release hn
  | some p => exact hclosed.spares_attach (hparent p rfl) hn

theorem spares_setId (hn : ¬ D n) (id : String) : h.Spares (h.setId n id) D := by
  cases hget : h.get? n with
  | none =>
    have hself : h.setId n id = h := by simp [Hierarchy.setId, hget]
    rw [hself]
    exact hclosed.spares_refl
  | some member =>
    refine hclosed.spares (fun k hk => ?_) (fun m key k hk hholds => ?_)
      fun m after k hk hm hparent => ?_
    · have hnk : n ≠ k := fun heq => hn (heq ▸ hk)
      obtain ⟨noted, hafter, hkept⟩ := get?_setId hget id k
      simp [hafter, hnk, hkept (hclosed.off_way hn hk), hclosed.parent_ne hn hget hk]
    · obtain ⟨noted, hafter, -⟩ := get?_setId hget id m
      obtain ⟨after, hm, hmem⟩ := hholds
      rw [hafter] at hm
      obtain ⟨before, hbefore, rfl⟩ := Option.map_eq_some_iff.mp hm
      dsimp only at hmem
      split at hmem
      · rcases OrderedMap.mem_insert hmem with ⟨-, rfl⟩ | hold
        · exact absurd hk hn
        · exact ⟨key, before, hbefore, mem_of_released hold⟩
      · exact ⟨key, before, hbefore, hmem⟩
    · obtain ⟨noted, hafter, -⟩ := get?_setId hget id m
      rw [hafter] at hm
      obtain ⟨before, hbefore, rfl⟩ := Option.map_eq_some_iff.mp hm
      exact ⟨before, hbefore, hparent⟩

/-- A member outside may change, as long as it keeps its parent and comes to hold nobody. -/
theorem spares_update (hn : ¬ D n) {f : Member → Member}
    (hparent : ∀ member, (f member).parent = member.parent)
    (hchildren : ∀ member, (f member).children = member.children) :
    h.Spares (h.update n f) D := by
  refine hclosed.spares (fun k hk => ?_) (fun m id k _ hholds => ?_)
    fun m after k _ hm heq => ?_
  · have hnk : n ≠ k := fun heq => hn (heq ▸ hk)
    simp [get?_update, hnk]
  · obtain ⟨after, hm, hmem⟩ := hholds
    rw [get?_update] at hm
    obtain ⟨before, hbefore, rfl⟩ := Option.map_eq_some_iff.mp hm
    refine ⟨id, before, hbefore, ?_⟩
    split at hmem
    · rwa [hchildren] at hmem
    · exact hmem
  · rw [get?_update] at hm
    obtain ⟨before, hbefore, rfl⟩ := Option.map_eq_some_iff.mp hm
    refine ⟨before, hbefore, ?_⟩
    split at heq
    · rwa [hparent] at heq
    · exact heq

theorem spares_edit (hn : ¬ D n) (f : Contents → Contents) : h.Spares (h.edit n f) D :=
  hclosed.spares_update hn (fun _ => rfl) fun _ => rfl

theorem spares_setName (hn : ¬ D n) (name : String) : h.Spares (h.setName n name) D := by
  have hedited := hclosed.spares_edit hn ({ · with name := name })
  unfold Hierarchy.setName
  cases hget : h.get? n with
  | none => exact hclosed.spares_refl
  | some member =>
    dsimp only
    cases hparent : member.parent with
    | none => exact hedited
    | some parent =>
      have hp : ¬ D parent := fun hin => hclosed.parent_ne hn hget hin hparent
      exact hedited.trans (hedited.closed.spares_update hp (fun _ => rfl) fun _ => rfl)

theorem spares_attachAll (hn : ¬ D n) {ks : List Nat} (hks : ∀ k ∈ ks, ¬ D k) :
    h.Spares (ks.foldl (fun acc child => acc.attach n child) h) D := by
  induction ks generalizing h with
  | nil => exact hclosed.spares_refl
  | cons child rest ih =>
    obtain ⟨hchild, hrest⟩ := List.forall_mem_cons.mp hks
    have hfirst := hclosed.spares_attach hn hchild
    exact hfirst.trans (ih hfirst.closed hrest)

theorem spares_merge (hn : ¬ D n) (hm : ¬ D m) : h.Spares (h.merge n m) D := by
  cases hget : h.get? m with
  | none =>
    have hself : h.merge n m = h := by simp [Hierarchy.merge, hget]
    rw [hself]
    exact hclosed.spares_refl
  | some given =>
    rw [merge_eq hget]
    have hedited := hclosed.spares_edit hn (·.merge given.contents)
    refine hedited.trans (hedited.closed.spares_attachAll hn fun k hk hin => hm ?_)
    exact (hclosed.ties m k (Or.inl (holds_of_mem_values hget hk))).mpr hin

/-- Who comes is not in the set, and is tied to none that is there. -/
theorem spares_grown (hgrown : h.Grown h') : h.Spares h' D := by
  refine hclosed.spares (fun k hk => hgrown.kept k (hclosed.bound k hk))
    (fun m id k hk hholds => ?_) fun m after k hk hm hparent => ?_
  · rcases Nat.lt_or_ge m h.members.length with hlt | hge
    · obtain ⟨member, hmember, hmem⟩ := hholds
      exact ⟨id, member, (hgrown.kept m hlt).symm.trans hmember, hmem⟩
    · exact absurd (hgrown.children m id k hge hholds) (Nat.not_le_of_lt (hclosed.bound k hk))
  · rcases Nat.lt_or_ge m h.members.length with hlt | hge
    · exact ⟨after, (hgrown.kept m hlt).symm.trans hm, hparent⟩
    · exact absurd (hgrown.parents m after k hge hm hparent)
        (Nat.not_le_of_lt (hclosed.bound k hk))

theorem spares_add (contents : Contents) {parent : Option Nat} (hparent : ∀ p ∈ parent, ¬ D p) :
    h.Spares (h.add contents parent) D := by
  cases parent with
  | none => exact hclosed.spares_grown (grown_add h contents)
  | some p =>
    have hmade : h.Spares (h.enlarged contents) D := by
      refine hclosed.spares (fun k hk => ?_) (fun m id k _ hholds => ?_) fun m after k _ hm hp => ?_
      · rw [get?_enlarged, if_neg (Nat.ne_of_lt (hclosed.bound k hk))]
      · obtain ⟨after, hm, hmem⟩ := hholds
        rw [get?_enlarged] at hm
        split at hm
        · cases hm
          simp at hmem
        · exact ⟨id, after, hm, hmem⟩
      · rw [get?_enlarged] at hm
        split at hm
        · cases hm
          cases hp
        · exact ⟨after, hm, hp⟩
    exact hmade.trans (hmade.closed.spares_attach (hparent p rfl) fun hin =>
      absurd (hclosed.bound _ hin) (Nat.lt_irrefl _))

end Closed

end Hierarchy

namespace Shelves

variable {s s' : Shelves} {n m r k : Nat} {holding : Holding} {D S : Nat → Prop}

/-- A member has the record for its style or for one of its tables. -/
def Keeps (s : Shelves) (m r : Nat) : Prop :=
  ∃ holding : Holding, s.holdings[m]? = some holding ∧
    (holding.look = r ∨ ∃ slot, holding.tables slot = r)

/-- Members of a set keep the records of a set, and neither these nor others lead to the others. -/
structure Closed (s : Shelves) (D S : Nat → Prop) : Prop where
  bound : ∀ r, S r → r < s.store.size
  keeps : ∀ m r, s.Keeps m r → (D m ↔ S r)
  parts : ∀ r, ∀ k ∈ (s.store.recordAt r).parts, S r ↔ S k

/-- What members of a closed set keep stays as it was, and the set stays closed. -/
structure Spares (s s' : Shelves) (D S : Nat → Prop) : Prop where
  holdings : ∀ m, D m → s'.holdings[m]? = s.holdings[m]?
  records : ∀ r, S r → s'.store.recordAt r = s.store.recordAt r
  closed : s'.Closed D S

theorem Spares.trans {s'' : Shelves} (hfirst : s.Spares s' D S) (hsecond : s'.Spares s'' D S) :
    s.Spares s'' D S where
  holdings m hm := (hsecond.holdings m hm).trans (hfirst.holdings m hm)
  records r hr := (hsecond.records r hr).trans (hfirst.records r hr)
  closed := hsecond.closed

namespace Closed

variable (hclosed : s.Closed D S)

include hclosed

theorem spares_refl : s.Spares s D S :=
  ⟨fun _ _ => rfl, fun _ _ => rfl, hclosed⟩

/-- It is enough that nobody comes to lead to a record of the set. -/
theorem spares (hsize : s.store.size ≤ s'.store.size)
    (hholdings : ∀ m, D m → s'.holdings[m]? = s.holdings[m]?)
    (hrecords : ∀ r, S r → s'.store.recordAt r = s.store.recordAt r)
    (hkeeps : ∀ m r, S r → s'.Keeps m r → s.Keeps m r)
    (hparts : ∀ r k, S k → k ∈ (s'.store.recordAt r).parts → k ∈ (s.store.recordAt r).parts) :
    s.Spares s' D S where
  holdings := hholdings
  records := hrecords
  closed := by
    constructor
    · exact fun r hr => Nat.lt_of_lt_of_le (hclosed.bound r hr) hsize
    · intro m r hkept
      refine ⟨fun hm => (hclosed.keeps m r ?_).mp hm, fun hr =>
        (hclosed.keeps m r (hkeeps m r hr hkept)).mpr hr⟩
      unfold Keeps at hkept ⊢
      rwa [hholdings m hm] at hkept
    · intro r k hk
      refine ⟨fun hr => (hclosed.parts r k ?_).mp hr, fun hin =>
        (hclosed.parts r k (hparts r k hin hk)).mpr hin⟩
      rwa [hrecords r hr] at hk

theorem spares_puts {given : List Nat} (hputs : s.Puts s' n given) (hn : ¬ D n)
    (hgiven : ∀ r ∈ given, ¬ S r) : s.Spares s' D S := by
  refine hclosed.spares hputs.size (fun m hm => hputs.others m ?_) (fun r hr => ?_)
    (fun m r hr hkept => ?_) fun r k hk hpart => ?_
  · rintro rfl
    exact hn hm
  · refine hputs.kept r (hclosed.bound r hr) fun holding slot hfind heq => hn ?_
    exact (hclosed.keeps n r ⟨holding, hfind, Or.inr ⟨slot, heq⟩⟩).mpr hr
  · by_cases hm : m = n
    · subst hm
      obtain ⟨after, hafter, hkept⟩ := hkept
      have hlt := (List.getElem?_eq_some_iff.mp hafter).1
      rw [hputs.length] at hlt
      have hfind := List.getElem?_eq_getElem hlt
      obtain ⟨look, hlook, hfrom⟩ := hputs.target _ hfind
      rw [hlook] at hafter
      cases hafter
      rcases hkept with rfl | htable
      · rcases hfrom with hsame | hnew
        · exact ⟨_, hfind, Or.inl hsame.symm⟩
        · exact absurd hr (hgiven _ hnew)
      · exact ⟨_, hfind, Or.inr htable⟩
    · unfold Keeps at hkept ⊢
      rwa [hputs.others m hm] at hkept
  · rcases hputs.parts r k hpart with hold | hnew | hnew
    · exact hold
    · exact absurd hk (hgiven k hnew)
    · exact absurd (hclosed.bound k hk) (Nat.not_lt_of_le hnew)

theorem spares_push {records : List Record}
    (hparts : ∀ record ∈ records, ∀ k ∈ record.parts, ¬ S k) : s.Spares (s.push records) D S := by
  have hsize : s.store.size ≤ (s.push records).store.size :=
    Nat.le_trans (Nat.le_add_right ..) (Nat.le_of_eq (Store.size_push ..).symm)
  refine hclosed.spares hsize (fun _ _ => rfl)
    (fun r hr => Store.recordAt_push_old records (hclosed.bound r hr)) (fun _ _ _ hkept => hkept)
    fun r k hk hpart => ?_
  change k ∈ ((s.store.push records).recordAt r).parts at hpart
  rcases Store.mem_parts_push hpart with ⟨-, hold⟩ | ⟨record, hrecord, hnew⟩
  · exact hold
  · exact absurd hk (hparts record hrecord k hnew)

theorem spares_write {f : Record → Record} (hlt : r < s.store.size) (hr : ¬ S r)
    (hparts : ∀ k ∈ (f (s.store.recordAt r)).parts, ¬ S k) :
    s.Spares { s with store := s.store.write r f } D S := by
  have hwritten := recordAt_write s.store f hlt
  refine hclosed.spares (Nat.le_of_eq (size_write ..).symm) (fun _ _ => rfl) (fun k hk => ?_)
    (fun _ _ _ hkept => hkept) fun j k hk hpart => ?_
  · rw [hwritten, if_neg]
    rintro rfl
    exact hr hk
  · rw [hwritten] at hpart
    split at hpart
    · rename_i heq
      subst heq
      exact absurd hk (hparts k hpart)
    · exact hpart

/-- Members may come, if these keep none of the records of the set. -/
theorem spares_grown (hgrown : s.store.Grown s'.store)
    (hheld : ∀ m < s.holdings.length, s'.holdings[m]? = s.holdings[m]?)
    (hbound : ∀ m, D m → m < s.holdings.length)
    (hnew : ∀ m r, s.holdings.length ≤ m → s'.Keeps m r → ¬ S r) : s.Spares s' D S := by
  refine hclosed.spares hgrown.size (fun m hm => hheld m (hbound m hm))
    (fun r hr => hgrown.kept r (hclosed.bound r hr)) (fun m r hr hkept => ?_)
    fun r k hk hpart => ?_
  · rcases Nat.lt_or_ge m s.holdings.length with hlt | hge
    · unfold Keeps at hkept ⊢
      rwa [hheld m hlt] at hkept
    · exact absurd hr (hnew m r hge hkept)
  · rcases Nat.lt_or_ge r s.store.size with hlt | hge
    · rwa [hgrown.kept r hlt] at hpart
    · exact absurd (hgrown.parts r hge k hpart).1 (Nat.not_le_of_lt (hclosed.bound k hk))

theorem spares_add (hr : ¬ S r) (hbound : ∀ m, D m → m < s.holdings.length) :
    s.Spares (s.add r) D S := by
  refine hclosed.spares_grown (grown_blank s.store) (fun m hm => List.getElem?_append_left hm)
    hbound ?_
  rintro m k hm ⟨holding, hfind, hkept⟩
  have hholdings : (s.add r).holdings = s.holdings ++
      [⟨r, fun slot => s.store.size + Slot.all.idxOf slot⟩] := rfl
  rw [hholdings, List.getElem?_append_right hm, List.getElem?_singleton] at hfind
  split at hfind
  · cases hfind
    rcases hkept with rfl | ⟨slot, rfl⟩
    · exact hr
    · exact fun hin => absurd (hclosed.bound _ hin) (Nat.not_lt_of_le (Nat.le_add_right ..))
  · cases hfind

/-- What leads to records of the set alone leads to what it led to. -/
theorem alike (hspares : s.Spares s' D S) (hr : S r) : s.store.Alike r s'.store r := by
  refine Store.alike_of_kept fun k hk => hspares.records k ?_
  induction hk with
  | refl => exact hr
  | tail _ hpart ih => exact (hclosed.parts _ _ hpart).mp ih

/-- Members of the set show what they showed. -/
theorem contents_kept (hspares : s.Spares s' D S) (hm : D m) (hfind : s.holdings[m]? = some holding)
    (id name : String) : s'.store.contents holding id name = s.store.contents holding id name := by
  have hkept : ∀ r, (holding.look = r ∨ ∃ slot, holding.tables slot = r) → S r :=
    fun r hr => (hclosed.keeps m r ⟨holding, hfind, hr⟩).mp hm
  exact Store.contents_congr (hclosed.alike hspares (hkept _ (Or.inl rfl))).lookAt fun slot =>
    (hclosed.alike hspares (hkept _ (Or.inr ⟨slot, rfl⟩))).read slot

end Closed

theorem not_mem_gifts {given : Holding} (hclosed : s.Closed D S) (hfind : s.holdings[m]? = some given)
    (hm : ¬ D m) : ∀ r ∈ (gifts s.store given).flatMap Gift.records, ¬ S r := by
  have htable : ∀ slot, ∀ r ∈ (s.store.recordAt (given.tables slot)).parts, ¬ S r := by
    intro slot r hr hin
    refine hm ((hclosed.keeps m _ ⟨given, hfind, Or.inr ⟨slot, rfl⟩⟩).mpr ?_)
    exact (hclosed.parts _ r hr).mpr hin
  intro r hr
  obtain ⟨gift, hgift, hmem⟩ := List.mem_flatMap.mp hr
  obtain ⟨slot, hpart⟩ := part_of_gift hgift hmem
  exact htable slot r hpart

end Shelves

/-- Members and records alike. -/
inductive Object
  | member (n : Nat)
  | record (r : Nat)

/-- No object of the set is an argument. -/
def Deed.Avoids (deed : Deed) (X : Object → Prop) : Prop :=
  (∀ n ∈ deed.members, ¬ X (.member n)) ∧ ∀ r ∈ deed.records, ¬ X (.record r)

namespace Archive

variable {a b : Archive} {n k r : Nat} {X : Object → Prop} {x y : Object}

/-- The object is there. -/
def Has (a : Archive) : Object → Prop
  | .member n => n < a.size
  | .record r => r < a.shelves.store.size

/-- One object leads down to another one: a member to its children and to its records, a record to
those that it holds. -/
inductive Leads (a : Archive) : Object → Object → Prop
  | child {m k : Nat} {id : String} (hholds : a.hierarchy.Holds m id k) :
      Leads a (.member m) (.member k)
  | kept {m r : Nat} (hkept : a.shelves.Keeps m r) : Leads a (.member m) (.record r)
  | part {r k : Nat} (hpart : k ∈ (a.shelves.store.recordAt r).parts) :
      Leads a (.record r) (.record k)

/-- One object leads down to another one, or is a member that has it for its parent. -/
inductive Touches (a : Archive) : Object → Object → Prop
  | down {x y : Object} (hleads : a.Leads x y) : Touches a x y
  | up {m p : Nat} {member : Member} (hm : a.hierarchy.get? m = some member)
      (hparent : member.parent = some p) : Touches a (.member m) (.member p)

/-- A chain of links goes from one object to the other, whichever way each of them leads. -/
def Connected (a : Archive) : Object → Object → Prop :=
  Relation.EqvGen a.Touches

/-- Nothing leads into a set of objects or out of it. -/
structure Region (a : Archive) (X : Object → Prop) : Prop where
  members : a.hierarchy.Closed fun n => X (.member n)
  records : a.shelves.Closed (fun n => X (.member n)) fun r => X (.record r)

/-- All objects of a region stay as they were, and it stays a region. -/
structure Spares (a b : Archive) (X : Object → Prop) : Prop where
  hierarchy : a.hierarchy.Spares b.hierarchy fun n => X (.member n)
  shelves : a.shelves.Spares b.shelves (fun n => X (.member n)) fun r => X (.record r)

theorem Spares.region (hspares : a.Spares b X) : b.Region X :=
  ⟨hspares.hierarchy.closed, hspares.shelves.closed⟩

theorem Spares.trans {c : Archive} (hfirst : a.Spares b X) (hsecond : b.Spares c X) :
    a.Spares c X where
  hierarchy := hfirst.hierarchy.trans hsecond.hierarchy
  shelves := hfirst.shelves.trans hsecond.shelves

section Component

theorem Sound.has_of_touches (hsound : a.Sound) (htouches : a.Touches x y) : a.Has x ∧ a.Has y := by
  cases htouches with
  | down hleads =>
    cases hleads with
    | child hholds =>
      obtain ⟨child, hchild, -⟩ := hsound.forest.linked.held _ _ _ hholds
      obtain ⟨member, hmember, -⟩ := hholds
      exact ⟨Hierarchy.lt_of_get? hmember, Hierarchy.lt_of_get? hchild⟩
    | kept hkept =>
      obtain ⟨holding, hfind, hrecord⟩ := hkept
      refine ⟨Nat.lt_of_lt_of_eq (List.getElem?_eq_some_iff.mp hfind).1 hsound.size, ?_⟩
      rcases hrecord with rfl | ⟨slot, rfl⟩
      · exact (hsound.owned.looks _ holding hfind).1
      · exact (hsound.owned.tables _ holding slot hfind).1
    | @part r k hpart =>
      refine ⟨Nat.lt_of_not_le fun hge => ?_, hsound.owned.bound r k hpart⟩
      rw [Store.recordAt_of_ge hge] at hpart
      cases hpart
  | up hm hparent => exact ⟨Hierarchy.lt_of_get? hm, hsound.anchored _ _ _ hm hparent⟩

theorem Sound.has_of_connected (hsound : a.Sound) (hconnected : a.Connected x y) :
    a.Has x ↔ a.Has y := by
  induction hconnected with
  | rel x y htouches =>
    obtain ⟨hx, hy⟩ := hsound.has_of_touches htouches
    exact iff_of_true hx hy
  | refl => rfl
  | symm _ _ _ ih => exact ih.symm
  | trans _ _ _ _ _ ih ih' => exact ih.trans ih'

/-- It does not matter which way the links of a region lead. -/
theorem region_iff (hbound : ∀ x, X x → a.Has x) :
    a.Region X ↔ ∀ x y, a.Touches x y → (X x ↔ X y) := by
  constructor
  · rintro hregion _ _ (hleads | ⟨hm, hparent⟩)
    · cases hleads with
      | child hholds => exact hregion.members.ties _ _ (Or.inl ⟨_, hholds⟩)
      | kept hkept => exact hregion.records.keeps _ _ hkept
      | part hpart => exact hregion.records.parts _ _ hpart
    · exact hregion.members.ties _ _ (Or.inr ⟨_, hm, hparent⟩)
  · intro hclosed
    refine ⟨⟨fun k hk => hbound _ hk, ?_⟩, ⟨fun r hr => hbound _ hr, ?_, ?_⟩⟩
    · rintro m k (⟨id, hholds⟩ | ⟨member, hm, hparent⟩)
      · exact hclosed _ _ (.down (.child hholds))
      · exact hclosed _ _ (.up hm hparent)
    · exact fun m r hkept => hclosed _ _ (.down (.kept hkept))
    · exact fun r k hpart => hclosed _ _ (.down (.part hpart))

/-- All that is connected with an object is a region. -/
theorem Sound.region (hsound : a.Sound) (hx : a.Has x) : a.Region (a.Connected x) := by
  refine (region_iff fun y hy => (hsound.has_of_connected hy).mp hx).mpr fun y z htouches => ?_
  exact ⟨fun hy => hy.trans _ _ _ (.rel _ _ htouches),
    fun hz => hz.trans _ _ _ (.symm _ _ (.rel _ _ htouches))⟩

end Component

section Deeds

/-- What comes leads to none of the objects that are there, and none of these leads to it. -/
theorem Extends.spares (hextends : a.Extends b) (hsound : a.Sound) (hregion : a.Region X) :
    a.Spares b X where
  hierarchy := hregion.members.spares_grown hextends.hierarchy
  shelves := by
    have hsize : a.shelves.holdings.length = a.hierarchy.members.length := hsound.size
    refine hregion.records.spares_grown hextends.store
      (fun m hm => hextends.held m (Nat.lt_of_lt_of_eq hm hsize))
      (fun m hm => Nat.lt_of_lt_of_eq (hregion.members.bound m hm) hsize.symm) ?_
    rintro m r hm ⟨holding, hfind, hkept⟩ hr
    obtain ⟨hlook, htables⟩ := hextends.fresh m holding (Nat.le_trans (Nat.le_of_eq hsize.symm) hm) hfind
    have hlt := hregion.records.bound r hr
    rcases hkept with rfl | ⟨slot, rfl⟩
    · exact absurd hlt (Nat.not_lt_of_le hlook)
    · exact absurd hlt (Nat.not_lt_of_le (htables slot))

/-- Records outside of a region may change in place. -/
theorem Region.spares_overwrite (hregion : a.Region X) (hsound : a.Sound) {record : Record}
    (hlt : r < a.shelves.store.size) (hr : ¬ X (.record r))
    (hparts : ∀ k ∈ record.parts, ¬ X (.record k)) : a.Spares (a.overwrite r record) X := by
  have hshelves : a.shelves.Spares (a.overwrite r record).shelves (fun n => X (.member n))
      fun r => X (.record r) := hregion.records.spares_write hlt hr hparts
  refine ⟨hregion.members.spares (fun k hk => ?_) (fun m id k _ hholds => ?_)
    fun m after k _ hm hparent => ?_, hshelves⟩
  · obtain ⟨member, hmember⟩ := Hierarchy.exists_get? (hregion.members.bound k hk)
    obtain ⟨holding, hfind, hshown⟩ := hsound.shown k member.contents (by
      simp [Hierarchy.contentsAt, hmember])
    have hkept := hregion.records.contents_kept hshelves hk hfind member.id member.name
    have hsame : (a.overwrite r record).shelves.shown k member = member := by
      rw [Shelves.shown_eq ((hshelves.holdings k hk).trans hfind), hkept]
      exact congrArg (fun contents => { member with contents := contents }) hshown
    rw [get?_overwrite, hmember, Option.map_some, hsame]
  · obtain ⟨after, hm, hmem⟩ := hholds
    rw [get?_overwrite] at hm
    obtain ⟨before, hbefore, rfl⟩ := Option.map_eq_some_iff.mp hm
    rw [Shelves.children_shown] at hmem
    exact ⟨id, before, hbefore, hmem⟩
  · rw [get?_overwrite] at hm
    obtain ⟨before, hbefore, rfl⟩ := Option.map_eq_some_iff.mp hm
    rw [Shelves.parent_shown] at hparent
    exact ⟨before, hbefore, hparent⟩

/-- A deed with no argument in a region leaves all that is in it as it was. -/
theorem Region.spares (hregion : a.Region X) (hsound : a.Sound) {deed : Deed}
    (hfits : deed.Fits a) (havoids : deed.Avoids X) : a.Spares (deed.apply a) X := by
  obtain ⟨hmembers, hrecords⟩ := havoids
  cases deed with
  | make record =>
    refine ⟨hregion.members.spares_refl, hregion.records.spares_push fun other hother => ?_⟩
    exact List.mem_singleton.mp hother ▸ hrecords
  | overwrite r record =>
    obtain ⟨hr, hparts⟩ := List.forall_mem_cons.mp hrecords
    exact hregion.spares_overwrite hsound hfits.1 hr hparts
  | add id name look parent =>
    refine ⟨hregion.members.spares_add _ fun p hp => hmembers p (Option.mem_toList.mpr hp),
      hregion.records.spares_add (hrecords look (List.mem_singleton_self _)) fun m hm => ?_⟩
    exact Nat.lt_of_lt_of_eq (hregion.members.bound m hm) hsound.size.symm
  | put n gift =>
    have hn := hmembers n (List.mem_singleton_self n)
    obtain ⟨holding, hholding⟩ := hsound.find hfits.1
    obtain ⟨hputs, -⟩ := Shelves.put_spec hsound.owned hholding hfits.2.1 hfits.2.2
    exact ⟨hregion.members.spares_edit hn (gift.item a.shelves.store).put,
      hregion.records.spares_puts hputs hn hrecords⟩
  | setId n id =>
    exact ⟨hregion.members.spares_setId (hmembers n (List.mem_singleton_self n)) id,
      hregion.records.spares_refl⟩
  | setName n name =>
    exact ⟨hregion.members.spares_setName (hmembers n (List.mem_singleton_self n)) name,
      hregion.records.spares_refl⟩
  | move n parent =>
    obtain ⟨hn, hparent⟩ := List.forall_mem_cons.mp hmembers
    exact ⟨hregion.members.spares_move hn fun p hp => hparent p (Option.mem_toList.mpr hp),
      hregion.records.spares_refl⟩
  | attach parent n =>
    obtain ⟨hp, hn⟩ := List.forall_mem_cons.mp hmembers
    exact ⟨hregion.members.spares_attach hp (hn n (List.mem_singleton_self n)),
      hregion.records.spares_refl⟩
  | merge n other =>
    obtain ⟨hn, hrest⟩ := List.forall_mem_cons.mp hmembers
    have hother := hrest other (List.mem_singleton_self other)
    obtain ⟨holding, hholding⟩ := hsound.find hfits.1
    obtain ⟨given, hgiven⟩ := hsound.find hfits.2
    obtain ⟨hputs, -⟩ := Shelves.absorb_spec hsound.owned hholding hgiven
    exact ⟨hregion.members.spares_merge hn hother, hregion.records.spares_puts hputs hn
      (Shelves.not_mem_gifts hregion.records hgiven hother)⟩
  | copy n => exact (hsound.copyWithin _ n).2.spares hsound hregion

/-- The archives that come of an archive by deeds with no argument in the set. -/
inductive Runs (X : Object → Prop) (a : Archive) : Archive → Prop
  | refl : Runs X a a
  | step {b : Archive} (hruns : Runs X a b) {deed : Deed} (hfits : deed.Fits b)
      (havoids : deed.Avoids X) : Runs X a (deed.apply b)

/-- However much is done outside of a region, all that is in it stays as it was. -/
theorem Runs.spares (hruns : Runs X a b) (hsound : a.Sound) (hregion : a.Region X) :
    b.Sound ∧ a.Spares b X := by
  induction hruns with
  | refl => exact ⟨hsound, hregion.members.spares_refl, hregion.records.spares_refl⟩
  | step _ hfits havoids ih =>
    obtain ⟨hlater, hspares⟩ := ih
    exact ⟨hlater.apply hfits, hspares.trans (hspares.region.spares hlater hfits havoids)⟩

end Deeds

end Archive

end RecipeGraph.Graph
