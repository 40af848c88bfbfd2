import RecipeGraph.Proofs.Contents
import RecipeGraph.Proofs.Lineage
import Mathlib.Data.List.Permutation

/-!
Hierarchies that come of edits. Whatever is renamed, moved, merged and copied, each child is held
once, under its id and by the parent that it knows of. So there is one way at most down from a
member without a parent to another, and the latter has the ids on that way taken down. Members
that go in a circle, or that were pushed out by another one of their id, are on no such way.
-/
namespace RecipeGraph.Graph

/-- The children that are left when child number `n` goes, if it is the one held under the id. -/
def released (children : OrderedMap Nat) (n : Nat) (id : String) : OrderedMap Nat :=
  if children.get? id = some n then children.erase id else children

/-- The names that are left when one is taken back that leads to the id. -/
def disowned (names : OrderedMap String) (id name : String) : OrderedMap String :=
  if name ≠ "" ∧ names.get? name = some id then names.erase name else names

section Released

variable {children : OrderedMap Nat} {n k : Nat} {id key : String}

theorem mem_released (h : children.Distinct)
    (hmem : (key, k) ∈ (released children n id).entries) :
    (key, k) ∈ children.entries ∧ ¬ (key = id ∧ k = n) := by
  unfold released at hmem
  split at hmem
  · obtain ⟨hold, hne⟩ := OrderedMap.mem_erase.mp hmem
    exact ⟨hold, fun h => hne h.1⟩
  · rename_i hother
    refine ⟨hmem, ?_⟩
    rintro ⟨rfl, rfl⟩
    exact hother (h.get?_of_mem hmem)

theorem distinct_released (h : children.Distinct) (n : Nat) (id : String) :
    (released children n id).Distinct := by
  unfold released
  split
  · exact h.erase id
  · exact h

end Released

namespace Hierarchy

variable {h h' : Hierarchy} {top top' n k m p : Nat} {way way' : List Nat}
  {member : Member} {id : String} {parent : Option Nat}

/-- To move one member it is enough that it is held by nobody but its new parent. -/
theorem Linked.rearranged (hlinked : h.Linked)
    (hkept : ∀ k, k ≠ n → (h'.get? k).map Member.origin = (h.get? k).map Member.origin)
    (hdistinct : ∀ m member, h'.get? m = some member → member.children.Distinct)
    (hholds : ∀ m id k, h'.Holds m id k → k ≠ n → h.Holds m id k)
    (hself : ∀ m id, h'.Holds m id n →
      ∃ member, h'.get? n = some member ∧ member.id = id ∧ member.parent = some m) :
    h.Rearranged h' n where
  linked := {
    distinct := hdistinct
    held := by
      intro m id k hk
      by_cases hkn : k = n
      · subst hkn
        exact hself m id hk
      · obtain ⟨child, hchild, hid, hparent⟩ := hlinked.held m id k (hholds m id k hk hkn)
        have horigin := hkept k hkn
        rw [hchild, Option.map_some] at horigin
        obtain ⟨other, hother, heq⟩ := Option.map_eq_some_iff.mp horigin
        simp only [Member.origin, Prod.mk.injEq] at heq
        exact ⟨other, hother, heq.1.trans hid, heq.2.1.trans hparent⟩ }
  holds m id k hkn hk := hholds m id k hk hkn
  kept := hkept

section SetParent

/-- The hierarchy after a change of parent, before what is below is refreshed. -/
def reparented (h : Hierarchy) (n : Nat) (member : Member) (parent : Option Nat) : Hierarchy :=
  (match member.parent with
    | none => h
    | some old =>
        if parent = some old then h
        else h.update old (·.displace n member.id member.name)).update n
    fun member => { member with parent := parent }

theorem setParent_eq (hn : h.get? n = some member) (parent : Option Nat) :
    h.setParent n parent = (h.reparented n member parent).refresh n := by
  unfold setParent
  rw [hn]
  rfl

/-- A change of parent changes the parent of one member. The parent that it leaves lets go of it,
with its name if that leads to it. -/
theorem get?_reparented (h : Hierarchy) (n k : Nat) (member : Member)
    (parent : Option Nat) :
    (h.reparented n member parent).get? k = (h.get? k).map fun other =>
      { other with
        parent := if n = k then parent else other.parent
        children := if member.parent = some k ∧ parent ≠ some k then
          released other.children n member.id else other.children
        names := if member.parent = some k ∧ parent ≠ some k then
          disowned other.names member.id member.name else other.names } := by
  unfold reparented
  cases member.parent with
  | none =>
    rw [get?_update]
    congr 1
    funext other
    by_cases hk : n = k <;> simp [hk]
  | some old =>
    by_cases hold : parent = some old
    · simp only [hold, ↓reduceIte, get?_update]
      congr 1
      funext other
      by_cases hk : n = k <;> by_cases ho : old = k <;> simp [hk, ho]
    · simp only [hold, ↓reduceIte, get?_update, Option.map_map]
      congr 1
      funext other
      by_cases ho : old = k
      · subst ho
        by_cases hk : n = old <;> simp [hk, hold, Member.displace, released, disowned]
      · by_cases hk : n = k <;> simp [hk, ho]

@[simp] theorem length_reparented (h : Hierarchy) (n : Nat) (member : Member)
    (parent : Option Nat) :
    (h.reparented n member parent).members.length = h.members.length := by
  unfold reparented
  cases member.parent with
  | none => simp
  | some old => by_cases hold : parent = some old <;> simp [hold]

theorem origin_reparented (h : Hierarchy) (member : Member) (parent : Option Nat) (hne : k ≠ n) :
    ((h.reparented n member parent).get? k).map Member.origin =
      (h.get? k).map Member.origin := by
  rw [get?_reparented, Option.map_map]
  congr 1
  funext other
  simp [Member.origin, Member.id, Ne.symm hne]

variable (hdistinct : ∀ m member, h.get? m = some member → member.children.Distinct)

include hdistinct

theorem distinct_reparented {other : Member}
    (hm : (h.reparented n member parent).get? m = some other) : other.children.Distinct := by
  rw [get?_reparented] at hm
  obtain ⟨before, hbefore, rfl⟩ := Option.map_eq_some_iff.mp hm
  dsimp only
  split
  · exact distinct_released (hdistinct m before hbefore) n member.id
  · exact hdistinct m before hbefore

theorem holds_reparented (hholds : (h.reparented n member parent).Holds m id k) :
    h.Holds m id k ∧
      (member.parent = some m → parent ≠ some m → ¬ (id = member.id ∧ k = n)) := by
  obtain ⟨other, hm, hmem⟩ := hholds
  rw [get?_reparented] at hm
  obtain ⟨before, hbefore, rfl⟩ := Option.map_eq_some_iff.mp hm
  dsimp only at hmem
  split at hmem
  · obtain ⟨hold, hgone⟩ := mem_released (hdistinct m before hbefore) hmem
    exact ⟨⟨before, hbefore, hold⟩, fun _ _ => hgone⟩
  · rename_i hkept
    exact ⟨⟨before, hbefore, hmem⟩, fun hparent hne => absurd ⟨hparent, hne⟩ hkept⟩

end SetParent

section Edits

/-- To let a member go frees it from its parent, and that is all. -/
theorem Linked.rearranged_release (hlinked : h.Linked) (hn : h.get? n = some member) :
    h.Rearranged (h.reparented n member none) n := by
  refine hlinked.rearranged (fun k hk => h.origin_reparented member none hk)
    (fun m other => distinct_reparented hlinked.distinct)
    (fun m id k hk _ => (holds_reparented hlinked.distinct hk).1) ?_
  intro m id hm
  obtain ⟨hbefore, hgone⟩ := holds_reparented hlinked.distinct hm
  obtain ⟨child, hchild, hid, hparent⟩ := hlinked.held m id n hbefore
  obtain rfl : member = child := by simpa [hn] using hchild
  exact absurd ⟨hid.symm, rfl⟩ (hgone hparent (by simp))

/-- The hierarchy once a member is taken in, before it is let go elsewhere. -/
def taken (h : Hierarchy) (p n : Nat) (member : Member) : Hierarchy :=
  h.update p (·.place n member.id member.name)

theorem get?_taken (h : Hierarchy) (p n k : Nat) (member : Member) :
    (h.taken p n member).get? k = (h.get? k).map fun other =>
      if p = k then other.place n member.id member.name else other :=
  h.get?_update p k _

theorem attach_eq (hn : h.get? n = some member) :
    ∃ self, (h.taken p n member).get? n = some self ∧ self.id = member.id ∧
      self.parent = member.parent ∧
      h.attach p n = ((h.taken p n member).reparented n self (some p)).refresh n := by
  obtain ⟨self, hself, hid, hparent⟩ : ∃ self, (h.taken p n member).get? n = some self ∧
      self.id = member.id ∧ self.parent = member.parent := by
    rw [get?_taken, hn, Option.map_some]
    by_cases hpn : p = n <;> simp [hpn, Member.place, Member.id]
  refine ⟨self, hself, hid, hparent, ?_⟩
  unfold attach
  rw [hn]
  exact setParent_eq hself (some p)

/-- To take a member in lets it go elsewhere. -/
theorem Linked.rearranged_place (hlinked : h.Linked) (hn : h.get? n = some member) :
    ∃ placed : Hierarchy, h.attach p n = placed.refresh n ∧ h.Rearranged placed n ∧
      placed.members.length = h.members.length := by
  have hdistinct : ∀ m other, (h.taken p n member).get? m = some other →
      other.children.Distinct := by
    intro m other hm
    rw [get?_taken] at hm
    obtain ⟨before, hbefore, rfl⟩ := Option.map_eq_some_iff.mp hm
    split
    · exact (hlinked.distinct m before hbefore).insert _ _
    · exact hlinked.distinct m before hbefore
  have hholds : ∀ m id k, (h.taken p n member).Holds m id k →
      h.Holds m id k ∨ (m = p ∧ id = member.id ∧ k = n) := by
    rintro m id k ⟨other, hm, hmem⟩
    rw [get?_taken] at hm
    obtain ⟨before, hbefore, rfl⟩ := Option.map_eq_some_iff.mp hm
    split at hmem
    · rename_i hpm
      rcases OrderedMap.mem_insert hmem with ⟨rfl, rfl⟩ | hold
      · exact Or.inr ⟨hpm.symm, rfl, rfl⟩
      · exact Or.inl ⟨before, hbefore, hold⟩
    · exact Or.inl ⟨before, hbefore, hmem⟩
  obtain ⟨self, hself, hid, hparent, heq⟩ := attach_eq (p := p) hn
  refine ⟨_, heq, hlinked.rearranged ?_ (fun m other => distinct_reparented hdistinct) ?_ ?_,
    by simp [taken]⟩
  · intro k hk
    rw [origin_reparented _ self (some p) hk, get?_taken, Option.map_map]
    congr 1
    funext other
    by_cases hpk : p = k <;> simp [hpk, Member.origin, Member.place, Member.id]
  · intro m id k hk hkn
    exact (hholds m id k (holds_reparented hdistinct hk).1).resolve_right fun h => hkn h.2.2
  · intro m id hm
    obtain ⟨htaken, hgone⟩ := holds_reparented hdistinct hm
    have hends : id = member.id ∧ p = m := by
      rcases hholds m id n htaken with hbefore | ⟨rfl, rfl, -⟩
      · obtain ⟨child, hchild, rfl, hheld⟩ := hlinked.held m id n hbefore
        obtain rfl : member = child := by simpa [hn] using hchild
        have hstays := hgone (hparent.trans hheld)
        simpa [hid] using hstays
      · exact ⟨rfl, rfl⟩
    have hmoved := (h.taken p n member).get?_reparented n n self (some p)
    rw [hself, Option.map_some] at hmoved
    refine ⟨_, hmoved, ?_, ?_⟩
    · exact hid.trans hends.1.symm
    · simp [hends.2]

/-- The hierarchy after a change of id, before what is below is refreshed. -/
def reidentified (h : Hierarchy) (n : Nat) (member : Member) (id : String) : Hierarchy :=
  match member.parent with
  | none => h.edit n ({ · with id := id })
  | some parent =>
      (h.edit n ({ · with id := id })).update parent fun around =>
        { around with
          children := (released around.children n member.id).insert id n
          names := if member.name = "" then around.names
            else around.names.insert member.name id }

theorem setId_eq (hn : h.get? n = some member) (id : String) :
    h.setId n id = (h.reidentified n member id).refresh n := by
  unfold setId reidentified
  rw [hn]
  rfl

/-- A new id comes to stand in the names too. -/
theorem get?_reidentified (h : Hierarchy) (n k : Nat) (member : Member) (id : String) :
    (h.reidentified n member id).get? k = (h.get? k).map fun other =>
      { other with
        contents := if n = k then { other.contents with id := id } else other.contents
        children := if member.parent = some k then
          (released other.children n member.id).insert id n else other.children
        names := if member.parent = some k ∧ member.name ≠ "" then
          other.names.insert member.name id else other.names } := by
  unfold reidentified
  cases member.parent with
  | none =>
    rw [edit, get?_update]
    congr 1
    funext other
    by_cases hk : n = k <;> simp [hk]
  | some parent =>
    simp only [edit, get?_update, Option.map_map]
    congr 1
    funext other
    by_cases hp : parent = k
    · by_cases hk : n = k <;> by_cases hname : member.name = "" <;> simp [hk, hp, hname]
    · by_cases hk : n = k <;> simp [hk, hp]

@[simp] theorem length_reidentified (h : Hierarchy) (n : Nat) (member : Member) (id : String) :
    (h.reidentified n member id).members.length = h.members.length := by
  unfold reidentified
  cases member.parent <;> simp [edit]

/-- A new id keeps the member where it is. -/
theorem Linked.rearranged_reidentified (hlinked : h.Linked) (hn : h.get? n = some member)
    (id : String) : h.Rearranged (h.reidentified n member id) n := by
  have hbefore : ∀ m key k, (h.reidentified n member id).Holds m key k →
      (h.Holds m key k ∧ (member.parent = some m → ¬ (key = member.id ∧ k = n))) ∨
        (member.parent = some m ∧ key = id ∧ k = n) := by
    rintro m key k ⟨other, hm, hmem⟩
    rw [get?_reidentified] at hm
    obtain ⟨before, hbefore, rfl⟩ := Option.map_eq_some_iff.mp hm
    dsimp only at hmem
    split at hmem
    · rename_i hparent
      rcases OrderedMap.mem_insert hmem with ⟨rfl, rfl⟩ | hold
      · exact Or.inr ⟨hparent, rfl, rfl⟩
      · obtain ⟨hheld, hgone⟩ := mem_released (hlinked.distinct m before hbefore) hold
        exact Or.inl ⟨⟨before, hbefore, hheld⟩, fun _ => hgone⟩
    · rename_i hparent
      exact Or.inl ⟨⟨before, hbefore, hmem⟩, fun h => absurd h hparent⟩
  refine hlinked.rearranged ?_ ?_ ?_ ?_
  · intro k hk
    rw [get?_reidentified, Option.map_map]
    congr 1
    funext other
    simp [Member.origin, Member.id, Ne.symm hk]
  · intro m other hm
    rw [get?_reidentified] at hm
    obtain ⟨before, hbefore, rfl⟩ := Option.map_eq_some_iff.mp hm
    have hdistinct := hlinked.distinct m before hbefore
    dsimp only
    split
    · exact (distinct_released hdistinct n member.id).insert _ _
    · exact hdistinct
  · intro m key k hk hkn
    rcases hbefore m key k hk with ⟨hold, -⟩ | ⟨-, -, rfl⟩
    · exact hold
    · exact absurd rfl hkn
  · intro m key hm
    have hget := h.get?_reidentified n n member id
    rw [hn, Option.map_some] at hget
    refine ⟨_, hget, ?_⟩
    rcases hbefore m key n hm with ⟨hold, hgone⟩ | ⟨hparent, rfl, -⟩
    · obtain ⟨child, hchild, hid, hheld⟩ := hlinked.held m key n hold
      obtain rfl : member = child := by simpa [hn] using hchild
      exact absurd ⟨hid.symm, rfl⟩ (hgone hheld)
    · simp [Member.id, hparent]

end Edits

namespace Forest

variable (hforest : h.Forest)

include hforest

theorem refresh (hn : n < h.members.length) : (h.refresh n).Forest :=
  (hforest.rearranged_refl n).forest hforest hn

theorem setParent_none (n : Nat) : (h.setParent n none).Forest := by
  cases hn : h.get? n with
  | none => simpa [setParent, hn] using hforest
  | some member =>
    rw [setParent_eq hn]
    refine (hforest.linked.rearranged_release hn).forest hforest ?_
    simpa using lt_of_get? hn

theorem attach (parent n : Nat) : (h.attach parent n).Forest := by
  cases hn : h.get? n with
  | none => simpa [Hierarchy.attach, hn] using hforest
  | some member =>
    obtain ⟨placed, heq, hmoved, hlength⟩ :=
      hforest.linked.rearranged_place (p := parent) hn
    rw [heq]
    exact hmoved.forest hforest (hlength ▸ lt_of_get? hn)

theorem move (n : Nat) (parent : Option Nat) : (h.move n parent).Forest := by
  cases parent with
  | none => exact hforest.setParent_none n
  | some parent => exact hforest.attach parent n

theorem setId (n : Nat) (id : String) : (h.setId n id).Forest := by
  cases hn : h.get? n with
  | none => simpa [Hierarchy.setId, hn] using hforest
  | some member =>
    rw [setId_eq hn]
    refine (hforest.linked.rearranged_reidentified hn id).forest hforest ?_
    simpa using lt_of_get? hn

/-- Members may change all but their id, their parent and their children. -/
theorem of_steady (f : Nat → Member → Member)
    (hties : ∀ n member, (f n member).ties = member.ties)
    (hlineage : ∀ n member, (f n member).lineage = member.lineage)
    (hget : ∀ n, h'.get? n = (h.get? n).map (f n)) : h'.Forest := by
  refine hforest.of_sameShape ?_ ?_
  · intro n
    rw [hget, Option.map_map]
    congr 1
    funext member
    exact hties n member
  · intro n member hn
    rw [hget] at hn
    obtain ⟨before, hbefore, rfl⟩ := Option.map_eq_some_iff.mp hn
    exact ⟨before, hbefore, (hlineage n before).symm⟩

theorem edit (n : Nat) {f : Contents → Contents}
    (hid : ∀ contents, (f contents).id = contents.id) : (h.edit n f).Forest := by
  refine hforest.of_steady (fun k member =>
    if n = k then { member with contents := f member.contents } else member) ?_ ?_
    fun k => h.get?_update n k _
  · intro k member
    by_cases hk : n = k <;> simp [hk, Member.ties, Member.id, hid]
  · intro k member
    by_cases hk : n = k <;> simp [hk]

theorem setName (n : Nat) (name : String) : (h.setName n name).Forest := by
  have hnamed : (h.edit n ({ · with name := name })).Forest := hforest.edit n fun _ => rfl
  unfold Hierarchy.setName
  cases h.get? n with
  | none => exact hforest
  | some member =>
    dsimp only
    cases member.parent with
    | none => exact hnamed
    | some parent =>
      refine hnamed.of_steady _ ?_ ?_ fun k => get?_update _ parent k _
      · intro k other
        by_cases hk : parent = k <;> simp [hk, Member.ties, Member.id]
      · intro k other
        by_cases hk : parent = k <;> simp [hk]

theorem attachAll (n : Nat) (children : List Nat) :
    (children.foldl (fun acc child => acc.attach n child) h).Forest := by
  induction children generalizing h with
  | nil => exact hforest
  | cons child rest ih => exact ih (hforest.attach n child)

theorem merge (n other : Nat) : (h.merge n other).Forest := by
  unfold Hierarchy.merge
  cases h.get? other with
  | none => exact hforest
  | some given =>
    have hmerged : (h.edit n (·.merge given.contents)).Forest :=
      hforest.edit n fun contents => contents.id_merge given.contents
    exact hmerged.attachAll n given.children.values

end Forest

section Add

/-- One more member, without a parent and without children. -/
def enlarged (h : Hierarchy) (contents : Contents) : Hierarchy :=
  ⟨h.members ++ [{ contents := contents }]⟩

theorem get?_enlarged (h : Hierarchy) (contents : Contents) (k : Nat) :
    (h.enlarged contents).get? k =
      if k = h.members.length then some { contents := contents } else h.get? k := by
  unfold enlarged get?
  by_cases hk : k = h.members.length
  · simp [hk]
  · by_cases hlt : k < h.members.length
    · simp [List.getElem?_append_left hlt, hk]
    · have hle : h.members.length + 1 ≤ k := by omega
      simp [hk, List.getElem?_eq_none (l := h.members) (by omega : h.members.length ≤ k),
        List.getElem?_eq_none (by simpa using hle :
          (h.members ++ [({ contents := contents } : Member)]).length ≤ k)]

variable (hforest : h.Forest) (contents : Contents)

include hforest

theorem Forest.rearranged_enlarged :
    h.Rearranged (h.enlarged contents) h.members.length := by
  have hholds : ∀ m id k, (h.enlarged contents).Holds m id k → h.Holds m id k := by
    rintro m id k ⟨member, hm, hmem⟩
    rw [get?_enlarged] at hm
    split at hm
    · cases hm
      simp at hmem
    · exact ⟨member, hm, hmem⟩
  refine hforest.linked.rearranged ?_ ?_ (fun m id k hk _ => hholds m id k hk) ?_
  · intro k hk
    rw [get?_enlarged, if_neg hk]
  · intro m member hm
    rw [get?_enlarged] at hm
    split at hm
    · cases hm
      exact OrderedMap.distinct_empty
    · exact hforest.linked.distinct m member hm
  · intro m id hm
    obtain ⟨child, hchild, -⟩ := hforest.linked.held m id _ (hholds m id _ hm)
    exact absurd (lt_of_get? hchild) (by omega)

theorem Forest.enlarged : (h.enlarged contents).Forest where
  linked := (hforest.rearranged_enlarged contents).linked
  lineage top way k member htop hway hk := by
    have hmoved := hforest.rearranged_enlarged contents
    have hself := h.get?_enlarged contents h.members.length
    rw [if_pos rfl] at hself
    have hchildless : ∀ id k, ¬ (h.enlarged contents).Holds h.members.length id k := by
      rintro id k ⟨member, hm, hmem⟩
      obtain rfl : _ = member := by simpa [hself] using hm
      simp at hmem
    by_cases hnew : h.members.length ∈ top :: way
    · -- nobody holds the new member, so that the way begins and ends with it
      obtain ⟨before, -, hbefore⟩ := hway.prior hnew
      cases hbefore with
      | here =>
        obtain ⟨rfl, rfl⟩ := hway.of_childless hchildless
        obtain rfl : _ = member := by simpa [hself] using hk
        rfl
      | down _ hholds => exact absurd ⟨_, hself, rfl⟩ (hmoved.linked.not_top_of_holds hholds)
    · exact hmoved.lineage_eq hforest htop hway hnew hk

theorem Forest.add (parent : Option Nat) : (h.add contents parent).Forest := by
  cases parent with
  | none =>
    refine (hforest.rearranged_enlarged contents).forest hforest ?_
    simp [Hierarchy.enlarged]
  | some parent => exact (hforest.enlarged contents).attach parent h.members.length

end Add

/-- Each member of a copy is made and then taken in by its parent. -/
theorem Forest.copyWithin (hforest : h.Forest) (fuel n : Nat) :
    (copyWithin fuel h n).Forest := by
  induction fuel generalizing h n with
  | zero => exact hforest
  | succ fuel ih =>
    unfold Hierarchy.copyWithin
    cases h.get? n with
    | none => exact hforest
    | some member =>
      have hmade := hforest.add member.contents none
      dsimp only
      generalize h.add member.contents none = acc at hmade ⊢
      induction member.children.values generalizing acc with
      | nil => exact hmade
      | cons child rest ihRest => exact ihRest _ ((ih hmade child).attach _ _)

/-- The hierarchies that come of edits. Ids may come again, and a member may be put below itself;
only what goes in a circle cannot be copied. -/
inductive Edited : Hierarchy → Prop
  | start : Edited {}
  | add {h : Hierarchy} (hedited : Edited h) (contents : Contents) (parent : Option Nat) :
      Edited (h.add contents parent)
  | setId {h : Hierarchy} (hedited : Edited h) (n : Nat) (id : String) : Edited (h.setId n id)
  | setName {h : Hierarchy} (hedited : Edited h) (n : Nat) (name : String) :
      Edited (h.setName n name)
  | move {h : Hierarchy} (hedited : Edited h) (n : Nat) (parent : Option Nat) :
      Edited (h.move n parent)
  | attach {h : Hierarchy} (hedited : Edited h) (parent n : Nat) : Edited (h.attach parent n)
  | merge {h : Hierarchy} (hedited : Edited h) (n other : Nat) : Edited (h.merge n other)
  | copy {h : Hierarchy} (hedited : Edited h) (n : Nat) (hfree : h.CircleFree n) :
      Edited (h.copy n)
  /-- All other contents may be changed at any time. -/
  | edit {h : Hierarchy} (hedited : Edited h) (n : Nat) (f : Contents → Contents)
      (hid : ∀ contents, (f contents).id = contents.id)
      (hname : ∀ contents, (f contents).name = contents.name) : Edited (h.edit n f)

theorem forest_start : ({} : Hierarchy).Forest where
  linked := {
    distinct := fun _ _ hn => by simp [get?] at hn
    held := fun _ _ _ hk => by
      obtain ⟨member, hn, -⟩ := hk
      simp [get?] at hn }
  lineage _ _ _ _ _ _ hn := by simp [get?] at hn

theorem Edited.forest (hedited : Edited h) : h.Forest := by
  induction hedited with
  | start => exact forest_start
  | add _ contents parent ih => exact ih.add contents parent
  | setId _ n id ih => exact ih.setId n id
  | setName _ n name ih => exact ih.setName n name
  | move _ n parent ih => exact ih.move n parent
  | attach _ parent n ih => exact ih.attach parent n
  | merge _ n other ih => exact ih.merge n other
  | copy _ n _ ih => exact ih.copyWithin _ n
  | edit _ n f hid _ ih => exact ih.edit n hid

/-- Nobody is held twice, neither by one member nor by two. -/
theorem Linked.children_nodup (hlinked : h.Linked) :
    (h.members.flatMap (·.children.values)).Nodup := by
  have hholds : ∀ (n : Nat) (hn : n < h.members.length) (entry : String × Nat),
      entry ∈ (h.members[n]).children.entries → h.Holds n entry.1 entry.2 :=
    fun n hn entry hmem => ⟨h.members[n], List.getElem?_eq_getElem hn, hmem⟩
  rw [List.nodup_flatMap]
  constructor
  · intro member hmember
    obtain ⟨n, hn, rfl⟩ := List.getElem_of_mem hmember
    have hkeys := hlinked.distinct n _ (List.getElem?_eq_getElem hn)
    -- a child that came twice would have two ids
    have hids : (h.members[n]).children.entries.map (·.1) =
        (h.members[n]).children.values.map h.idAt := by
      unfold OrderedMap.values
      rw [List.map_map]
      refine List.map_congr_left fun entry hentry => ?_
      obtain ⟨child, hchild, hid, -⟩ := hlinked.held n _ _ (hholds n hn entry hentry)
      simp [idAt_of_get? hchild, hid]
    have hnodup : (h.members[n]).children.keys.Nodup := hkeys
    unfold OrderedMap.keys at hnodup
    rw [hids] at hnodup
    exact hnodup.of_map
  · refine List.pairwise_iff_getElem.mpr fun m n hm hn hlt => ?_
    intro k hkm hkn
    obtain ⟨id, hid⟩ := OrderedMap.mem_values.mp hkm
    obtain ⟨id', hid'⟩ := OrderedMap.mem_values.mp hkn
    have heq := hlinked.holder_eq (hholds m hm (id, k) hid) (hholds n hn (id', k) hid')
    omega

/-- Whatever edits were made: children are held under their ids and by the parent that they know
of, each once. No two ways lead from members without a parent to one member, and where one does,
the path of the member consists of the ids on it, and the outer path of all but the last. -/
theorem traced_in_one_way (hedited : Edited h) :
    (∀ n id k, h.Holds n id k →
      ∃ child, h.get? k = some child ∧ child.id = id ∧ child.parent = some n) ∧
    (h.members.flatMap (·.children.values)).Nodup ∧
    ∀ top way n, h.IsTop top → h.Descends top way n →
      (∀ top' way', h.IsTop top' → h.Descends top' way' n → top' = top ∧ way' = way) ∧
      ∃ member, h.get? n = some member ∧
        Scope.lineageText member.lineage = String.join (way.map fun k => "/" ++ h.idAt k) ∧
        Scope.lineageText member.lineage.dropLast =
          String.join (way.dropLast.map fun k => "/" ++ h.idAt k) := by
  have hforest := hedited.forest
  refine ⟨hforest.linked.held, hforest.linked.children_nodup, ?_⟩
  intro top way n htop hway
  obtain ⟨member, hmember⟩ : ∃ member, h.get? n = some member := by
    cases hway with
    | here => exact ⟨_, htop.choose_spec.1⟩
    | down _ hholds =>
      obtain ⟨child, hchild, -⟩ := hforest.linked.held _ _ _ hholds
      exact ⟨child, hchild⟩
  have hlineage := hforest.lineage top way n member htop hway hmember
  refine ⟨fun top' way' htop' hway' => hforest.linked.one_way htop htop' hway hway',
    member, hmember, ?_, ?_⟩
  · simp [Scope.lineageText, hlineage, Function.comp_def]
  · simp [Scope.lineageText, hlineage, ← List.map_dropLast, Function.comp_def]

/-- Member 2 pushes out member 1, which has the same id. Then member 0 is put below member 2, its
own child, and taken out again. At last member 2 gets a new id and takes member 1 in. -/
def reopened : Hierarchy :=
  ((((((({} : Hierarchy).add { id := "a" } none).add { id := "b" } (some 0)).add { id := "b" }
    (some 0)).move 0 (some 2)).move 0 none).setId 2 "c").attach 2 1

theorem traced_in_one_way_reopened :
    Edited reopened ∧ reopened.IsTop 0 ∧ reopened.Descends 0 [2, 1] 1 ∧
      ∃ member, reopened.get? 1 = some member ∧ Scope.lineageText member.lineage = "/c/b" ∧
        Scope.lineageText member.lineage.dropLast = "/c" := by
  have hedited : Edited reopened :=
    ((((((Edited.start.add _ _).add _ _).add _ _).move _ _).move _ _).setId _ _).attach _ _
  have htop : reopened.IsTop 0 := by
    have h0 : (reopened.get? 0).map (·.parent) = some none := by cbv
    obtain ⟨member, hmember, hparent⟩ := Option.map_eq_some_iff.mp h0
    exact ⟨member, hmember, hparent⟩
  have hholds : ∀ n id k, (reopened.get? n).map (·.children.entries) = some [(id, k)] →
      reopened.Holds n id k := by
    intro n id k hn
    obtain ⟨member, hmember, hchildren⟩ := Option.map_eq_some_iff.mp hn
    exact ⟨member, hmember, by simp [hchildren]⟩
  have hway : reopened.Descends 0 [2, 1] 1 :=
    (Descends.here.down (hholds 0 "c" 2 (by cbv))).down (hholds 2 "b" 1 (by cbv))
  obtain ⟨-, member, hmember, hpath, houter⟩ := (traced_in_one_way hedited).2.2 0 [2, 1] 1 htop hway
  have hids : reopened.idAt 2 = "c" ∧ reopened.idAt 1 = "b" := ⟨by cbv, by cbv⟩
  refine ⟨hedited, htop, hway, member, hmember, ?_, ?_⟩
  · simp [hpath, hids]
  · simp [houter, hids]

end Hierarchy

end RecipeGraph.Graph
