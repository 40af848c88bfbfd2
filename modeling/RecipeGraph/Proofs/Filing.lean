import RecipeGraph.Proofs.Forest

/-!
The names by which members ask for their children. As long as no two members have one id, children
are found under their ids and names lead to children that bear them. A member is taken in first
and then let go elsewhere; its name is taken back there if it leads to this member.
-/
namespace RecipeGraph.Graph

/-- What others see of a member. -/
def Member.card (member : Member) :
    String × String × Option Nat × OrderedMap Nat × OrderedMap String :=
  (member.id, member.name, member.parent, member.children, member.names)

theorem get?_released (children : OrderedMap Nat) (n : Nat) (id key : String) :
    (released children n id).get? key =
      if id = key ∧ children.get? id = some n then none else children.get? key := by
  unfold released
  by_cases hheld : children.get? id = some n
  · rw [if_pos hheld, OrderedMap.get?_erase]
    simp [hheld]
  · rw [if_neg hheld, if_neg fun h => hheld h.2]

theorem get?_released_eq_some {children : OrderedMap Nat} {n k : Nat} {id key : String} :
    (released children n id).get? key = some k ↔
      ¬ (id = key ∧ children.get? id = some n) ∧ children.get? key = some k := by
  rw [get?_released]
  by_cases hleft : id = key ∧ children.get? id = some n <;> simp [hleft]

theorem get?_disowned (names : OrderedMap String) (id name key : String) :
    (disowned names id name).get? key =
      if name = key ∧ name ≠ "" ∧ names.get? name = some id then none else names.get? key := by
  unfold disowned
  by_cases hheld : name ≠ "" ∧ names.get? name = some id
  · rw [if_pos hheld, OrderedMap.get?_erase]
    simp [hheld]
  · rw [if_neg hheld, if_neg fun h => hheld h.2]

theorem get?_disowned_eq_some {names : OrderedMap String} {id name key found : String} :
    (disowned names id name).get? key = some found ↔
      ¬ (name = key ∧ name ≠ "" ∧ names.get? name = some id) ∧ names.get? key = some found := by
  rw [get?_disowned]
  by_cases hleft : name = key ∧ name ≠ "" ∧ names.get? name = some id <;> simp [hleft]

namespace Hierarchy

/-- No two members have one id. -/
def DistinctIds (h : Hierarchy) : Prop :=
  (h.members.map Member.id).Nodup

/-- A member has a child under an id. -/
def Finds (h : Hierarchy) (p : Nat) (id : String) (k : Nat) : Prop :=
  ∃ around, h.get? p = some around ∧ around.children.get? id = some k

/-- A member has a child of a name. -/
def Names (h : Hierarchy) (p : Nat) (name id : String) : Prop :=
  ∃ k child, h.Finds p id k ∧ h.get? k = some child ∧ child.id = id ∧ child.name = name

/-- Children are found under their ids by the parents that they know of, and names lead to
children that bear them. -/
structure Filed (h : Hierarchy) : Prop where
  held : ∀ p id k, h.Finds p id k → ∃ child, h.get? k = some child ∧ child.id = id
  housed : ∀ k child p, h.get? k = some child → child.parent = some p → h.Finds p child.id k
  leads : ∀ p around name id, h.get? p = some around → around.names.get? name = some id →
    name ≠ "" ∧ h.Names p name id

/-- Every child of a member that has a name can be asked for by it. -/
def Lists (h : Hierarchy) (p : Nat) : Prop :=
  ∀ around name id, h.get? p = some around → h.Names p name id → name ≠ "" →
    around.names.get? name ≠ none

/-- If the name of a member leads to it at `q`, no other child of `q` bears the name. -/
def Alone (h : Hierarchy) (q n : Nat) : Prop :=
  ∀ member ∈ h.get? n, ∀ around ∈ h.get? q, around.names.get? member.name = some member.id →
    ∀ k ∈ around.children.values, ∀ child ∈ h.get? k, child.name = member.name → k = n

instance (h : Hierarchy) : Decidable h.DistinctIds :=
  inferInstanceAs (Decidable (h.members.map Member.id).Nodup)

instance (h : Hierarchy) (q n : Nat) : Decidable (h.Alone q n) :=
  inferInstanceAs (Decidable (∀ member ∈ h.get? n, ∀ around ∈ h.get? q,
    around.names.get? member.name = some member.id →
      ∀ k ∈ around.children.values, ∀ child ∈ h.get? k, child.name = member.name → k = n))

variable {h h' : Hierarchy} {n k m p q : Nat} {member around child : Member} {id name : String}
  {parent : Option Nat}

theorem DistinctIds.eq (hids : h.DistinctIds) (hm : h.get? m = some member)
    (hk : h.get? k = some child) (hid : member.id = child.id) : m = k := by
  have hlength : m < (h.members.map Member.id).length := by simpa using lt_of_get? hm
  refine (List.getElem?_inj hlength hids).mp ?_
  have hm' : h.members[m]? = some member := hm
  have hk' : h.members[k]? = some child := hk
  rw [List.getElem?_map, List.getElem?_map, hm', hk', Option.map_some, Option.map_some, hid]

/-- The same ids at the same places. -/
theorem DistinctIds.congr (hids : h.DistinctIds)
    (hsame : ∀ k, (h'.get? k).map Member.id = (h.get? k).map Member.id) : h'.DistinctIds := by
  have heq : h'.members.map Member.id = h.members.map Member.id := by
    refine List.ext_getElem? fun k => ?_
    rw [List.getElem?_map, List.getElem?_map]
    exact hsame k
  unfold DistinctIds
  rwa [heq]

/-- Where ids are distinct a member is found under its own id only, and nobody else is. -/
theorem Filed.finds_self (hfiled : h.Filed) (hids : h.DistinctIds) (hn : h.get? n = some member)
    (hfinds : h.Finds p id k) : id = member.id ↔ k = n := by
  obtain ⟨child, hk, hid⟩ := hfiled.held p id k hfinds
  constructor
  · intro hsame
    exact hids.eq hk hn (hid.trans hsame)
  · rintro rfl
    rw [hn] at hk
    cases hk
    exact hid.symm

theorem Finds.mem_values (hfinds : h.Finds p id k) (hp : h.get? p = some around) :
    k ∈ around.children.values := by
  obtain ⟨other, hother, hget⟩ := hfinds
  rw [hp] at hother
  cases hother
  exact OrderedMap.mem_values.mpr ⟨id, OrderedMap.mem_of_get? hget⟩

section Cards

/-- Members of which others see the same. -/
def SameCards (h h' : Hierarchy) : Prop :=
  ∀ k, (h'.get? k).map Member.card = (h.get? k).map Member.card

variable (hsame : h.SameCards h')

include hsame

theorem SameCards.symm : h'.SameCards h :=
  fun k => (hsame k).symm

theorem SameCards.find (hk : h'.get? k = some member) :
    ∃ other, h.get? k = some other ∧ other.id = member.id ∧ other.name = member.name ∧
      other.parent = member.parent ∧ other.children = member.children ∧
      other.names = member.names := by
  have hcards := hsame k
  rw [hk, Option.map_some] at hcards
  obtain ⟨other, hother, heq⟩ := Option.map_eq_some_iff.mp hcards.symm
  simp only [Member.card, Prod.mk.injEq] at heq
  exact ⟨other, hother, heq⟩

theorem SameCards.finds (hfinds : h.Finds p id k) : h'.Finds p id k := by
  obtain ⟨around, hp, hget⟩ := hfinds
  obtain ⟨other, hother, -, -, -, hchildren, -⟩ := hsame.symm.find hp
  exact ⟨other, hother, hchildren ▸ hget⟩

theorem SameCards.named (hnames : h.Names p name id) : h'.Names p name id := by
  obtain ⟨k, child, hfinds, hk, hid, hname⟩ := hnames
  obtain ⟨other, hother, hid', hname', -⟩ := hsame.symm.find hk
  exact ⟨k, other, hsame.finds hfinds, hother, hid'.trans hid, hname'.trans hname⟩

theorem SameCards.distinctIds (hids : h.DistinctIds) : h'.DistinctIds := by
  refine hids.congr fun k => ?_
  have hfirst := congrArg (Option.map Prod.fst) (hsame k)
  rwa [Option.map_map, Option.map_map] at hfirst

theorem SameCards.filed (hfiled : h.Filed) : h'.Filed where
  held p id k hfinds := by
    obtain ⟨child, hk, hid⟩ := hfiled.held p id k (hsame.symm.finds hfinds)
    obtain ⟨other, hother, hid', -⟩ := hsame.symm.find hk
    exact ⟨other, hother, hid'.trans hid⟩
  housed k child p hk hparent := by
    obtain ⟨other, hother, hid, -, hparent', -⟩ := hsame.find hk
    have hfinds := hfiled.housed k other p hother (hparent'.trans hparent)
    exact hsame.finds (hid ▸ hfinds)
  leads p around name id hp hget := by
    obtain ⟨other, hother, -, -, -, -, hnames⟩ := hsame.find hp
    obtain ⟨hname, hleads⟩ := hfiled.leads p other name id hother (hnames ▸ hget)
    exact ⟨hname, hsame.named hleads⟩

theorem SameCards.lists (hlists : h.Lists p) : h'.Lists p := by
  intro around name id hp hnames hname
  obtain ⟨other, hother, -, -, -, -, heq⟩ := hsame.find hp
  exact heq ▸ hlists other name id hother (hsame.symm.named hnames) hname

end Cards

theorem sameCards_refresh (h : Hierarchy) (n : Nat) : h.SameCards (h.refresh n) := by
  intro k
  rw [get?_refresh, Option.map_map]
  congr 1
  funext member
  by_cases hk : k ∈ h.below n <;> simp [hk, Member.card, Member.id, Member.name]

theorem sameCards_edit (h : Hierarchy) (n : Nat) {f : Contents → Contents}
    (hid : ∀ contents, (f contents).id = contents.id)
    (hname : ∀ contents, (f contents).name = contents.name) : h.SameCards (h.edit n f) := by
  intro k
  rw [edit, get?_update, Option.map_map]
  congr 1
  funext member
  by_cases hk : n = k <;> simp [hk, Member.card, Member.id, Member.name, hid, hname]

section Taken

variable (hfiled : h.Filed) (hids : h.DistinctIds) (hn : h.get? n = some member)

theorem find_taken (hk : (h.taken p n member).get? k = some child) :
    ∃ before, h.get? k = some before ∧ before.id = child.id ∧ before.name = child.name ∧
      before.parent = child.parent ∧
      child = if p = k then before.place n member.id member.name else before := by
  rw [get?_taken] at hk
  obtain ⟨before, hbefore, rfl⟩ := Option.map_eq_some_iff.mp hk
  refine ⟨before, hbefore, ?_, ?_, ?_, rfl⟩ <;>
    by_cases hpk : p = k <;> simp [hpk, Member.place, Member.id, Member.name]

theorem keep_taken (p n : Nat) (member : Member) (hk : h.get? k = some child) :
    ∃ after, (h.taken p n member).get? k = some after ∧ after.id = child.id ∧
      after.name = child.name ∧ after.parent = child.parent := by
  refine ⟨if p = k then child.place n member.id member.name else child, ?_, ?_, ?_, ?_⟩
  · rw [get?_taken, hk, Option.map_some]
  all_goals by_cases hpk : p = k <;> simp [hpk, Member.place, Member.id, Member.name]

theorem distinctIds_taken (hids : h.DistinctIds) (p n : Nat) (member : Member) :
    (h.taken p n member).DistinctIds := by
  refine hids.congr fun k => ?_
  rw [get?_taken, Option.map_map]
  congr 1
  funext other
  by_cases hpk : p = k <;> simp [hpk, Member.place, Member.id]

theorem Alone.taken (halone : h.Alone q n) (hpq : p ≠ q) :
    (h.taken p n member).Alone q n := by
  intro self hself other hq hheld k hk child hchild hname
  obtain ⟨before, hbefore, hid, hname', -⟩ := find_taken hself
  obtain ⟨holder, hholder, -, -, -, rfl⟩ := find_taken hq
  rw [if_neg hpq] at hheld hk
  obtain ⟨old, hold, -, hname'', -⟩ := find_taken hchild
  rw [← hid, ← hname'] at hheld
  exact halone before hbefore holder hholder hheld k hk old hold
    (hname''.trans (hname.trans hname'.symm))

include hfiled hids hn

theorem finds_taken (hp : h.get? p = some around) :
    (h.taken p n member).Finds q id k ↔
      h.Finds q id k ∨ (q = p ∧ id = member.id ∧ k = n) := by
  constructor
  · rintro ⟨other, hq, hget⟩
    obtain ⟨before, hbefore, -, -, -, rfl⟩ := find_taken hq
    by_cases hpq : p = q
    · rw [if_pos hpq] at hget
      obtain ⟨hid, rfl⟩ | ⟨-, hold⟩ := OrderedMap.get?_insert_eq_some.mp hget
      · exact Or.inr ⟨hpq.symm, hid.symm, rfl⟩
      · exact Or.inl ⟨before, hbefore, hold⟩
    · rw [if_neg hpq] at hget
      exact Or.inl ⟨before, hbefore, hget⟩
  · rintro (hfinds | ⟨rfl, rfl, rfl⟩)
    · obtain ⟨other, hq, hget⟩ := hfinds
      refine ⟨if p = q then other.place n member.id member.name else other, ?_, ?_⟩
      · rw [get?_taken, hq, Option.map_some]
      · by_cases hpq : p = q
        · rw [if_pos hpq]
          simp only [Member.place, OrderedMap.get?_insert]
          by_cases hid : member.id = id
          · rw [if_pos hid, (hfiled.finds_self hids hn ⟨other, hq, hget⟩).mp hid.symm]
          · rw [if_neg hid, hget]
        · rw [if_neg hpq, hget]
    · refine ⟨around.place k member.id member.name, ?_, ?_⟩
      · rw [get?_taken, hp, Option.map_some, if_pos rfl]
      · exact OrderedMap.get?_insert_self _ _ _

theorem names_taken (hp : h.get? p = some around) :
    (h.taken p n member).Names q name id ↔
      h.Names q name id ∨ (q = p ∧ name = member.name ∧ id = member.id) := by
  constructor
  · rintro ⟨k, child, hfinds, hk, hid, hname⟩
    obtain ⟨before, hbefore, hid', hname', -⟩ := find_taken hk
    rcases (finds_taken hfiled hids hn hp).mp hfinds with hold | ⟨hq, hself, rfl⟩
    · exact Or.inl ⟨k, before, hold, hbefore, hid'.trans hid, hname'.trans hname⟩
    · rw [hn] at hbefore
      cases hbefore
      exact Or.inr ⟨hq, hname.symm.trans hname'.symm, hself⟩
  · intro hnames
    have hafter : ∃ k child, h.get? k = some child ∧ child.id = id ∧ child.name = name ∧
        (h.taken p n member).Finds q id k := by
      rcases hnames with ⟨k, child, hfinds, hk, hid, hname⟩ | ⟨rfl, rfl, rfl⟩
      · exact ⟨k, child, hk, hid, hname, (finds_taken hfiled hids hn hp).mpr (Or.inl hfinds)⟩
      · exact ⟨n, member, hn, rfl, rfl,
          (finds_taken hfiled hids hn hp).mpr (Or.inr ⟨rfl, rfl, rfl⟩)⟩
    obtain ⟨k, child, hk, hid, hname, hfinds⟩ := hafter
    obtain ⟨after, hafter, hid', hname', -⟩ := keep_taken p n member hk
    exact ⟨k, after, hfinds, hafter, hid'.trans hid, hname'.trans hname⟩

theorem Filed.taken (hp : h.get? p = some around) : (h.taken p n member).Filed where
  held q id k hfinds := by
    have hbefore : ∃ child, h.get? k = some child ∧ child.id = id := by
      rcases (finds_taken hfiled hids hn hp).mp hfinds with hold | ⟨-, rfl, rfl⟩
      · exact hfiled.held q id k hold
      · exact ⟨member, hn, rfl⟩
    obtain ⟨child, hk, hid⟩ := hbefore
    obtain ⟨after, hafter, hid', -⟩ := keep_taken p n member hk
    exact ⟨after, hafter, hid'.trans hid⟩
  housed k child q hk hparent := by
    obtain ⟨before, hbefore, hid, -, hparent', -⟩ := find_taken hk
    have hold := hfiled.housed k before q hbefore (hparent'.trans hparent)
    exact (finds_taken hfiled hids hn hp).mpr (Or.inl (hid ▸ hold))
  leads q other name id hq hget := by
    obtain ⟨before, hbefore, -, -, -, rfl⟩ := find_taken hq
    rw [names_taken hfiled hids hn hp]
    by_cases hpq : p = q
    · rw [if_pos hpq] at hget
      simp only [Member.place] at hget
      split at hget
      · exact (hfiled.leads q before name id hbefore hget).imp_right Or.inl
      · rename_i hnamed
        obtain ⟨rfl, rfl⟩ | ⟨-, hold⟩ := OrderedMap.get?_insert_eq_some.mp hget
        · exact ⟨hnamed, Or.inr ⟨hpq.symm, rfl, rfl⟩⟩
        · exact (hfiled.leads q before name id hbefore hold).imp_right Or.inl
    · rw [if_neg hpq] at hget
      exact (hfiled.leads q before name id hbefore hget).imp_right Or.inl

theorem Lists.taken (hlists : h.Lists q) (hp : h.get? p = some around) :
    (h.taken p n member).Lists q := by
  intro other name id hq hnames hname
  obtain ⟨before, hbefore, -, -, -, rfl⟩ := find_taken hq
  by_cases hpq : p = q
  · rw [if_pos hpq]
    simp only [Member.place]
    by_cases hsame : member.name = name
    · rw [if_neg (hsame ▸ hname), hsame, OrderedMap.get?_insert_self]
      exact Option.some_ne_none _
    · have hold : before.names.get? name ≠ none := by
        rcases (names_taken hfiled hids hn hp).mp hnames with hold | ⟨-, rfl, -⟩
        · exact hlists before name id hbefore hold hname
        · exact absurd rfl hsame
      split
      · exact hold
      · rwa [OrderedMap.get?_insert_of_ne _ _ hsame]
  · rw [if_neg hpq]
    rcases (names_taken hfiled hids hn hp).mp hnames with hold | ⟨rfl, -⟩
    · exact hlists before name id hbefore hold hname
    · exact absurd rfl hpq

end Taken

section Reparented

theorem find_reparented (hk : (h.reparented n member parent).get? k = some child) :
    ∃ before, h.get? k = some before ∧ before.id = child.id ∧ before.name = child.name ∧
      child.parent = (if n = k then parent else before.parent) ∧
      child.children = (if member.parent = some k ∧ parent ≠ some k then
        released before.children n member.id else before.children) ∧
      child.names = (if member.parent = some k ∧ parent ≠ some k then
        disowned before.names member.id member.name else before.names) := by
  rw [get?_reparented] at hk
  obtain ⟨before, hbefore, rfl⟩ := Option.map_eq_some_iff.mp hk
  exact ⟨before, hbefore, rfl, rfl, rfl, rfl, rfl⟩

theorem keep_reparented (n : Nat) (member : Member) (parent : Option Nat)
    (hk : h.get? k = some child) :
    ∃ after, (h.reparented n member parent).get? k = some after ∧ after.id = child.id ∧
      after.name = child.name ∧
      after.children = (if member.parent = some k ∧ parent ≠ some k then
        released child.children n member.id else child.children) := by
  have hget := get?_reparented h n k member parent
  rw [hk, Option.map_some] at hget
  exact ⟨_, hget, rfl, rfl, rfl⟩

variable (hfiled : h.Filed) (hids : h.DistinctIds) (hn : h.get? n = some member)

include hfiled hids hn

theorem finds_reparented : (h.reparented n member parent).Finds q id k ↔
    h.Finds q id k ∧ ¬ (k = n ∧ member.parent = some q ∧ parent ≠ some q) := by
  constructor
  · rintro ⟨other, hq, hget⟩
    obtain ⟨before, hbefore, -, -, -, hchildren, -⟩ := find_reparented hq
    rw [hchildren] at hget
    split at hget
    · obtain ⟨hkept, hold⟩ := get?_released_eq_some.mp hget
      refine ⟨⟨before, hbefore, hold⟩, ?_⟩
      rintro ⟨rfl, -⟩
      have hself := (hfiled.finds_self hids hn ⟨before, hbefore, hold⟩).mpr rfl
      exact hkept ⟨hself.symm, hself ▸ hold⟩
    · rename_i hstays
      exact ⟨⟨before, hbefore, hget⟩, fun hboth => hstays hboth.2⟩
  · rintro ⟨⟨before, hq, hget⟩, hstays⟩
    obtain ⟨after, hafter, -, -, hchildren⟩ := keep_reparented n member parent hq
    refine ⟨after, hafter, ?_⟩
    rw [hchildren]
    split
    · rename_i hleft
      rw [get?_released, if_neg, hget]
      rintro ⟨hid, -⟩
      exact hstays ⟨(hfiled.finds_self hids hn ⟨before, hq, hget⟩).mp hid.symm, hleft⟩
    · exact hget

theorem Names.reparented (hnames : h.Names q name id)
    (hother : ¬ (id = member.id ∧ member.parent = some q ∧ parent ≠ some q)) :
    (h.reparented n member parent).Names q name id := by
  obtain ⟨k, child, hfinds, hk, hid, hname⟩ := hnames
  obtain ⟨after, hafter, hid', hname', -⟩ := keep_reparented n member parent hk
  refine ⟨k, after, (finds_reparented hfiled hids hn).mpr ⟨hfinds, ?_⟩, hafter,
    hid'.trans hid, hname'.trans hname⟩
  rintro ⟨hself, hleft⟩
  exact hother ⟨(hfiled.finds_self hids hn hfinds).mpr hself, hleft⟩

theorem Filed.reparented (hparent : ∀ p, parent = some p → h.Finds p member.id n) :
    (h.reparented n member parent).Filed where
  held q id k hfinds := by
    obtain ⟨child, hk, hid⟩ := hfiled.held q id k ((finds_reparented hfiled hids hn).mp hfinds).1
    obtain ⟨after, hafter, hid', -⟩ := keep_reparented n member parent hk
    exact ⟨after, hafter, hid'.trans hid⟩
  housed k child q hk hq := by
    obtain ⟨before, hbefore, hid, -, heq, -⟩ := find_reparented hk
    rw [finds_reparented hfiled hids hn, ← hid]
    rw [heq] at hq
    split at hq
    · rename_i hself
      subst hself
      rw [hn] at hbefore
      cases hbefore
      exact ⟨hparent q hq, fun hleft => hleft.2.2 hq⟩
    · rename_i hother
      exact ⟨hfiled.housed k before q hbefore hq, fun hleft => hother hleft.1.symm⟩
  leads q other name id hq hget := by
    obtain ⟨before, hbefore, -, -, -, -, hnames⟩ := find_reparented hq
    rw [hnames] at hget
    split at hget
    · obtain ⟨hkept, hold⟩ := get?_disowned_eq_some.mp hget
      obtain ⟨hname, hleads⟩ := hfiled.leads q before name id hbefore hold
      refine ⟨hname, hleads.reparented hfiled hids hn ?_⟩
      rintro ⟨rfl, -⟩
      obtain ⟨k, child, hfinds, hk, -, rfl⟩ := hleads
      obtain rfl := (hfiled.finds_self hids hn hfinds).mp rfl
      rw [hn] at hk
      cases hk
      exact hkept ⟨rfl, hname, hold⟩
    · rename_i hstays
      obtain ⟨hname, hleads⟩ := hfiled.leads q before name id hbefore hget
      exact ⟨hname, hleads.reparented hfiled hids hn fun hboth => hstays hboth.2⟩

theorem Lists.reparented (hlists : h.Lists q)
    (halone : member.parent = some q → parent ≠ some q → h.Alone q n) :
    (h.reparented n member parent).Lists q := by
  intro other name id hq hnames hname
  obtain ⟨before, hbefore, -, -, -, -, heq⟩ := find_reparented hq
  obtain ⟨k, child, hfinds, hk, hid, rfl⟩ := hnames
  obtain ⟨hold, hstays⟩ := (finds_reparented hfiled hids hn).mp hfinds
  obtain ⟨origin, horigin, hid', hname', -⟩ := find_reparented hk
  have hfound := hlists before child.name id hbefore
    ⟨k, origin, hold, horigin, hid'.trans hid, hname'⟩ hname
  rw [heq]
  split
  · rename_i hleft
    rw [get?_disowned, if_neg]
    · exact hfound
    · rintro ⟨hsame, -, hheld⟩
      have hself := halone hleft.1 hleft.2 member hn before hbefore hheld k
        (hold.mem_values hbefore) origin horigin (hname'.trans hsame.symm)
      exact hstays ⟨hself, hleft⟩
  · exact hfound

end Reparented

section Attach

variable (hfiled : h.Filed) (hids : h.DistinctIds)

include hfiled hids

theorem Filed.setParent_none (n : Nat) : (h.setParent n none).Filed := by
  cases hn : h.get? n with
  | none => simpa [setParent, hn] using hfiled
  | some member =>
    rw [setParent_eq hn]
    refine (sameCards_refresh _ n).filed (hfiled.reparented hids hn ?_)
    rintro p hnone
    cases hnone

theorem Lists.setParent_none (hlists : h.Lists q)
    (halone : ∀ member ∈ h.get? n, member.parent = some q → h.Alone q n) :
    (h.setParent n none).Lists q := by
  cases hn : h.get? n with
  | none => simpa [setParent, hn] using hlists
  | some member =>
    rw [setParent_eq hn]
    exact (sameCards_refresh _ n).lists
      (hlists.reparented hfiled hids hn fun hparent _ => halone member hn hparent)

/-- To take a member in is to place it and then to let it go elsewhere. -/
theorem attach_split (hn : h.get? n = some member) (hp : h.get? p = some around) :
    ∃ self, (h.taken p n member).get? n = some self ∧ self.id = member.id ∧
      self.name = member.name ∧ self.parent = member.parent ∧
      (h.taken p n member).Finds p self.id n ∧
      h.attach p n = ((h.taken p n member).reparented n self (some p)).refresh n := by
  obtain ⟨self, hself, hid, hparent, heq⟩ := attach_eq (p := p) hn
  obtain ⟨before, hbefore, -, hname, -⟩ := find_taken hself
  rw [hn] at hbefore
  cases hbefore
  refine ⟨self, hself, hid, hname.symm, hparent, ?_, heq⟩
  exact hid ▸ (finds_taken hfiled hids hn hp).mpr (Or.inr ⟨rfl, rfl, rfl⟩)

theorem Filed.attach (hn : h.get? n = some member) (hp : h.get? p = some around) :
    (h.attach p n).Filed := by
  obtain ⟨self, hself, -, -, -, hfinds, heq⟩ := attach_split hfiled hids hn hp
  rw [heq]
  refine (sameCards_refresh _ n).filed ((hfiled.taken hids hn hp).reparented
    (distinctIds_taken hids p n member) hself ?_)
  rintro q hq
  cases hq
  exact hfinds

theorem Lists.attach (hlists : h.Lists q) (hn : h.get? n = some member)
    (hp : h.get? p = some around) (halone : member.parent = some q → p ≠ q → h.Alone q n) :
    (h.attach p n).Lists q := by
  obtain ⟨self, hself, -, -, hparent, -, heq⟩ := attach_split hfiled hids hn hp
  rw [heq]
  refine (sameCards_refresh _ n).lists ((hlists.taken hfiled hids hn hp).reparented
    (hfiled.taken hids hn hp) (distinctIds_taken hids p n member) hself ?_)
  intro hq hne
  have hpq : p ≠ q := fun hsame => hne (congrArg some hsame)
  exact (halone (hparent.symm.trans hq) hpq).taken hpq

end Attach

end Hierarchy

end RecipeGraph.Graph
