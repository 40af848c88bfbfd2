import RecipeGraph.Proofs.Relisting

/-!
What names lead to after any changes. As long as no two members have one id, a name leads to a
child that bears it now, whatever is renamed, moved and merged. Namesakes share one entry, which
belongs to the last to come in or to be named. When that one leaves or takes another name the
entry goes with it, and those that stay can no longer be asked for.
-/
namespace RecipeGraph.Graph

namespace Hierarchy

variable {h : Hierarchy} {n k p q : Nat} {member around child : Member} {id name : String}
  {parent : Option Nat}

section Enlarged

variable (contents : Contents)

theorem find_enlarged (hk : (h.enlarged contents).get? k = some child) :
    child = { contents := contents } ∨ h.get? k = some child := by
  rw [get?_enlarged] at hk
  split at hk
  · cases hk
    exact Or.inl rfl
  · exact Or.inr hk

theorem keep_enlarged (hk : h.get? k = some child) :
    (h.enlarged contents).get? k = some child := by
  rw [get?_enlarged, if_neg (lt_of_get? hk).ne, hk]

theorem finds_enlarged : (h.enlarged contents).Finds q id k ↔ h.Finds q id k := by
  constructor
  · rintro ⟨around, hq, hget⟩
    rcases find_enlarged contents hq with rfl | hold
    · cases hget
    · exact ⟨around, hold, hget⟩
  · rintro ⟨around, hq, hget⟩
    exact ⟨around, keep_enlarged contents hq, hget⟩

theorem Names.enlarged (hnames : h.Names q name id) : (h.enlarged contents).Names q name id := by
  obtain ⟨k, child, hfinds, hk, hboth⟩ := hnames
  exact ⟨k, child, (finds_enlarged contents).mpr hfinds, keep_enlarged contents hk, hboth⟩

variable (hfiled : h.Filed)

include hfiled

theorem Filed.enlarged : (h.enlarged contents).Filed where
  held q id k hfinds := by
    obtain ⟨child, hk, hid⟩ := hfiled.held q id k ((finds_enlarged contents).mp hfinds)
    exact ⟨child, keep_enlarged contents hk, hid⟩
  housed k child q hk hq := by
    rcases find_enlarged contents hk with rfl | hold
    · cases hq
    · exact (finds_enlarged contents).mpr (hfiled.housed k child q hold hq)
  leads q around name id hq hget := by
    rcases find_enlarged contents hq with rfl | hold
    · cases hget
    · exact (hfiled.leads q around name id hold hget).imp_right (.enlarged contents)

theorem Lists.enlarged (hlists : h.Lists q) : (h.enlarged contents).Lists q := by
  rintro around name id hq ⟨k, child, hfinds, hk, hid, hname⟩ hnamed
  have hheld := (finds_enlarged contents).mp hfinds
  obtain ⟨other, hother, -⟩ := hfiled.held q id k hheld
  rw [keep_enlarged contents hother] at hk
  cases hk
  obtain ⟨before, hbefore, hget⟩ := hheld
  rw [keep_enlarged contents hbefore] at hq
  cases hq
  exact hlists around name id hbefore ⟨k, child, ⟨around, hbefore, hget⟩, hother, hid, hname⟩
    hnamed

end Enlarged

section Merged

theorem ids_attach (h : Hierarchy) (p n k : Nat) :
    ((h.attach p n).get? k).map Member.id = (h.get? k).map Member.id := by
  cases hn : h.get? n with
  | none => simp [Hierarchy.attach, hn]
  | some member =>
    obtain ⟨self, -, -, -, heq⟩ := attach_eq (p := p) hn
    have hcards := congrArg (Option.map Prod.fst)
      (sameCards_refresh ((h.taken p n member).reparented n self (some p)) n k)
    rw [Option.map_map, Option.map_map] at hcards
    rw [heq]
    refine hcards.trans ?_
    rw [get?_reparented, get?_taken, Option.map_map, Option.map_map]
    congr 1
    funext other
    by_cases hpk : p = k <;> simp [hpk, Member.card, Member.place, Member.id]

theorem distinctIds_attach (h : Hierarchy) (p n : Nat) :
    (h.attach p n).DistinctIds ↔ h.DistinctIds :=
  ⟨fun hids => hids.congr fun k => (ids_attach h p n k).symm,
    fun hids => hids.congr (ids_attach h p n)⟩

theorem length_attach (h : Hierarchy) (p n : Nat) :
    (h.attach p n).members.length = h.members.length := by
  cases hn : h.get? n with
  | none => simp [Hierarchy.attach, hn]
  | some member =>
    obtain ⟨self, -, -, -, heq⟩ := attach_eq (p := p) hn
    rw [heq, length_refresh, length_reparented]
    exact length_update ..

theorem exists_get? (hk : k < h.members.length) : ∃ member, h.get? k = some member :=
  ⟨_, List.getElem?_eq_getElem hk⟩

/-- Only the member that is taken in changes its parent. -/
theorem find_attach (hn : h.get? n = some member) (hk : (h.attach p n).get? k = some child) :
    ∃ before, h.get? k = some before ∧ child.parent = if n = k then some p else before.parent := by
  obtain ⟨self, -, -, -, heq⟩ := attach_eq (p := p) hn
  rw [heq] at hk
  obtain ⟨moved, hmoved, -, -, hparent, -⟩ := (sameCards_refresh _ n).find hk
  obtain ⟨placed, hplaced, -, -, hparent', -⟩ := find_reparented hmoved
  obtain ⟨before, hbefore, -, -, hparent'', -⟩ := find_taken hplaced
  exact ⟨before, hbefore, hparent.symm.trans (hparent'.trans (hparent'' ▸ rfl))⟩

/-- All is in order, and the members that are still to move to `n` are those that `other` holds,
or some of them if it is `n` itself. -/
structure Leaving (h : Hierarchy) (other n : Nat) (rest : List Nat) : Prop where
  filed : h.Filed
  ids : h.DistinctIds
  forest : h.Forest
  left : other ≠ n → ∀ id k, h.Finds other id k → k ∈ rest
  parents : ∀ k ∈ rest, ∃ child, h.get? k = some child ∧ child.parent = some other

theorem Leaving.attach {other first : Nat} {rest : List Nat}
    (hleaving : h.Leaving other n (first :: rest)) (hnew : first ∉ rest)
    (hn : n < h.members.length) : (h.attach n first).Leaving other n rest := by
  obtain ⟨around, haround⟩ := exists_get? hn
  obtain ⟨moving, hmoving, -⟩ := hleaving.parents first (List.mem_cons_self ..)
  have hforest := hleaving.forest.attach n first
  constructor
  case filed => exact hleaving.filed.attach hleaving.ids hmoving haround
  case ids => exact (distinctIds_attach h n first).mpr hleaving.ids
  case forest => exact hforest
  case left =>
    intro hne id k hfinds
    obtain ⟨after, hafter, -⟩ := (hleaving.filed.attach hleaving.ids hmoving haround).held _ _ _
      hfinds
    have hparent := hforest.linked.parent_of_finds hafter hfinds
    obtain ⟨before, hbefore, heq⟩ := find_attach hmoving hafter
    rw [hparent] at heq
    split at heq
    · exact absurd (Option.some.inj heq) hne
    · rename_i hother
      have hheld := hleaving.filed.housed k before other hbefore heq.symm
      exact (List.mem_cons.mp (hleaving.left hne _ k hheld)).resolve_left (Ne.symm hother)
  case parents =>
    intro k hk
    obtain ⟨child, hchild, hparent⟩ := hleaving.parents k (List.mem_cons_of_mem _ hk)
    obtain ⟨after, hafter⟩ := exists_get? ((length_attach h n first).symm ▸ lt_of_get? hchild)
    obtain ⟨before, hbefore, heq⟩ := find_attach hmoving hafter
    rw [hchild] at hbefore
    cases hbefore
    have hne : first ≠ k := fun hsame => hnew (hsame ▸ hk)
    rw [if_neg hne] at heq
    exact ⟨after, hafter, heq.trans hparent⟩

theorem Leaving.attachAll {other : Nat} {rest : List Nat} (hleaving : h.Leaving other n rest)
    (hnodup : rest.Nodup) (hn : n < h.members.length) :
    (rest.foldl (fun acc k => acc.attach n k) h).Leaving other n [] ∧
      ∀ q, (q = other → other = n) → h.Lists q →
        (rest.foldl (fun acc k => acc.attach n k) h).Lists q := by
  induction rest generalizing h with
  | nil => exact ⟨hleaving, fun _ _ hlists => hlists⟩
  | cons first rest ih =>
    obtain ⟨hnew, hrest⟩ := List.nodup_cons.mp hnodup
    obtain ⟨hlast, hkept⟩ := ih (hleaving.attach hnew hn) hrest
      ((length_attach h n first).symm ▸ hn)
    refine ⟨hlast, fun q hq hlists => hkept q hq ?_⟩
    obtain ⟨around, haround⟩ := exists_get? hn
    obtain ⟨moving, hmoving, hparent⟩ := hleaving.parents first (List.mem_cons_self ..)
    refine hlists.attach hleaving.filed hleaving.ids hmoving haround fun hheld hne => ?_
    obtain rfl := Option.some.inj (hheld.symm.trans hparent)
    exact absurd (hq rfl).symm hne

theorem leaving_merge (hfiled : h.Filed) (hids : h.DistinctIds) (hforest : h.Forest) {other : Nat}
    {given : Member} (hother : h.get? other = some given) (n : Nat) :
    (h.edit n (·.merge given.contents)).Leaving other n given.children.values := by
  have hsame := sameCards_edit h n (f := (·.merge given.contents))
    (fun contents => contents.id_merge given.contents)
    fun contents => contents.name_merge given.contents
  constructor
  case filed => exact hsame.filed hfiled
  case ids => exact hsame.distinctIds hids
  case forest => exact hforest.edit n fun contents => contents.id_merge given.contents
  case left =>
    intro _ id k hfinds
    exact (hsame.symm.finds hfinds).mem_values hother
  case parents =>
    intro k hk
    obtain ⟨id, hmem⟩ := OrderedMap.mem_values.mp hk
    obtain ⟨child, hchild, -, hparent⟩ := hforest.linked.held other id k ⟨given, hother, hmem⟩
    obtain ⟨after, hafter, -, -, heq, -⟩ := hsame.symm.find hchild
    exact ⟨after, hafter, heq.trans hparent⟩

theorem merged (hfiled : h.Filed) (hids : h.DistinctIds) (hforest : h.Forest) (other : Nat)
    (hn : n < h.members.length) :
    (h.merge n other).Filed ∧ ((∀ q, h.Lists q) → ∀ q, (h.merge n other).Lists q) := by
  unfold Hierarchy.merge
  cases hother : h.get? other with
  | none => exact ⟨hfiled, fun hlists => hlists⟩
  | some given =>
    have hnodup : given.children.values.Nodup :=
      (List.nodup_flatMap.mp hforest.linked.children_nodup).1 given (List.mem_of_getElem? hother)
    have hlength : n < (h.edit n (·.merge given.contents)).members.length := by
      rwa [edit, length_update]
    obtain ⟨hlast, hkept⟩ :=
      (leaving_merge hfiled hids hforest hother n).attachAll hnodup hlength
    refine ⟨hlast.filed, fun hlists q => ?_⟩
    have hsame := sameCards_edit h n (f := (·.merge given.contents))
      (fun contents => contents.id_merge given.contents)
      fun contents => contents.name_merge given.contents
    by_cases hleft : q = other ∧ other ≠ n
    · -- nobody is left there
      obtain ⟨rfl, hne⟩ := hleft
      rintro around name id hq ⟨k, child, hfinds, -⟩
      exact absurd (hlast.left hne id k hfinds) List.not_mem_nil
    · refine hkept q (fun hq => ?_) (hsame.lists (hlists q))
      by_contra hne
      exact hleft ⟨hq, hne⟩

end Merged

end Hierarchy

/-- What can be done to members. -/
inductive Change
  | add (contents : Contents) (parent : Option Nat)
  | setId (n : Nat) (id : String)
  | setName (n : Nat) (name : String)
  | move (n : Nat) (parent : Option Nat)
  | attach (parent n : Nat)
  | merge (n other : Nat)

namespace Change

def apply (h : Hierarchy) : Change → Hierarchy
  | add contents parent => h.add contents parent
  | setId n id => h.setId n id
  | setName n name => h.setName n name
  | move n parent => h.move n parent
  | attach parent n => h.attach parent n
  | merge n other => h.merge n other

/-- The change is made to members that are there. -/
def Fits (h : Hierarchy) : Change → Prop
  | add _ parent => ∀ p ∈ parent, p < h.members.length
  | setId n _ => n < h.members.length
  | setName n _ => n < h.members.length
  | move n parent => n < h.members.length ∧ ∀ p ∈ parent, p < h.members.length
  | attach parent n => parent < h.members.length ∧ n < h.members.length
  | merge n other => n < h.members.length ∧ other < h.members.length

/-- Nobody who stays loses a name to a member that leaves or takes another name. -/
def Spares (h : Hierarchy) : Change → Prop
  | setName n name => ∀ member ∈ h.get? n, ∀ p ∈ member.parent, member.name ≠ name → h.Alone p n
  | move n parent => ∀ member ∈ h.get? n, ∀ p ∈ member.parent, parent ≠ some p → h.Alone p n
  | attach parent n => ∀ member ∈ h.get? n, ∀ p ∈ member.parent, parent ≠ p → h.Alone p n
  | _ => True

instance (h : Hierarchy) (change : Change) : Decidable (change.Fits h) :=
  match change with
  | add _ parent => inferInstanceAs (Decidable (∀ p ∈ parent, p < h.members.length))
  | setId n _ => inferInstanceAs (Decidable (n < h.members.length))
  | setName n _ => inferInstanceAs (Decidable (n < h.members.length))
  | move n parent =>
    inferInstanceAs (Decidable (n < h.members.length ∧ ∀ p ∈ parent, p < h.members.length))
  | attach parent n =>
    inferInstanceAs (Decidable (parent < h.members.length ∧ n < h.members.length))
  | merge n other => inferInstanceAs (Decidable (n < h.members.length ∧ other < h.members.length))

instance (h : Hierarchy) (change : Change) : Decidable (change.Spares h) :=
  match change with
  | add _ _ | setId _ _ | merge _ _ => inferInstanceAs (Decidable True)
  | setName n name => inferInstanceAs (Decidable (∀ member ∈ h.get? n, ∀ p ∈ member.parent,
      member.name ≠ name → h.Alone p n))
  | move n parent => inferInstanceAs (Decidable (∀ member ∈ h.get? n, ∀ p ∈ member.parent,
      parent ≠ some p → h.Alone p n))
  | attach parent n => inferInstanceAs (Decidable (∀ member ∈ h.get? n, ∀ p ∈ member.parent,
      parent ≠ p → h.Alone p n))

end Change

/-- What comes of changes of a kind under which all members always have ids of their own. -/
inductive Built (kind : Hierarchy → Change → Prop) : Hierarchy → Prop
  | start : Built kind {}
  | step {h : Hierarchy} (hbuilt : Built kind h) (change : Change) (hfits : change.Fits h)
      (hkind : kind h change) (hids : (change.apply h).DistinctIds) :
      Built kind (change.apply h)

theorem Built.any {kind : Hierarchy → Change → Prop} {h : Hierarchy} (hbuilt : Built kind h) :
    Built (fun _ _ => True) h := by
  induction hbuilt with
  | start => exact .start
  | step _ change hfits _ hids ih => exact ih.step change hfits trivial hids

section Built

open Hierarchy

variable {h : Hierarchy} {change : Change} {kind : Hierarchy → Change → Prop}

/-- What a change leaves as it should be. -/
theorem Change.kept (hfiled : h.Filed) (hids : h.DistinctIds) (hforest : h.Forest)
    (hfits : change.Fits h) (hids' : (change.apply h).DistinctIds) :
    (change.apply h).Filed ∧
      (change.Spares h → (∀ q, h.Lists q) → ∀ q, (change.apply h).Lists q) := by
  cases change with
  | add contents parent =>
    cases parent with
    | none =>
      have hsame := sameCards_refresh (h.enlarged contents) h.members.length
      exact ⟨hsame.filed (hfiled.enlarged contents),
        fun _ hlists q => hsame.lists ((hlists q).enlarged contents hfiled)⟩
    | some p =>
      obtain ⟨around, haround⟩ := exists_get? (hfits p rfl)
      have hp := keep_enlarged contents haround
      have hnew := h.get?_enlarged contents h.members.length
      rw [if_pos rfl] at hnew
      have henlarged : (h.enlarged contents).DistinctIds := (distinctIds_attach _ _ _).mp hids'
      refine ⟨(hfiled.enlarged contents).attach henlarged hnew hp, fun _ hlists q => ?_⟩
      refine ((hlists q).enlarged contents hfiled).attach (hfiled.enlarged contents) henlarged
        hnew hp fun hnone => ?_
      cases hnone
  | setId n id =>
    obtain ⟨member, hn⟩ := exists_get? hfits
    have hsame := sameCards_refresh (h.reidentified n member id) n
    have heq : Change.apply h (.setId n id) = (h.reidentified n member id).refresh n :=
      setId_eq hn id
    rw [heq] at hids' ⊢
    have hids'' := hsame.symm.distinctIds hids'
    exact ⟨hsame.filed (hfiled.reidentified hids hforest.linked hn hids''), fun _ hlists q =>
      hsame.lists ((hlists q).reidentified hfiled hids hforest.linked hn hids'')⟩
  | setName n name =>
    obtain ⟨member, hn⟩ := exists_get? hfits
    have heq : Change.apply h (.setName n name) = h.renamed n member name := setName_eq hn name
    rw [heq]
    refine ⟨hfiled.renamed hids hforest.linked hn name, fun hspares hlists q => ?_⟩
    exact (hlists q).renamed hforest.linked hn fun hparent => hspares member hn q hparent
  | move n parent =>
    obtain ⟨hn, hp⟩ := hfits
    cases parent with
    | none =>
      refine ⟨hfiled.setParent_none hids n, fun hspares hlists q => ?_⟩
      refine (hlists q).setParent_none hfiled hids fun member hmember hparent => ?_
      exact hspares member hmember q hparent fun hnone => nomatch hnone
    | some p =>
      obtain ⟨member, hmember⟩ := exists_get? hn
      obtain ⟨around, haround⟩ := exists_get? (hp p rfl)
      refine ⟨hfiled.attach hids hmember haround, fun hspares hlists q => ?_⟩
      refine (hlists q).attach hfiled hids hmember haround fun hparent hne => ?_
      exact hspares member hmember q hparent fun hsame => hne (Option.some.inj hsame)
  | attach p n =>
    obtain ⟨member, hmember⟩ := exists_get? hfits.2
    obtain ⟨around, haround⟩ := exists_get? hfits.1
    refine ⟨hfiled.attach hids hmember haround, fun hspares hlists q => ?_⟩
    exact (hlists q).attach hfiled hids hmember haround (hspares member hmember q)
  | merge n other =>
    obtain ⟨hmerged, hkept⟩ := merged hfiled hids hforest other hfits.1
    exact ⟨hmerged, fun _ => hkept⟩

theorem Built.forest (hbuilt : Built kind h) : h.Forest := by
  refine Edited.forest ?_
  induction hbuilt with
  | start => exact .start
  | step _ change _ _ _ ih =>
    cases change with
    | add contents parent => exact ih.add contents parent
    | setId n id => exact ih.setId n id
    | setName n name => exact ih.setName n name
    | move n parent => exact ih.move n parent
    | attach parent n => exact ih.attach parent n
    | merge n other => exact ih.merge n other

theorem Built.distinctIds (hbuilt : Built kind h) : h.DistinctIds := by
  cases hbuilt with
  | start => exact List.nodup_nil
  | step _ _ _ _ hids => exact hids

theorem Built.filed (hbuilt : Built kind h) : h.Filed := by
  induction hbuilt with
  | start =>
    constructor
    case held =>
      rintro p id k ⟨around, hnone, -⟩
      cases hnone
    case housed =>
      intro k child p hnone
      cases hnone
    case leads =>
      intro p around name id hnone
      cases hnone
  | step hbuilt change hfits _ hids ih =>
    exact (Change.kept ih hbuilt.distinctIds hbuilt.forest hfits hids).1

theorem Built.lists (hbuilt : Built (fun h change => change.Spares h) h) : ∀ q, h.Lists q := by
  induction hbuilt with
  | start =>
    intro q around name id hnone
    cases hnone
  | step hbuilt change hfits hspares hids ih =>
    exact (Change.kept hbuilt.filed hbuilt.distinctIds hbuilt.forest hfits hids).2 hspares ih

/-- Every name in the map of a member leads to a child of it that bears the name now. If moreover
no change took a name from a child that stayed, the names in the map are all those that children
bear. -/
theorem names_of_children (hbuilt : Built (fun _ _ => True) h) {p : Nat} {around : Member}
    (hp : h.get? p = some around) :
    (∀ name id, around.names.get? name = some id →
      name ≠ "" ∧ ∃ k child, around.children.get? id = some k ∧ h.get? k = some child ∧
        child.id = id ∧ child.name = name) ∧
    (Built (fun h change => change.Spares h) h → ∀ name, name ∈ around.names.keys ↔
      name ≠ "" ∧ ∃ k ∈ around.children.values, ∃ child, h.get? k = some child ∧
        child.name = name) := by
  have hleads : ∀ name id, around.names.get? name = some id →
      name ≠ "" ∧ ∃ k child, around.children.get? id = some k ∧ h.get? k = some child ∧
        child.id = id ∧ child.name = name := by
    intro name id hget
    obtain ⟨hname, k, child, ⟨holder, hholder, hheld⟩, hrest⟩ :=
      hbuilt.filed.leads p around name id hp hget
    rw [hp] at hholder
    cases hholder
    exact ⟨hname, k, child, hheld, hrest⟩
  refine ⟨hleads, fun hspared name => ⟨fun hkey => ?_, ?_⟩⟩
  · obtain ⟨id, hget⟩ := Option.ne_none_iff_exists'.mp
      fun hnone => OrderedMap.get?_eq_none.mp hnone hkey
    obtain ⟨hname, k, child, hheld, hk, -, hbears⟩ := hleads name id hget
    exact ⟨hname, k, OrderedMap.mem_values.mpr ⟨id, OrderedMap.mem_of_get? hheld⟩, child, hk,
      hbears⟩
  · rintro ⟨hname, k, hmem, child, hk, hbears⟩
    obtain ⟨id, hentry⟩ := OrderedMap.mem_values.mp hmem
    have hlinked := hbuilt.forest.linked
    obtain ⟨held, hheld, hid, -⟩ := hlinked.held p id k ⟨around, hp, hentry⟩
    rw [hk] at hheld
    cases hheld
    have hfinds : h.Finds p id k := ⟨around, hp, (hlinked.distinct p around hp).get?_of_mem hentry⟩
    by_contra hkey
    exact hspared.lists p around name id hp ⟨k, child, hfinds, hk, hid, hbears⟩ hname
      (OrderedMap.get?_eq_none.mpr hkey)

/-- Two children of one name, which leads to the second. -/
def namesakes : Hierarchy :=
  (((({} : Hierarchy).add { id := "r" } none).add { id := "c", name := "a" } (some 0)).add
    { id := "d", name := "a" } (some 0))

theorem built_namesakes : Built (fun h change => change.Spares h) namesakes :=
  .step (.step (.step .start (.add { id := "r" } none) (by decide_cbv) trivial (by decide_cbv))
    (.add { id := "c", name := "a" } (some 0)) (by decide_cbv) trivial (by decide_cbv))
    (.add { id := "d", name := "a" } (some 0)) (by decide_cbv) trivial (by decide_cbv)

/-- The first child may take another name and another id. -/
theorem names_of_children_namesakes :
    let h := (namesakes.setName 1 "b").setId 1 "e"
    ∃ around, h.get? 0 = some around ∧ around.names.entries = [("a", "d"), ("b", "e")] ∧
      ∀ name, name ∈ around.names.keys ↔ name ≠ "" ∧
        ∃ k ∈ around.children.values, ∃ child, h.get? k = some child ∧ child.name = name := by
  intro h
  have hrenamed : Built (fun h change => change.Spares h) (namesakes.setName 1 "b") :=
    .step built_namesakes (.setName 1 "b") (by decide_cbv) (by decide_cbv) (by decide_cbv)
  have hbuilt : Built (fun h change => change.Spares h) h :=
    .step hrenamed (.setId 1 "e") (by decide_cbv) trivial (by decide_cbv)
  have hentries : (((namesakes.setName 1 "b").setId 1 "e").get? 0).map (·.names.entries) =
      some [("a", "d"), ("b", "e")] := by cbv
  obtain ⟨around, haround, heq⟩ := Option.map_eq_some_iff.mp hentries
  exact ⟨around, haround, heq, (names_of_children hbuilt.any haround).2 hbuilt⟩

/-- When the second child leaves, the first keeps its name, but the name leads to it no more. -/
theorem name_taken_along :
    let h := namesakes.move 2 none
    Built (fun _ _ => True) h ∧ ∃ around child, h.get? 0 = some around ∧
      around.children.values = [1] ∧ h.get? 1 = some child ∧ child.name = "a" ∧
      around.names.keys = [] := by
  intro h
  have hbuilt : Built (fun _ _ => True) h :=
    .step built_namesakes.any (.move 2 none) (by decide_cbv) trivial (by decide_cbv)
  have haround : ((namesakes.move 2 none).get? 0).map
      (fun around => (around.children.values, around.names.keys)) =
      some ([1], []) := by cbv
  have hchild : ((namesakes.move 2 none).get? 1).map (·.name) = some "a" := by cbv
  obtain ⟨around, hget, hboth⟩ := Option.map_eq_some_iff.mp haround
  obtain ⟨child, hget', hname⟩ := Option.map_eq_some_iff.mp hchild
  obtain ⟨hchildren, hkeys⟩ := Prod.mk.inj hboth
  exact ⟨hbuilt, around, child, hget, hchildren, hget', hname, hkeys⟩

end Built

end RecipeGraph.Graph
