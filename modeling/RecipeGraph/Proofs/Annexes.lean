import RecipeGraph.Proofs.Duplicates

/-!
Members that come below one member. They lead to none but each other, and apart from that one member
nobody who was there before changes, whatever is done to the new ones: they are filled, renamed, moved
among each other and merged.
-/
namespace RecipeGraph.Graph

/-- What a member is called. -/
def Contents.label (contents : Contents) : String × String :=
  (contents.id, contents.name)

/-- Whom a member belongs to and what it is called. -/
def Member.post (member : Member) : Option Nat × String × String :=
  (member.parent, member.contents.label)

namespace Contents

theorem label_merge (contents other : Contents) : (contents.merge other).label = contents.label := by
  simp [label]

theorem label_addPackage (contents : Contents) (location : String) :
    (contents.addPackage location).label = contents.label := by
  simp [label]

end Contents

namespace Hierarchy

variable {h acc after : Hierarchy} {n k m p : Nat} {way : List Nat} {id : String}

/-- Only member `n` has changed of those that were there, and it is where it was and is called what it
was called. Those that have
come are below each other or below `n`. -/
structure Annexed (h acc : Hierarchy) (n : Nat) : Prop where
  there : n < h.members.length
  size : h.members.length ≤ acc.members.length
  kept : ∀ k < h.members.length, k ≠ n → acc.get? k = h.get? k
  place : (acc.get? n).map Member.post = (h.get? n).map Member.post
  own : ∀ id k, acc.Holds n id k → (∃ id', h.Holds n id' k) ∨ h.members.length ≤ k
  children : ∀ m id k, h.members.length ≤ m → acc.Holds m id k → h.members.length ≤ k
  parents : ∀ k member p, h.members.length ≤ k → acc.get? k = some member →
    member.parent = some p → p = n ∨ h.members.length ≤ p

/-- Who comes without being tied to those that are there is below none of them. -/
theorem Grown.annexed (hgrown : h.Grown acc) (hn : n < h.members.length) : h.Annexed acc n where
  there := hn
  size := hgrown.size
  kept k hk _ := hgrown.kept k hk
  place := congrArg (Option.map Member.post) (hgrown.kept n hn)
  own id k hholds := by
    obtain ⟨member, hmember, hmem⟩ := hholds
    exact Or.inl ⟨id, member, (hgrown.kept n hn).symm.trans hmember, hmem⟩
  children := hgrown.children
  parents k member p hk hmember hparent := Or.inr (hgrown.parents k member p hk hmember hparent)

theorem annexed_refl (hn : n < h.members.length) : h.Annexed h n :=
  (grown_refl h).annexed hn

namespace Annexed

variable (hannexed : h.Annexed acc n)

include hannexed

theorem trans (hafter : acc.Annexed after n) : h.Annexed after n where
  there := hannexed.there
  size := Nat.le_trans hannexed.size hafter.size
  kept k hk hkn :=
    (hafter.kept k (Nat.lt_of_lt_of_le hk hannexed.size) hkn).trans (hannexed.kept k hk hkn)
  place := hafter.place.trans hannexed.place
  own id k hholds := by
    rcases hafter.own id k hholds with ⟨id', hold⟩ | hnew
    · exact hannexed.own id' k hold
    · exact Or.inr (Nat.le_trans hannexed.size hnew)
  children m id k hm hholds := by
    rcases Nat.lt_or_ge m acc.members.length with hlt | hge
    · have hmn : m ≠ n := Nat.ne_of_gt (Nat.lt_of_lt_of_le hannexed.there hm)
      obtain ⟨member, hmember, hmem⟩ := hholds
      rw [hafter.kept m hlt hmn] at hmember
      exact hannexed.children m id k hm ⟨member, hmember, hmem⟩
    · exact Nat.le_trans hannexed.size (hafter.children m id k hge hholds)
  parents k member p hk hmember hparent := by
    rcases Nat.lt_or_ge k acc.members.length with hlt | hge
    · have hkn : k ≠ n := Nat.ne_of_gt (Nat.lt_of_lt_of_le hannexed.there hk)
      rw [hafter.kept k hlt hkn] at hmember
      exact hannexed.parents k member p hk hmember hparent
    · exact (hafter.parents k member p hge hmember hparent).imp_right
        (Nat.le_trans hannexed.size)

/-- Who is new leads to none but those that are new. -/
theorem descends (hm : h.members.length ≤ m) (hway : acc.Descends m way k) :
    h.members.length ≤ k := by
  induction hway with
  | here => exact hm
  | down _ hholds ih => exact hannexed.children _ _ _ ih hholds

theorem off (hk : h.members.length ≤ k) (hm : m < h.members.length) :
    ∀ way, ¬ acc.Descends k way m :=
  fun _ hway => absurd (hannexed.descends hk hway) (Nat.not_le_of_lt hm)

/-- None of the others has taken a new one in. -/
theorem parent_ne {member : Member} (hk : h.members.length ≤ k) (hget : acc.get? k = some member)
    (hm : m < h.members.length) (hmn : m ≠ n) : member.parent ≠ some m := by
  intro hparent
  have horigin := hannexed.parents k member m hk hget hparent
  omega

theorem attach (hp : p = n ∨ h.members.length ≤ p) (hk : h.members.length ≤ k) :
    h.Annexed (acc.attach p k) n := by
  cases hget : acc.get? k with
  | none =>
    have hself : acc.attach p k = acc := by simp [Hierarchy.attach, hget]
    rwa [hself]
  | some member =>
    have hn := hannexed.there
    obtain ⟨noted, hafter, hsame⟩ := get?_attach hget p n
    constructor
    case there => exact hn
    case size => exact Nat.le_trans hannexed.size (Nat.le_of_eq (length_attach ..).symm)
    case kept =>
      intro j hj hjn
      have hpj : p ≠ j := by omega
      have hkj : k ≠ j := by omega
      obtain ⟨noted, hafter, hsame⟩ :=
        get?_attach_aside hget hpj (hannexed.parent_ne hk hget hj hjn)
      rw [hafter, ← hannexed.kept j hj hjn]
      simp [hkj, hsame (hannexed.off hk hj)]
    case place =>
      have hkn : k ≠ n := by omega
      rw [hafter, Option.map_map, ← hannexed.place]
      congr 1
      funext other
      simp [hkn, Member.post]
    case own =>
      intro id j hholds
      rcases holds_attach hholds with hold | ⟨-, rfl⟩
      · exact hannexed.own id j hold
      · exact Or.inr hk
    case children =>
      intro m id j hm hholds
      rcases holds_attach hholds with hold | ⟨-, rfl⟩
      · exact hannexed.children m id j hm hold
      · exact hk
    case parents =>
      intro j other q hj hother hparent
      obtain ⟨noted, hafter, -⟩ := get?_attach hget p j
      rw [hafter] at hother
      obtain ⟨before, hbefore, rfl⟩ := Option.map_eq_some_iff.mp hother
      dsimp only at hparent
      split at hparent
      · cases hparent
        exact hp
      · exact hannexed.parents j before q hj hbefore hparent

/-- A member that may change keeps its parent and does not come to hold anyone. Unless it is new it is
not renamed either. -/
theorem update (hm : m = n ∨ h.members.length ≤ m) {f : Member → Member}
    (hparent : ∀ member, (f member).parent = member.parent)
    (hchildren : ∀ member, (f member).children = member.children)
    (hlabel : m = n → ∀ member, (f member).contents.label = member.contents.label) :
    h.Annexed (acc.update m f) n := by
  have hholds : ∀ {j id k}, (acc.update m f).Holds j id k → acc.Holds j id k := by
    rintro j id k ⟨member, hmember, hmem⟩
    rw [get?_update] at hmember
    obtain ⟨before, hbefore, rfl⟩ := Option.map_eq_some_iff.mp hmember
    refine ⟨before, hbefore, ?_⟩
    split at hmem
    · rwa [hchildren] at hmem
    · exact hmem
  have hplace : ∀ j, ((acc.update m f).get? j).map Member.parent =
      (acc.get? j).map Member.parent := by
    intro j
    rw [get?_update, Option.map_map]
    congr 1
    funext member
    by_cases hj : m = j <;> simp [hj, hparent]
  constructor
  case there => exact hannexed.there
  case size => exact Nat.le_trans hannexed.size (Nat.le_of_eq (length_update ..).symm)
  case kept =>
    intro k hk hkn
    have hmk : m ≠ k := by omega
    rw [← hannexed.kept k hk hkn]
    simp [get?_update, hmk]
  case place =>
    rw [← hannexed.place, get?_update, Option.map_map]
    congr 1
    funext member
    by_cases hn : m = n
    · simp [hn, Member.post, hparent, hlabel hn]
    · simp [hn]
  case own => exact fun id k hheld => hannexed.own id k (hholds hheld)
  case children => exact fun j id k hj hheld => hannexed.children j id k hj (hholds hheld)
  case parents =>
    intro k member q hk hmember heq
    have hsame := hplace k
    rw [hmember, Option.map_some] at hsame
    obtain ⟨before, hbefore, hbefore'⟩ := Option.map_eq_some_iff.mp hsame.symm
    exact hannexed.parents k before q hk hbefore (hbefore'.trans heq)

theorem edit (hm : m = n ∨ h.members.length ≤ m) (f : Contents → Contents)
    (hlabel : m = n → ∀ contents, (f contents).label = contents.label) :
    h.Annexed (acc.edit m f) n :=
  hannexed.update hm (fun _ => rfl) (fun _ => rfl) fun hn member => hlabel hn member.contents

theorem setId (hk : h.members.length ≤ k) (id : String) : h.Annexed (acc.setId k id) n := by
  cases hget : acc.get? k with
  | none =>
    have hself : acc.setId k id = acc := by simp [Hierarchy.setId, hget]
    rwa [hself]
  | some member =>
    have hn := hannexed.there
    have hgain : ∀ {m key j}, (acc.setId k id).Holds m key j → acc.Holds m key j ∨ j = k := by
      rintro m key j ⟨other, hother, hmem⟩
      obtain ⟨noted, hafter, -⟩ := get?_setId hget id m
      rw [hafter] at hother
      obtain ⟨before, hbefore, rfl⟩ := Option.map_eq_some_iff.mp hother
      dsimp only at hmem
      split at hmem
      · rcases OrderedMap.mem_insert hmem with ⟨-, rfl⟩ | hold
        · exact Or.inr rfl
        · exact Or.inl ⟨before, hbefore, mem_of_released hold⟩
      · exact Or.inl ⟨before, hbefore, hmem⟩
    constructor
    case there => exact hn
    case size =>
      rw [setId_eq hget, length_refresh, length_reidentified]
      exact hannexed.size
    case kept =>
      intro j hj hjn
      have hkj : k ≠ j := by omega
      obtain ⟨noted, hafter, hsame⟩ := get?_setId hget id j
      rw [hafter, ← hannexed.kept j hj hjn]
      simp [hkj, hannexed.parent_ne hk hget hj hjn, hsame (hannexed.off hk hj)]
    case place =>
      have hkn : k ≠ n := by omega
      obtain ⟨noted, hafter, -⟩ := get?_setId hget id n
      rw [hafter, Option.map_map, ← hannexed.place]
      congr 1
      funext other
      simp [hkn, Member.post]
    case own =>
      intro key j hholds
      rcases hgain hholds with hold | rfl
      · exact hannexed.own key j hold
      · exact Or.inr hk
    case children =>
      intro m key j hm hholds
      rcases hgain hholds with hold | rfl
      · exact hannexed.children m key j hm hold
      · exact hk
    case parents =>
      intro j other q hj hother hparent
      obtain ⟨noted, hafter, -⟩ := get?_setId hget id j
      rw [hafter] at hother
      obtain ⟨before, hbefore, rfl⟩ := Option.map_eq_some_iff.mp hother
      exact hannexed.parents j before q hj hbefore hparent

theorem setName (hk : h.members.length ≤ k) (name : String) :
    h.Annexed (acc.setName k name) n := by
  have hn := hannexed.there
  have hedited := hannexed.edit (Or.inr hk) ({ · with name := name }) fun heq => by omega
  unfold Hierarchy.setName
  cases hget : acc.get? k with
  | none => exact hannexed
  | some member =>
    dsimp only
    cases hparent : member.parent with
    | none => exact hedited
    | some parent =>
      have hp := hannexed.parents k member parent hk hget hparent
      exact hedited.update hp (fun _ => rfl) (fun _ => rfl) fun _ _ => rfl

theorem attachAll (hm : m = n ∨ h.members.length ≤ m) {ks : List Nat}
    (hks : ∀ k ∈ ks, h.members.length ≤ k) :
    h.Annexed (ks.foldl (fun acc child => acc.attach m child) acc) n := by
  induction ks generalizing acc with
  | nil => exact hannexed
  | cons child rest ih =>
    obtain ⟨hchild, hrest⟩ := List.forall_mem_cons.mp hks
    exact ih (hannexed.attach hm hchild) hrest

theorem merge (hm : m = n ∨ h.members.length ≤ m) (hk : h.members.length ≤ k) :
    h.Annexed (acc.merge m k) n := by
  cases hget : acc.get? k with
  | none =>
    have hself : acc.merge m k = acc := by simp [Hierarchy.merge, hget]
    rwa [hself]
  | some given =>
    rw [merge_eq hget]
    have hedited := hannexed.edit hm (·.merge given.contents) fun _ contents =>
      contents.label_merge given.contents
    refine hedited.attachAll hm fun j hj => ?_
    obtain ⟨id, hholds⟩ := holds_of_mem_values hget hj
    exact hannexed.children k id j hk hholds

theorem parent_eq : (acc.get? n).map Member.parent = (h.get? n).map Member.parent := by
  have hplace := congrArg (Option.map Prod.fst) hannexed.place
  rwa [Option.map_map, Option.map_map] at hplace

theorem grown (hgrown : acc.Grown after) : h.Annexed after n :=
  hannexed.trans (hgrown.annexed (Nat.lt_of_lt_of_le hannexed.there hannexed.size))

end Annexed

section Enlarged

variable (contents : Contents)

theorem length_add (h : Hierarchy) (parent : Option Nat) :
    (h.add contents parent).members.length = h.members.length + 1 := by
  cases parent with
  | none => exact length_add_none h contents
  | some p => exact (length_attach ..).trans (by simp)

theorem annexed_add (hn : n < h.members.length) : h.Annexed (h.add contents (some n)) n :=
  ((grown_enlarged h contents).annexed hn).attach (Or.inl rfl) (Nat.le_refl _)

/-- The new member is below its parent, and its parent holds it under its id and its name. -/
theorem get?_add_some (hn : n < h.members.length) :
    (∃ lineage, (h.add contents (some n)).get? h.members.length =
      some { contents := contents, parent := some n, lineage := lineage }) ∧
    (h.add contents (some n)).get? n =
      (h.get? n).map (·.place h.members.length contents.id contents.name) := by
  have hself := h.get?_enlarged contents h.members.length
  rw [if_pos rfl] at hself
  have hchildless : ∀ id k, ¬ (h.enlarged contents).Holds h.members.length id k := by
    rintro id k ⟨member, hmember, hmem⟩
    rw [hself] at hmember
    cases hmember
    simp at hmem
  have hne : n ≠ h.members.length := Nat.ne_of_lt hn
  constructor
  · obtain ⟨noted, hafter, -⟩ := get?_attach hself n h.members.length
    refine ⟨noted { contents := contents }, hafter.trans ?_⟩
    simp [hself, childrenAfter, namesAfter, hne]
  · have hoff : ∀ way, ¬ (h.enlarged contents).Descends h.members.length way n := by
      intro way hway
      exact hne (hway.of_childless hchildless).2
    refine (get?_attach_parent hself hoff).trans ?_
    rw [get?_enlarged, if_neg hne]
    rfl

end Enlarged

section Inside

variable {made : Hierarchy}

/-- What comes below a member that is the first to come is below whatever that one is below. -/
theorem Annexed.inside (houter : h.Annexed made n)
    (hinner : made.Annexed after h.members.length)
    (hfirst : made.members.length = h.members.length + 1)
    (hparent : (made.get? h.members.length).map Member.parent = some (some n))
    (hchildless : ∀ id k, ¬ made.Holds h.members.length id k) : h.Annexed after n := by
  have hn := houter.there
  have hold : ∀ k < h.members.length, after.get? k = made.get? k :=
    fun k hk => hinner.kept k (by omega) (Nat.ne_of_lt hk)
  constructor
  case there => exact hn
  case size => exact Nat.le_trans houter.size hinner.size
  case kept => exact fun k hk hkn => (hold k hk).trans (houter.kept k hk hkn)
  case place =>
    rw [hold n hn]
    exact houter.place
  case own =>
    rintro id k ⟨member, hmember, hmem⟩
    exact houter.own id k ⟨member, (hold n hn).symm.trans hmember, hmem⟩
  case children =>
    intro m id k hm hholds
    by_cases hself : m = h.members.length
    · subst hself
      rcases hinner.own id k hholds with ⟨id', hheld⟩ | hnew
      · exact absurd hheld (hchildless id' k)
      · omega
    · have hnew := hinner.children m id k (by omega) hholds
      omega
  case parents =>
    intro k member p hk hmember hp
    by_cases hself : k = h.members.length
    · subst hself
      have hplace := hinner.parent_eq
      rw [hmember, hparent, Option.map_some, Option.some.injEq] at hplace
      exact Or.inl (Option.some.inj (hp.symm.trans hplace))
    · rcases hinner.parents k member p (by omega) hmember hp with rfl | hnew
      · exact Or.inr (Nat.le_refl _)
      · exact Or.inr (by omega)

/-- What comes below a member without a parent that is the first to come is below nobody who was
there. -/
theorem Annexed.grown_inside (houter : h.Grown made)
    (hinner : made.Annexed after h.members.length)
    (hfirst : made.members.length = h.members.length + 1)
    (hparent : (made.get? h.members.length).map Member.parent = some none)
    (hchildless : ∀ id k, ¬ made.Holds h.members.length id k) : h.Grown after where
  kept k hk := (hinner.kept k (by omega) (Nat.ne_of_lt hk)).trans (houter.kept k hk)
  size := Nat.le_trans houter.size hinner.size
  children m id k hm hholds := by
    by_cases hself : m = h.members.length
    · subst hself
      rcases hinner.own id k hholds with ⟨id', hheld⟩ | hnew
      · exact absurd hheld (hchildless id' k)
      · omega
    · have hnew := hinner.children m id k (by omega) hholds
      omega
  parents k member p hk hmember hp := by
    by_cases hself : k = h.members.length
    · subst hself
      have hplace := hinner.parent_eq
      rw [hmember, hparent, Option.map_some, Option.some.injEq] at hplace
      cases hp.symm.trans hplace
    · rcases hinner.parents k member p (by omega) hmember hp with rfl | hnew
      · exact Nat.le_refl _
      · omega

end Inside

/-- Member `p` has one more child, which is the first of those that have come. It is held under its id,
behind the others, and under its name if it has one. Nobody else who was there has changed, and those
that have come lead to none of them. -/
structure Gains (h after : Hierarchy) (p : Nat) (id name : String) : Prop where
  others : ∀ k < h.members.length, k ≠ p → after.get? k = h.get? k
  parent : after.get? p = (h.get? p).map fun member =>
    { member with
      children := ⟨member.children.entries ++ [(id, h.members.length)]⟩
      names := if name = "" then member.names else member.names.insert name id }
  child : (after.get? h.members.length).map Member.post = some (some p, id, name)
  apart : ∀ k way m, h.members.length ≤ k → after.Descends k way m → h.members.length ≤ m

end Hierarchy

end RecipeGraph.Graph
