import RecipeGraph.Proofs.Giving

/-!
Members with their records. Whatever is done to them, the contents of every member are what is read
in its records, and no number of a member or of a record leads nowhere.
-/
namespace RecipeGraph.Graph

namespace Hierarchy

variable {h h' : Hierarchy} {n k p : Nat}

/-- Every parent is there. -/
def Anchored (h : Hierarchy) : Prop :=
  ∀ n member p, h.get? n = some member → member.parent = some p → p < h.members.length

section Anchored

/-- Parents stay, or are members that are there. -/
theorem Anchored.of_parents (hanchored : h.Anchored) (hlength : h.members.length ≤ h'.members.length)
    (hparents : ∀ n member p, h'.get? n = some member → member.parent = some p →
      p < h'.members.length ∨ ∃ before, h.get? n = some before ∧ before.parent = some p) :
    h'.Anchored := by
  intro n member p hn hparent
  rcases hparents n member p hn hparent with hlt | ⟨before, hbefore, hold⟩
  · exact hlt
  · exact Nat.lt_of_lt_of_le (hanchored n before p hbefore hold) hlength

theorem length_setParent (h : Hierarchy) (n : Nat) (parent : Option Nat) :
    (h.setParent n parent).members.length = h.members.length := by
  cases hn : h.get? n with
  | none => simp [Hierarchy.setParent, hn]
  | some member => rw [setParent_eq hn, length_refresh, length_reparented]

theorem length_setId (h : Hierarchy) (n : Nat) (id : String) :
    (h.setId n id).members.length = h.members.length := by
  cases hn : h.get? n with
  | none => simp [Hierarchy.setId, hn]
  | some member => rw [setId_eq hn, length_refresh, length_reidentified]

theorem length_edit (h : Hierarchy) (n : Nat) (f : Contents → Contents) :
    (h.edit n f).members.length = h.members.length :=
  length_update ..

theorem length_setName (h : Hierarchy) (n : Nat) (name : String) :
    (h.setName n name).members.length = h.members.length := by
  unfold Hierarchy.setName
  cases h.get? n with
  | none => rfl
  | some member =>
    dsimp only
    cases member.parent with
    | none => exact length_edit ..
    | some parent => exact (length_update ..).trans (length_edit ..)

theorem length_attachAll (h : Hierarchy) (n : Nat) (ks : List Nat) :
    (ks.foldl (fun acc child => acc.attach n child) h).members.length = h.members.length := by
  induction ks generalizing h with
  | nil => rfl
  | cons child rest ih => exact (ih _).trans (length_attach h n child)

theorem length_merge (h : Hierarchy) (n other : Nat) :
    (h.merge n other).members.length = h.members.length := by
  cases hother : h.get? other with
  | none => simp [Hierarchy.merge, hother]
  | some given => rw [merge_eq hother, length_attachAll, length_edit]

theorem Anchored.attach (hanchored : h.Anchored) (hp : p < h.members.length) (n : Nat) :
    (h.attach p n).Anchored := by
  refine hanchored.of_parents (Nat.le_of_eq (length_attach h p n).symm) ?_
  intro k member q hk hparent
  cases hn : h.get? n with
  | none =>
    have hself : h.attach p n = h := by simp [Hierarchy.attach, hn]
    rw [hself] at hk
    exact Or.inr ⟨member, hk, hparent⟩
  | some found =>
    obtain ⟨noted, hget, -⟩ := get?_attach hn p k
    rw [hget] at hk
    obtain ⟨before, hbefore, rfl⟩ := Option.map_eq_some_iff.mp hk
    dsimp only at hparent
    split at hparent
    · cases hparent
      exact Or.inl (by rwa [length_attach])
    · exact Or.inr ⟨before, hbefore, hparent⟩

theorem Anchored.release (hanchored : h.Anchored) (n : Nat) : (h.setParent n none).Anchored := by
  refine hanchored.of_parents (Nat.le_of_eq (length_setParent h n none).symm) ?_
  intro k member q hk hparent
  cases hn : h.get? n with
  | none =>
    have hself : h.setParent n none = h := by simp [Hierarchy.setParent, hn]
    rw [hself] at hk
    exact Or.inr ⟨member, hk, hparent⟩
  | some found =>
    obtain ⟨noted, hget, -⟩ := get?_release hn k
    rw [hget] at hk
    obtain ⟨before, hbefore, rfl⟩ := Option.map_eq_some_iff.mp hk
    dsimp only at hparent
    split at hparent
    · cases hparent
    · exact Or.inr ⟨before, hbefore, hparent⟩

theorem Anchored.move (hanchored : h.Anchored) (n : Nat) {parent : Option Nat}
    (hparent : ∀ p ∈ parent, p < h.members.length) : (h.move n parent).Anchored := by
  cases parent with
  | none => exact hanchored.release n
  | some p => exact hanchored.attach (hparent p rfl) n

/-- The members keep their parents. -/
theorem Anchored.of_kept (hanchored : h.Anchored) (hlength : h'.members.length = h.members.length)
    (hparents : ∀ k, (h'.get? k).map Member.parent = (h.get? k).map Member.parent) :
    h'.Anchored := by
  refine hanchored.of_parents (Nat.le_of_eq hlength.symm) fun k member q hk hparent => Or.inr ?_
  have hsame := hparents k
  rw [hk, Option.map_some] at hsame
  obtain ⟨before, hbefore, heq⟩ := Option.map_eq_some_iff.mp hsame.symm
  exact ⟨before, hbefore, heq.trans hparent⟩

theorem Anchored.setId (hanchored : h.Anchored) (n : Nat) (id : String) :
    (h.setId n id).Anchored := by
  refine hanchored.of_kept (length_setId h n id) fun k => ?_
  cases hn : h.get? n with
  | none => simp [Hierarchy.setId, hn]
  | some member =>
    obtain ⟨noted, hget, -⟩ := get?_setId hn id k
    rw [hget, Option.map_map]
    rfl

theorem parent_edit (h : Hierarchy) (n k : Nat) (f : Contents → Contents) :
    ((h.edit n f).get? k).map Member.parent = (h.get? k).map Member.parent := by
  rw [get?_edit, Option.map_map]
  congr 1
  funext other
  by_cases hk : n = k <;> simp [hk]

theorem Anchored.edit (hanchored : h.Anchored) (n : Nat) (f : Contents → Contents) :
    (h.edit n f).Anchored :=
  hanchored.of_kept (length_edit h n f) fun k => parent_edit h n k f

theorem Anchored.setName (hanchored : h.Anchored) (n : Nat) (name : String) :
    (h.setName n name).Anchored := by
  refine hanchored.of_kept (length_setName h n name) fun k => ?_
  unfold Hierarchy.setName
  cases h.get? n with
  | none => rfl
  | some member =>
    dsimp only
    cases member.parent with
    | none => exact parent_edit ..
    | some parent =>
      refine Eq.trans ?_ (parent_edit h n k ({ · with name := name }))
      dsimp only
      rw [get?_update, Option.map_map]
      congr 1
      funext other
      by_cases hk : parent = k <;> simp [hk]

theorem Anchored.attachAll (hanchored : h.Anchored) (hn : n < h.members.length) (ks : List Nat) :
    (ks.foldl (fun acc child => acc.attach n child) h).Anchored := by
  induction ks generalizing h with
  | nil => exact hanchored
  | cons child rest ih =>
    exact ih (hanchored.attach hn child) (by rwa [length_attach])

theorem Anchored.merge (hanchored : h.Anchored) (hn : n < h.members.length) (other : Nat) :
    (h.merge n other).Anchored := by
  cases hother : h.get? other with
  | none =>
    have hself : h.merge n other = h := by simp [Hierarchy.merge, hother]
    rwa [hself]
  | some given =>
    rw [merge_eq hother]
    exact (hanchored.edit n _).attachAll (by rwa [length_edit]) _

theorem Anchored.enlarged (hanchored : h.Anchored) (contents : Contents) :
    (h.enlarged contents).Anchored := by
  refine hanchored.of_parents (by simp [Hierarchy.enlarged]) fun k member q hk hq => Or.inr ?_
  rw [get?_enlarged] at hk
  split at hk
  · cases hk
    cases hq
  · exact ⟨member, hk, hq⟩

theorem Anchored.refresh (hanchored : h.Anchored) (n : Nat) : (h.refresh n).Anchored := by
  refine hanchored.of_kept (length_refresh ..) fun k => ?_
  obtain ⟨noted, hget, -⟩ := get?_refresh_noted h n k
  rw [hget, Option.map_map]
  rfl

theorem length_enlarged (h : Hierarchy) (contents : Contents) :
    (h.enlarged contents).members.length = h.members.length + 1 :=
  List.length_append

theorem contentsAt_enlarged (h : Hierarchy) (contents : Contents) (k : Nat) :
    (h.enlarged contents).contentsAt k =
      if k = h.members.length then some contents else h.contentsAt k := by
  unfold contentsAt
  rw [get?_enlarged]
  split <;> rfl

end Anchored

end Hierarchy

namespace Shelves

variable {n : Nat} {holding : Holding}

theorem shown_eq {s : Shelves} (hn : s.holdings[n]? = some holding) (member : Member) :
    s.shown n member =
      { member with contents := s.store.contents holding member.id member.name } := by
  unfold shown
  rw [hn]

theorem ties_shown (s : Shelves) (n : Nat) (member : Member) :
    (s.shown n member).ties = member.ties := by
  unfold shown
  split <;> rfl

theorem parent_shown (s : Shelves) (n : Nat) (member : Member) :
    (s.shown n member).parent = member.parent :=
  congrArg (·.2.1) (ties_shown s n member)

theorem children_shown (s : Shelves) (n : Nat) (member : Member) :
    (s.shown n member).children = member.children :=
  congrArg (·.2.2) (ties_shown s n member)

theorem lineage_shown (s : Shelves) (n : Nat) (member : Member) :
    (s.shown n member).lineage = member.lineage := by
  unfold shown
  split <;> rfl

end Shelves

namespace Archive

variable {a b c : Archive} {n k m r : Nat} {holding : Holding}

/-- Members are linked as they should be, and show what is read in their records. -/
structure Sound (a : Archive) : Prop where
  forest : a.hierarchy.Forest
  anchored : a.hierarchy.Anchored
  owned : a.shelves.Owned
  size : a.shelves.holdings.length = a.size
  shown : ∀ n contents, a.hierarchy.contentsAt n = some contents → ∃ holding,
    a.shelves.holdings[n]? = some holding ∧
      a.shelves.store.contents holding contents.id contents.name = contents

theorem sound_start : Sound {} where
  forest := Hierarchy.forest_start
  anchored n member p hn := by simp [Hierarchy.get?] at hn
  owned := Shelves.owned_start
  size := rfl
  shown n contents hn := by simp [Hierarchy.contentsAt, Hierarchy.get?] at hn

theorem get?_overwrite (a : Archive) (r : Nat) (record : Record) (k : Nat) :
    (a.overwrite r record).hierarchy.get? k =
      (a.hierarchy.get? k).map ((a.overwrite r record).shelves.shown k) :=
  List.getElem?_mapIdx

theorem length_overwrite (a : Archive) (r : Nat) (record : Record) :
    (a.overwrite r record).hierarchy.members.length = a.hierarchy.members.length :=
  List.length_mapIdx

/-- Members and records have come that lead to none but those that have come. -/
structure Extends (a b : Archive) : Prop where
  hierarchy : a.hierarchy.Grown b.hierarchy
  store : a.shelves.store.Grown b.shelves.store
  held : ∀ n < a.size, b.shelves.holdings[n]? = a.shelves.holdings[n]?
  fresh : ∀ (n : Nat) (holding : Holding), a.size ≤ n → b.shelves.holdings[n]? = some holding →
    a.shelves.store.size ≤ holding.look ∧ ∀ slot, a.shelves.store.size ≤ holding.tables slot

namespace Extends

theorem trans (h : a.Extends b) (h' : b.Extends c) : a.Extends c where
  hierarchy := h.hierarchy.trans h'.hierarchy
  store := h.store.trans h'.store
  held n hn := (h'.held n (Nat.lt_of_lt_of_le hn h.hierarchy.size)).trans (h.held n hn)
  fresh n holding hn hfind := by
    rcases Nat.lt_or_ge n b.size with hlt | hge
    · exact h.fresh n holding hn ((h'.held n hlt).symm.trans hfind)
    · obtain ⟨hlook, htables⟩ := h'.fresh n holding hge hfind
      exact ⟨Nat.le_trans h.store.size hlook, fun slot => Nat.le_trans h.store.size (htables slot)⟩

theorem attach (h : a.Extends b) {p : Nat} (hp : a.size ≤ p) (hn : a.size ≤ n) :
    a.Extends (b.attach p n) where
  hierarchy := h.hierarchy.attach hp hn
  store := h.store
  held := h.held
  fresh := h.fresh

end Extends

namespace Sound

variable (hsound : a.Sound)

include hsound

theorem find (hn : n < a.size) : ∃ holding, a.shelves.holdings[n]? = some holding :=
  ⟨_, List.getElem?_eq_getElem (hsound.size.symm ▸ hn)⟩

/-- Where the contents stay as they were, and what is read as well. -/
theorem shown_of_kept {h : Hierarchy} {s : Shelves}
    (hcontents : ∀ n, h.contentsAt n = a.hierarchy.contentsAt n)
    (hread : ∀ (n : Nat) (holding : Holding), a.shelves.holdings[n]? = some holding → ∃ holding',
      s.holdings[n]? = some holding' ∧ ∀ id name,
        s.store.contents holding' id name = a.shelves.store.contents holding id name) :
    ∀ n contents, h.contentsAt n = some contents → ∃ holding, s.holdings[n]? = some holding ∧
      s.store.contents holding contents.id contents.name = contents := by
  intro n contents hn
  obtain ⟨holding, hholding, hshown⟩ := hsound.shown n contents ((hcontents n).symm.trans hn)
  obtain ⟨holding', hfind, heq⟩ := hread n holding hholding
  exact ⟨holding', hfind, (heq _ _).trans hshown⟩

/-- Members may be moved about. -/
theorem moved {h : Hierarchy} (hforest : h.Forest) (hanchored : h.Anchored)
    (hlength : h.members.length = a.hierarchy.members.length)
    (hcontents : ∀ n, h.contentsAt n = a.hierarchy.contentsAt n) :
    ({ a with hierarchy := h } : Archive).Sound where
  forest := hforest
  anchored := hanchored
  owned := hsound.owned
  size := hsound.size.trans hlength.symm
  shown := hsound.shown_of_kept hcontents fun _ holding hn => ⟨holding, hn, fun _ _ => rfl⟩

theorem attach {p : Nat} (hp : p < a.size) (n : Nat) : (a.attach p n).Sound :=
  hsound.moved (hsound.forest.attach p n) (hsound.anchored.attach hp n)
    (Hierarchy.length_attach ..) (Hierarchy.contentsAt_attach _ p n)

theorem move (n : Nat) {parent : Option Nat} (hparent : ∀ p ∈ parent, p < a.size) :
    ({ a with hierarchy := a.hierarchy.move n parent } : Archive).Sound := by
  refine hsound.moved (hsound.forest.move n parent) (hsound.anchored.move n hparent) ?_
    fun k => Hierarchy.contentsAt_move _ n k parent
  cases parent with
  | none => exact Hierarchy.length_setParent ..
  | some p => exact Hierarchy.length_attach ..

/-- One member may get other contents than before, if they are what is read. -/
theorem shown_of_changed {h : Hierarchy} {s : Shelves} {f : Contents → Contents}
    (hcontents : ∀ k, h.contentsAt k = (a.hierarchy.contentsAt k).map fun contents =>
      if n = k then f contents else contents)
    (htarget : ∀ (holding : Holding), a.shelves.holdings[n]? = some holding → ∃ holding',
      s.holdings[n]? = some holding' ∧ ∀ contents : Contents,
        a.shelves.store.contents holding contents.id contents.name = contents →
          s.store.contents holding' (f contents).id (f contents).name = f contents)
    (hothers : ∀ k, k ≠ n → ∀ (holding : Holding), a.shelves.holdings[k]? = some holding →
      s.holdings[k]? = some holding ∧ ∀ id name,
        s.store.contents holding id name = a.shelves.store.contents holding id name) :
    ∀ k contents, h.contentsAt k = some contents → ∃ holding, s.holdings[k]? = some holding ∧
      s.store.contents holding contents.id contents.name = contents := by
  intro k contents hk
  rw [hcontents] at hk
  obtain ⟨before, hbefore, rfl⟩ := Option.map_eq_some_iff.mp hk
  obtain ⟨holding, hholding, hshown⟩ := hsound.shown k before hbefore
  by_cases hkn : n = k
  · subst hkn
    obtain ⟨holding', hfind, heq⟩ := htarget holding hholding
    exact ⟨holding', hfind, by simpa using heq before hshown⟩
  · obtain ⟨hfind, heq⟩ := hothers k (Ne.symm hkn) holding hholding
    refine ⟨holding, hfind, ?_⟩
    rw [if_neg hkn]
    exact (heq _ _).trans hshown

theorem setId (n : Nat) (id : String) :
    ({ a with hierarchy := a.hierarchy.setId n id } : Archive).Sound where
  forest := hsound.forest.setId n id
  anchored := hsound.anchored.setId n id
  owned := hsound.owned
  size := hsound.size.trans (Hierarchy.length_setId ..).symm
  shown := by
    refine hsound.shown_of_changed (f := ({ · with id := id }))
      (fun k => Hierarchy.contentsAt_setId _ n k id) (fun holding hn => ⟨holding, hn, ?_⟩)
      fun k _ holding hk => ⟨hk, fun _ _ => rfl⟩
    intro contents hshown
    calc a.shelves.store.contents holding id contents.name =
          { a.shelves.store.contents holding contents.id contents.name with id := id } := rfl
      _ = { contents with id := id } := by rw [hshown]

theorem setName (n : Nat) (name : String) :
    ({ a with hierarchy := a.hierarchy.setName n name } : Archive).Sound where
  forest := hsound.forest.setName n name
  anchored := hsound.anchored.setName n name
  owned := hsound.owned
  size := hsound.size.trans (Hierarchy.length_setName ..).symm
  shown := by
    refine hsound.shown_of_changed (f := ({ · with name := name }))
      (fun k => Hierarchy.contentsAt_setName _ n k name) (fun holding hn => ⟨holding, hn, ?_⟩)
      fun k _ holding hk => ⟨hk, fun _ _ => rfl⟩
    intro contents hshown
    calc a.shelves.store.contents holding contents.id name =
          { a.shelves.store.contents holding contents.id contents.name with name := name } := rfl
      _ = { contents with name := name } := by rw [hshown]

/-- Something is put into a member, which shows it. -/
theorem shown_of_puts {h : Hierarchy} {s : Shelves} {given : List Nat} {f : Contents → Contents}
    (hputs : a.shelves.Puts s n given) (hshows : a.shelves.Shows s n f)
    (hid : ∀ contents, (f contents).id = contents.id)
    (hname : ∀ contents, (f contents).name = contents.name)
    (hcontents : ∀ k, h.contentsAt k = (a.hierarchy.contentsAt k).map fun contents =>
      if n = k then f contents else contents) :
    ∀ k contents, h.contentsAt k = some contents → ∃ holding, s.holdings[k]? = some holding ∧
      s.store.contents holding contents.id contents.name = contents := by
  refine hsound.shown_of_changed hcontents (fun holding hn => ?_) fun k hk holding hfind => ?_
  · obtain ⟨holding', hfind, heq⟩ := hshows holding hn
    refine ⟨holding', hfind, fun contents hshown => ?_⟩
    rw [hid, hname, heq, hshown]
  · exact ⟨(hputs.others k hk).trans hfind, hputs.contents_other hsound.owned hk hfind⟩

theorem put (hn : n < a.size) {gift : Gift} (hgiven : a.shelves.Given gift.records)
    (hsuits : a.shelves.Suits gift) : (a.put n gift).Sound := by
  obtain ⟨holding, hholding⟩ := hsound.find hn
  obtain ⟨hputs, hshows⟩ := Shelves.put_spec hsound.owned hholding hgiven hsuits
  exact {
    forest := hsound.forest.edit n (Item.id_put _)
    anchored := hsound.anchored.edit n _
    owned := hputs.owned
    size := hputs.length.trans (hsound.size.trans (Hierarchy.length_edit ..).symm)
    shown := hsound.shown_of_puts hputs hshows (Item.id_put _) (Item.name_put _)
      fun k => Hierarchy.contentsAt_edit _ n k _ }

theorem merge (hn : n < a.size) (hm : m < a.size) : (a.merge n m).Sound := by
  obtain ⟨holding, hholding⟩ := hsound.find hn
  obtain ⟨given, hgiven⟩ := Hierarchy.exists_get? hm
  obtain ⟨other, hother, hshown⟩ := hsound.shown m given.contents (by
    unfold Hierarchy.contentsAt
    rw [hgiven]
    rfl)
  obtain ⟨hputs, hshows⟩ := Shelves.absorb_spec hsound.owned hholding hother
  have hmerges := hshows given.contents.id given.contents.name
  rw [hshown] at hmerges
  exact {
    forest := hsound.forest.merge n m
    anchored := hsound.anchored.merge hn m
    owned := hputs.owned
    size := hputs.length.trans (hsound.size.trans (Hierarchy.length_merge ..).symm)
    shown := hsound.shown_of_puts hputs hmerges (fun contents => contents.id_merge _)
      (fun contents => contents.name_merge _) (Hierarchy.contentsAt_merge hgiven n) }

/-- What is read stays where records only come. -/
theorem shown_of_grown {s : Shelves} (hgrown : a.shelves.store.Grown s.store) {n : Nat}
    (hn : a.shelves.holdings[n]? = some holding) (id name : String) :
    s.store.contents holding id name = a.shelves.store.contents holding id name := by
  have hbound := hsound.owned.bound
  refine Store.contents_congr (hgrown.alike hbound (hsound.owned.looks n holding hn).1).lookAt
    fun slot => (hgrown.alike hbound (hsound.owned.tables n holding slot hn).1).read slot

theorem make {record : Record} (hgiven : a.shelves.Given record.parts) :
    ({ a with shelves := a.shelves.push [record] } : Archive).Sound where
  forest := hsound.forest
  anchored := hsound.anchored
  owned := hsound.owned.push fun _ hother => List.mem_singleton.mp hother ▸ hgiven
  size := hsound.size
  shown := hsound.shown_of_kept (fun _ => rfl) fun _ holding hn => ⟨holding, hn, fun _ _ =>
    hsound.owned.contents_push [record] hn _ _⟩

/-- One more member, of which the contents are read in its records. -/
theorem newcomer {contents : Contents} {s : Shelves} {newcomer : Holding} (howned : s.Owned)
    (hgrown : a.shelves.store.Grown s.store)
    (hholdings : s.holdings = a.shelves.holdings ++ [newcomer])
    (hshown : s.store.contents newcomer contents.id contents.name = contents) :
    (⟨a.hierarchy.enlarged contents, s⟩ : Archive).Sound where
  forest := hsound.forest.enlarged contents
  anchored := hsound.anchored.enlarged contents
  owned := howned
  size := by
    change s.holdings.length = (a.hierarchy.enlarged contents).members.length
    rw [hholdings, List.length_append, Hierarchy.length_enlarged, hsound.size]
    rfl
  shown := by
    intro n found hn
    rw [Hierarchy.contentsAt_enlarged] at hn
    rw [hholdings]
    split at hn
    · rename_i heq
      cases hn
      refine ⟨newcomer, ?_, hshown⟩
      rw [List.getElem?_append_right (Nat.le_of_eq (hsound.size.trans heq.symm))]
      simp [hsound.size, Archive.size, heq]
    · obtain ⟨holding, hholding, hread⟩ := hsound.shown n found hn
      refine ⟨holding, ?_, (hsound.shown_of_grown hgrown hholding _ _).trans hread⟩
      rw [List.getElem?_append_left (List.getElem?_eq_some_iff.mp hholding).1]
      exact hholding

omit hsound in
/-- The new member is put below its parent, or left at the top. -/
theorem placed {contents : Contents} {s : Shelves}
    (hmade : (⟨a.hierarchy.enlarged contents, s⟩ : Archive).Sound) {parent : Option Nat}
    (hparent : ∀ p ∈ parent, p < a.size) :
    (⟨a.hierarchy.add contents parent, s⟩ : Archive).Sound := by
  cases parent with
  | none =>
    exact hmade.moved (hmade.forest.refresh (by
        rw [Hierarchy.length_enlarged]
        exact Nat.lt_succ_self _)) (hmade.anchored.refresh _) (Hierarchy.length_refresh ..)
      (Hierarchy.contentsAt_refresh _ _)
  | some p =>
    refine hmade.attach ?_ a.size
    have hp := hparent p rfl
    change p < (a.hierarchy.enlarged contents).members.length
    rw [Hierarchy.length_enlarged]
    exact Nat.lt_succ_of_lt hp

theorem add (hr : r < a.shelves.store.size) (hkind : (a.shelves.store.recordAt r).kind = .look)
    {parent : Option Nat} (hparent : ∀ p ∈ parent, p < a.size) (id name : String) :
    (a.add id name r parent).Sound := by
  have halike := (Shelves.grown_blank a.shelves.store).alike hsound.owned.bound hr
  refine placed (hsound.newcomer (hsound.owned.add hr hkind) (Shelves.grown_blank _) rfl ?_) hparent
  exact (Shelves.read_blank a.shelves.store id name r).trans (by rw [halike.lookAt])

/-- A member without children that has the same contents as another one. -/
theorem double {member : Member} (hn : a.hierarchy.get? n = some member) :
    (⟨a.hierarchy.add member.contents none, a.shelves.duplicate n⟩ : Archive).Sound ∧
      a.Extends ⟨a.hierarchy.add member.contents none, a.shelves.duplicate n⟩ := by
  obtain ⟨holding, hholding, hshown⟩ := hsound.shown n member.contents (by
    simp [Hierarchy.contentsAt, hn])
  obtain ⟨newcomer, hholdings, hgrown, howned, hlook, htables, hread⟩ :=
    hsound.owned.duplicate hholding
  constructor
  · exact placed (hsound.newcomer howned hgrown hholdings ((hread _ _).trans hshown)) (by simp)
  · refine ⟨Hierarchy.grown_add _ _, hgrown, fun m hm => ?_, fun m holding hm hfind => ?_⟩ <;>
      dsimp only at *
    · rw [hholdings, List.getElem?_append_left (hsound.size.symm ▸ hm)]
    · rw [hholdings, List.getElem?_append_right (hsound.size.symm ▸ hm),
        List.getElem?_singleton] at hfind
      split at hfind
      · cases hfind
        exact ⟨hlook, htables⟩
      · cases hfind

theorem extends_refl : a.Extends a where
  hierarchy := Hierarchy.grown_refl _
  store := Store.grown_refl _
  held _ _ := rfl
  fresh m holding hm hfind := by
    have hlt := (List.getElem?_eq_some_iff.mp hfind).1
    rw [hsound.size] at hlt
    exact absurd hm (Nat.not_le_of_lt hlt)

theorem copyWithin (fuel n : Nat) :
    (Archive.copyWithin fuel a n).Sound ∧ a.Extends (Archive.copyWithin fuel a n) := by
  induction fuel generalizing a n with
  | zero => exact ⟨hsound, hsound.extends_refl⟩
  | succ fuel ih =>
    unfold Archive.copyWithin
    cases hn : a.hierarchy.get? n with
    | none => exact ⟨hsound, hsound.extends_refl⟩
    | some member =>
      obtain ⟨hmade, hextends⟩ := hsound.double hn
      have hlt : a.size < Archive.size
          ⟨a.hierarchy.add member.contents none, a.shelves.duplicate n⟩ := by
        simp [Archive.size]
      dsimp only
      generalize (⟨a.hierarchy.add member.contents none, a.shelves.duplicate n⟩ : Archive) = made
        at hmade hextends hlt ⊢
      induction member.children.values generalizing made with
      | nil => exact ⟨hmade, hextends⟩
      | cons child rest ihRest =>
        obtain ⟨hcopied, hcopy⟩ := ih hmade child
        have hlater := Nat.lt_of_lt_of_le hlt hcopy.hierarchy.size
        refine ihRest _ (hcopied.attach hlater made.size)
          ((hextends.trans hcopy).attach (Nat.le_refl _) hextends.hierarchy.size) ?_
        exact Nat.lt_of_lt_of_eq hlater (Hierarchy.length_attach ..).symm

/-- Records may be changed in place, and then everyone is read again. -/
theorem overwrite {record : Record} (hr : r < a.shelves.store.size)
    (hkind : record.kind = (a.shelves.store.recordAt r).kind)
    (hparts : a.shelves.Given record.parts) : (a.overwrite r record).Sound where
  forest := hsound.forest.of_steady _ (Shelves.ties_shown _) (Shelves.lineage_shown _)
    (get?_overwrite a r record)
  anchored := by
    refine hsound.anchored.of_kept (length_overwrite a r record) fun k => ?_
    rw [get?_overwrite, Option.map_map]
    congr 1
    funext member
    exact Shelves.parent_shown _ k member
  owned := hsound.owned.write hr hkind hparts
  size := hsound.size.trans (length_overwrite a r record).symm
  shown := by
    intro n contents hn
    unfold Hierarchy.contentsAt at hn
    rw [get?_overwrite, Option.map_map] at hn
    obtain ⟨member, hmember, rfl⟩ := Option.map_eq_some_iff.mp hn
    obtain ⟨holding, hholding⟩ := hsound.find (Hierarchy.lt_of_get? hmember)
    have hfind : (a.overwrite r record).shelves.holdings[n]? = some holding := hholding
    refine ⟨holding, hfind, ?_⟩
    rw [Function.comp_apply, Shelves.shown_eq hfind]
    rfl

end Sound

theorem hierarchy_copyWithin (fuel : Nat) (a : Archive) (n : Nat) :
    (Archive.copyWithin fuel a n).hierarchy = Hierarchy.copyWithin fuel a.hierarchy n := by
  induction fuel generalizing a n with
  | zero => rfl
  | succ fuel ih =>
    unfold Archive.copyWithin Hierarchy.copyWithin
    cases a.hierarchy.get? n with
    | none => rfl
    | some member =>
      refine (List.foldl_hom Archive.hierarchy fun acc child => ?_).symm
      rw [← ih]
      rfl

theorem hierarchy_copy (a : Archive) (n : Nat) : (a.copy n).hierarchy = a.hierarchy.copy n :=
  hierarchy_copyWithin _ a n

end Archive

/-- What a deed is done to is there and of the right kind, and nothing is copied without end. -/
def Deed.Fits (a : Archive) : Deed → Prop
  | make record => a.shelves.Given record.parts
  | overwrite r record => r < a.shelves.store.size ∧
      record.kind = (a.shelves.store.recordAt r).kind ∧ a.shelves.Given record.parts
  | add _ _ look parent => look < a.shelves.store.size ∧
      (a.shelves.store.recordAt look).kind = .look ∧ ∀ p ∈ parent, p < a.size
  | put n gift => n < a.size ∧ a.shelves.Given gift.records ∧ a.shelves.Suits gift
  | setId n _ | setName n _ => n < a.size
  | move n parent => n < a.size ∧ ∀ p ∈ parent, p < a.size
  | attach parent n => parent < a.size ∧ n < a.size
  | merge n other => n < a.size ∧ other < a.size
  | copy n => n < a.size ∧ a.hierarchy.CircleFree n

namespace Archive

/-- The archives that come of deeds. -/
inductive Reached : Archive → Prop
  | start : Reached {}
  | after {a : Archive} (hreached : Reached a) {deed : Deed} (hfits : deed.Fits a) :
      Reached (deed.apply a)

theorem Sound.apply {a : Archive} (hsound : a.Sound) {deed : Deed} (hfits : deed.Fits a) :
    (deed.apply a).Sound := by
  cases deed with
  | make record => exact hsound.make hfits
  | overwrite r record => exact hsound.overwrite hfits.1 hfits.2.1 hfits.2.2
  | add id name look parent => exact hsound.add hfits.1 hfits.2.1 hfits.2.2 id name
  | put n gift => exact hsound.put hfits.1 hfits.2.1 hfits.2.2
  | setId n id => exact hsound.setId n id
  | setName n name => exact hsound.setName n name
  | move n parent => exact hsound.move n hfits.2
  | attach parent n => exact hsound.attach hfits.1 n
  | merge n other => exact hsound.merge hfits.1 hfits.2
  | copy n => exact (hsound.copyWithin _ n).1

theorem Reached.sound {a : Archive} (hreached : Reached a) : a.Sound := by
  induction hreached with
  | start => exact sound_start
  | after _ hfits ih => exact ih.apply hfits

end Archive

end RecipeGraph.Graph
