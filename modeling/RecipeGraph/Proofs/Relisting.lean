import RecipeGraph.Proofs.Filing

/-!
Other names and other ids. A member that takes another name gives up the entry of the old one only
if that leads to it, and enters the new one over whoever bears it already. A new id comes to stand
in both maps of the parent.
-/
namespace RecipeGraph.Graph.Hierarchy

variable {h : Hierarchy} {n k q : Nat} {member around child : Member} {id name : String}
  {parent : Option Nat}

section Renamed

/-- The hierarchy after a change of name. -/
def renamed (h : Hierarchy) (n : Nat) (member : Member) (name : String) : Hierarchy :=
  match member.parent with
  | none => h.edit n ({ · with name := name })
  | some parent =>
      (h.edit n ({ · with name := name })).update parent fun around =>
        { around with
          names := if name = "" then disowned around.names member.id member.name
            else (disowned around.names member.id member.name).insert name member.id }

theorem setName_eq (hn : h.get? n = some member) (name : String) :
    h.setName n name = h.renamed n member name := by
  unfold setName renamed
  rw [hn]
  cases hparent : member.parent with
  | none => simp only [hparent]
  | some parent =>
    simp only [hparent]
    rfl

theorem get?_renamed (h : Hierarchy) (n k : Nat) (member : Member) (name : String) :
    (h.renamed n member name).get? k = (h.get? k).map fun other =>
      { other with
        contents := if n = k then { other.contents with name := name } else other.contents
        names := if member.parent = some k then
          if name = "" then disowned other.names member.id member.name
            else (disowned other.names member.id member.name).insert name member.id
          else other.names } := by
  unfold renamed
  cases member.parent with
  | none =>
    rw [edit, get?_update]
    congr 1
    funext other
    by_cases hk : n = k <;> simp [hk]
  | some parent =>
    simp only [edit, get?_update, Option.map_map]
    congr 1
    funext other
    by_cases hp : parent = k
    · by_cases hk : n = k <;> simp [hk, hp]
    · by_cases hk : n = k <;> simp [hk, hp]

theorem find_renamed (hk : (h.renamed n member name).get? k = some child) :
    ∃ before, h.get? k = some before ∧ before.id = child.id ∧
      child.name = (if n = k then name else before.name) ∧ child.parent = before.parent ∧
      child.names = if member.parent = some k then
        if name = "" then disowned before.names member.id member.name
          else (disowned before.names member.id member.name).insert name member.id
        else before.names := by
  rw [get?_renamed] at hk
  obtain ⟨before, hbefore, rfl⟩ := Option.map_eq_some_iff.mp hk
  refine ⟨before, hbefore, ?_, ?_, rfl, rfl⟩ <;>
    by_cases hn : n = k <;> simp [hn, Member.id, Member.name]

theorem keep_renamed (n : Nat) (member : Member) (name : String) (hk : h.get? k = some child) :
    ∃ after, (h.renamed n member name).get? k = some after ∧ after.id = child.id ∧
      after.name = if n = k then name else child.name := by
  have hget := get?_renamed h n k member name
  rw [hk, Option.map_some] at hget
  refine ⟨_, hget, ?_, ?_⟩ <;> by_cases hn : n = k <;> simp [hn, Member.id, Member.name]

theorem finds_renamed : (h.renamed n member name).Finds q id k ↔ h.Finds q id k := by
  unfold Finds
  rw [get?_renamed]
  cases h.get? q <;> simp

variable (hfiled : h.Filed) (hids : h.DistinctIds) (hlinked : h.Linked)
  (hn : h.get? n = some member)

include hlinked hn in
/-- Only the parent that a member knows of finds it. -/
theorem Linked.parent_of_finds (hfinds : h.Finds q id n) : member.parent = some q := by
  obtain ⟨around, hq, hget⟩ := hfinds
  obtain ⟨child, hchild, -, hparent⟩ :=
    hlinked.held q id n ⟨around, hq, OrderedMap.mem_of_get? hget⟩
  rw [hn] at hchild
  cases hchild
  exact hparent

include hfiled hids hn

theorem Names.renamed {other : String} (hnames : h.Names q other id) (hid : id ≠ member.id) :
    (h.renamed n member name).Names q other id := by
  obtain ⟨k, child, hfinds, hk, hid', hname⟩ := hnames
  have hother : n ≠ k := fun hself => hid ((hfiled.finds_self hids hn hfinds).mpr hself.symm)
  obtain ⟨after, hafter, hid'', hname'⟩ := keep_renamed n member name hk
  rw [if_neg hother] at hname'
  exact ⟨k, after, finds_renamed.mpr hfinds, hafter, hid''.trans hid', hname'.trans hname⟩

include hlinked

theorem Filed.renamed (name : String) : (h.renamed n member name).Filed where
  held q id k hfinds := by
    obtain ⟨child, hk, hid⟩ := hfiled.held q id k (finds_renamed.mp hfinds)
    obtain ⟨after, hafter, hid', -⟩ := keep_renamed n member name hk
    exact ⟨after, hafter, hid'.trans hid⟩
  housed k child q hk hq := by
    obtain ⟨before, hbefore, hid, -, hparent, -⟩ := find_renamed hk
    exact finds_renamed.mpr (hid ▸ hfiled.housed k before q hbefore (hparent.symm.trans hq))
  leads q other key id hq hget := by
    obtain ⟨before, hbefore, -, -, -, heq⟩ := find_renamed hq
    rw [heq] at hget
    have hkept : before.names.get? key = some id → (member.parent = some q →
        ¬ (member.name = key ∧ member.name ≠ "" ∧ before.names.get? member.name =
          some member.id)) → key ≠ "" ∧ (h.renamed n member name).Names q key id := by
      intro hold hstays
      obtain ⟨hkey, hnames⟩ := hfiled.leads q before key id hbefore hold
      refine ⟨hkey, hnames.renamed hfiled hids hn ?_⟩
      rintro rfl
      obtain ⟨k, child, hfinds, hk, -, rfl⟩ := hnames
      obtain rfl := (hfiled.finds_self hids hn hfinds).mp rfl
      rw [hn] at hk
      cases hk
      exact hstays (hlinked.parent_of_finds hn hfinds) ⟨rfl, hkey, hold⟩
    have hdisowned : (disowned before.names member.id member.name).get? key = some id →
        key ≠ "" ∧ (h.renamed n member name).Names q key id := by
      intro hold
      obtain ⟨hstays, hold⟩ := get?_disowned_eq_some.mp hold
      exact hkept hold fun _ => hstays
    split at hget
    · rename_i hparent
      split at hget
      · exact hdisowned hget
      · rename_i hnamed
        obtain ⟨rfl, rfl⟩ | ⟨-, hold⟩ := OrderedMap.get?_insert_eq_some.mp hget
        · obtain ⟨after, hafter, hid, hname⟩ := keep_renamed n member name hn
          rw [if_pos rfl] at hname
          exact ⟨hnamed, n, after, finds_renamed.mpr (hfiled.housed n member q hn hparent),
            hafter, hid, hname⟩
        · exact hdisowned hold
    · rename_i hother
      exact hkept hget fun hparent => absurd hparent hother

omit hfiled hids in
theorem Lists.renamed (hlists : h.Lists q)
    (halone : member.parent = some q → member.name ≠ name → h.Alone q n) :
    (h.renamed n member name).Lists q := by
  intro other key id hq hnames hkey
  obtain ⟨before, hbefore, -, -, -, heq⟩ := find_renamed hq
  obtain ⟨k, child, hfinds, hk, hid, hname⟩ := hnames
  obtain ⟨origin, horigin, hid', hname', -⟩ := find_renamed hk
  have hheld := finds_renamed.mp hfinds
  rw [heq]
  by_cases hself : n = k
  · -- the member itself, under its new name
    subst hself
    rw [if_pos rfl] at hname'
    obtain rfl := hname'.symm.trans hname
    rw [if_pos (hlinked.parent_of_finds hn hheld), if_neg hkey, OrderedMap.get?_insert_self]
    exact Option.some_ne_none _
  · rw [if_neg hself] at hname'
    have hfound := hlists before key id hbefore
      ⟨k, origin, hheld, horigin, hid'.trans hid, hname'.symm.trans hname⟩ hkey
    have hstays : member.parent = some q → name ≠ key →
        (disowned before.names member.id member.name).get? key ≠ none := by
      intro hparent hnew
      rw [get?_disowned, if_neg]
      · exact hfound
      · rintro ⟨hsame, -, hleads⟩
        have hbears : origin.name = member.name := (hname'.symm.trans hname).trans hsame.symm
        exact hself (halone hparent (fun hold => hnew (hold.symm.trans hsame)) member hn before
          hbefore hleads k (hheld.mem_values hbefore) origin horigin hbears).symm
    split
    · rename_i hparent
      split
      · rename_i hempty
        exact hstays hparent fun hsame => hkey (hsame.symm.trans hempty)
      · rw [OrderedMap.get?_insert]
        split
        · exact Option.some_ne_none _
        · rename_i hnew
          exact hstays hparent hnew
    · exact hfound

end Renamed

section Reidentified

theorem find_reidentified (hk : (h.reidentified n member id).get? k = some child) :
    ∃ before, h.get? k = some before ∧ child.id = (if n = k then id else before.id) ∧
      child.name = before.name ∧ child.parent = before.parent ∧
      child.children = (if member.parent = some k then
        (released before.children n member.id).insert id n else before.children) ∧
      child.names = if member.parent = some k ∧ member.name ≠ "" then
        before.names.insert member.name id else before.names := by
  rw [get?_reidentified] at hk
  obtain ⟨before, hbefore, rfl⟩ := Option.map_eq_some_iff.mp hk
  refine ⟨before, hbefore, ?_, ?_, rfl, rfl, rfl⟩ <;>
    by_cases hn : n = k <;> simp [hn, Member.id, Member.name]

theorem keep_reidentified (n : Nat) (member : Member) (id : String) (hk : h.get? k = some child) :
    ∃ after, (h.reidentified n member id).get? k = some after ∧
      after.id = (if n = k then id else child.id) ∧ after.name = child.name ∧
      after.children = if member.parent = some k then
        (released child.children n member.id).insert id n else child.children := by
  have hget := get?_reidentified h n k member id
  rw [hk, Option.map_some] at hget
  refine ⟨_, hget, ?_, ?_, rfl⟩ <;> by_cases hn : n = k <;> simp [hn, Member.id, Member.name]

variable (hfiled : h.Filed) (hids : h.DistinctIds) (hlinked : h.Linked)
  (hn : h.get? n = some member)

include hfiled hids hlinked hn

/-- A child is found under its id as it is now. -/
theorem finds_reidentified (hids' : (h.reidentified n member id).DistinctIds) {key : String} :
    (h.reidentified n member id).Finds q key k ↔
      (h.Finds q key k ∧ k ≠ n) ∨ (member.parent = some q ∧ key = id ∧ k = n) := by
  constructor
  · rintro ⟨other, hq, hget⟩
    obtain ⟨before, hbefore, -, -, -, hchildren, -⟩ := find_reidentified hq
    rw [hchildren] at hget
    split at hget
    · rename_i hparent
      obtain ⟨hkey, rfl⟩ | ⟨-, hreleased⟩ := OrderedMap.get?_insert_eq_some.mp hget
      · exact Or.inr ⟨hparent, hkey.symm, rfl⟩
      · obtain ⟨hstays, hold⟩ := get?_released_eq_some.mp hreleased
        refine Or.inl ⟨⟨before, hbefore, hold⟩, ?_⟩
        rintro rfl
        have hself := (hfiled.finds_self hids hn ⟨before, hbefore, hold⟩).mpr rfl
        exact hstays ⟨hself.symm, hself ▸ hold⟩
    · rename_i hother
      have hfinds : h.Finds q key k := ⟨before, hbefore, hget⟩
      refine Or.inl ⟨hfinds, ?_⟩
      rintro rfl
      exact hother (hlinked.parent_of_finds hn hfinds)
  · rintro (⟨hfinds, hother⟩ | ⟨hparent, rfl, rfl⟩)
    · obtain ⟨child, hk, hkey⟩ := hfiled.held q key k hfinds
      obtain ⟨around, hq, hget⟩ := hfinds
      obtain ⟨after, hafter, -, -, hchildren⟩ := keep_reidentified n member id hq
      refine ⟨after, hafter, ?_⟩
      rw [hchildren]
      split
      · -- nobody else has the new id or had the old one
        have hnew : id ≠ key := by
          rintro rfl
          obtain ⟨self, hself, hid, -⟩ := keep_reidentified n member id hn
          obtain ⟨kept, hkept, hid', -⟩ := keep_reidentified n member id hk
          rw [if_pos rfl] at hid
          rw [if_neg (Ne.symm hother)] at hid'
          exact hother (hids'.eq hkept hself (hid'.trans (hkey.trans hid.symm)))
        have hold : member.id ≠ key :=
          fun hsame => hother (hids.eq hk hn (hkey.trans hsame.symm))
        rw [OrderedMap.get?_insert_of_ne _ _ hnew, get?_released, if_neg fun h => hold h.1, hget]
      · exact hget
    · obtain ⟨around, hq, -⟩ := hfiled.housed k member q hn hparent
      obtain ⟨after, hafter, -, -, hchildren⟩ := keep_reidentified k member key hq
      refine ⟨after, hafter, ?_⟩
      rw [hchildren, if_pos hparent, OrderedMap.get?_insert_self]

theorem Filed.reidentified (hids' : (h.reidentified n member id).DistinctIds) :
    (h.reidentified n member id).Filed where
  held q key k hfinds := by
    rcases (finds_reidentified hfiled hids hlinked hn hids').mp hfinds with
      ⟨hold, hother⟩ | ⟨-, rfl, rfl⟩
    · obtain ⟨child, hk, hkey⟩ := hfiled.held q key k hold
      obtain ⟨after, hafter, hid, -⟩ := keep_reidentified n member id hk
      rw [if_neg (Ne.symm hother)] at hid
      exact ⟨after, hafter, hid.trans hkey⟩
    · obtain ⟨after, hafter, hid, -⟩ := keep_reidentified k member key hn
      rw [if_pos rfl] at hid
      exact ⟨after, hafter, hid⟩
  housed k child q hk hq := by
    obtain ⟨before, hbefore, hid, -, hparent, -⟩ := find_reidentified hk
    rw [finds_reidentified hfiled hids hlinked hn hids', hid]
    rw [hparent] at hq
    split
    · rename_i hself
      subst hself
      rw [hn] at hbefore
      cases hbefore
      exact Or.inr ⟨hq, rfl, rfl⟩
    · rename_i hother
      exact Or.inl ⟨hfiled.housed k before q hbefore hq, Ne.symm hother⟩
  leads q other key x hq hget := by
    obtain ⟨before, hbefore, -, -, -, -, hnames⟩ := find_reidentified hq
    rw [hnames] at hget
    have hself : member.parent = some q → (h.reidentified n member id).Names q member.name id := by
      intro hparent
      obtain ⟨after, hafter, hid, hname, -⟩ := keep_reidentified n member id hn
      rw [if_pos rfl] at hid
      exact ⟨n, after, (finds_reidentified hfiled hids hlinked hn hids').mpr
        (Or.inr ⟨hparent, rfl, rfl⟩), hafter, hid, hname⟩
    have hkept : before.names.get? key = some x →
        (member.parent = some q → member.name ≠ "" → member.name ≠ key) →
        key ≠ "" ∧ (h.reidentified n member id).Names q key x := by
      intro hold hne
      obtain ⟨hkey, k, child, hfinds, hk, hid, rfl⟩ := hfiled.leads q before key x hbefore hold
      have hother : k ≠ n := by
        rintro rfl
        rw [hn] at hk
        cases hk
        exact hne (hlinked.parent_of_finds hn hfinds) hkey rfl
      obtain ⟨after, hafter, hid', hname, -⟩ := keep_reidentified n member id hk
      rw [if_neg (Ne.symm hother)] at hid'
      exact ⟨hkey, k, after, (finds_reidentified hfiled hids hlinked hn hids').mpr
        (Or.inl ⟨hfinds, hother⟩), hafter, hid'.trans hid, hname⟩
    split at hget
    · rename_i hboth
      obtain ⟨rfl, rfl⟩ | ⟨hne, hold⟩ := OrderedMap.get?_insert_eq_some.mp hget
      · exact ⟨hboth.2, hself hboth.1⟩
      · exact hkept hold fun _ _ => hne
    · rename_i hnot
      exact hkept hget fun hparent hnamed => absurd ⟨hparent, hnamed⟩ hnot

theorem Lists.reidentified (hids' : (h.reidentified n member id).DistinctIds)
    (hlists : h.Lists q) : (h.reidentified n member id).Lists q := by
  intro other key x hq hnames hkey
  obtain ⟨before, hbefore, -, -, -, -, heq⟩ := find_reidentified hq
  obtain ⟨k, child, hfinds, hk, hid, rfl⟩ := hnames
  obtain ⟨origin, horigin, -, hname, -⟩ := find_reidentified hk
  have hheld : ∃ y, h.Finds q y k := by
    rcases (finds_reidentified hfiled hids hlinked hn hids').mp hfinds with
      ⟨hold, -⟩ | ⟨hparent, -, rfl⟩
    · exact ⟨x, hold⟩
    · exact ⟨member.id, hfiled.housed k member q hn hparent⟩
  obtain ⟨y, hy⟩ := hheld
  obtain ⟨held, hk', hid'⟩ := hfiled.held q y k hy
  rw [horigin] at hk'
  cases hk'
  have hfound := hlists before child.name y hbefore ⟨k, origin, hy, horigin, hid', hname.symm⟩ hkey
  rw [heq]
  split
  · rw [OrderedMap.get?_insert]
    split
    · exact Option.some_ne_none _
    · exact hfound
  · exact hfound

end Reidentified

end RecipeGraph.Graph.Hierarchy
