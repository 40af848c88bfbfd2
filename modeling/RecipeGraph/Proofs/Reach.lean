import RecipeGraph.Proofs.Duplication
import RecipeGraph.Proofs.NameMaps

/-!
How far edits reach. An edit changes the members that it is made to, the parents that they have or
had, and the lineage of those below them; every other member stays exactly as it was.
-/
namespace RecipeGraph.Graph.Hierarchy

variable {h h' : Hierarchy} {n k m p : Nat} {way : List Nat} {member other : Member} {id : String}

section Below

theorem descends_of_mem_walk {seen pending : List Nat} (hk : k ∈ h.walk seen pending) :
    ∃ n ∈ pending, ∃ way, h.Descends n way k := by
  fun_induction walk h seen pending with
  | case1 seen => cases hk
  | case2 seen n rest hskip ih =>
    obtain ⟨m, hm, hway⟩ := ih hk
    exact ⟨m, List.mem_cons_of_mem _ hm, hway⟩
  | case3 seen n rest hskip ih =>
    rcases List.mem_cons.mp hk with rfl | hlater
    · exact ⟨k, List.mem_cons_self .., [], .here⟩
    · obtain ⟨m, hm, way, hway⟩ := ih hlater
      rcases List.mem_append.mp hm with hchild | hrest
      · obtain ⟨id, hholds⟩ := mem_childrenOf.mp hchild
        exact ⟨n, List.mem_cons_self .., m :: way, hway.from_child hholds⟩
      · exact ⟨m, List.mem_cons_of_mem _ hrest, way, hway⟩

theorem descends_of_mem_below (hk : k ∈ h.below n) : ∃ way, h.Descends n way k := by
  obtain ⟨m, hm, hway⟩ := descends_of_mem_walk hk
  obtain rfl := List.mem_singleton.mp hm
  exact hway

/-- If all that is held anew is `n`, nobody else comes to be below `n`. -/
theorem descends_of_gain (hgain : ∀ m id k, h'.Holds m id k → h.Holds m id k ∨ k = n)
    (hway : h'.Descends n way k) : ∃ way, h.Descends n way k := by
  induction hway with
  | here => exact ⟨[], .here⟩
  | down _ hholds ih =>
    rcases hgain _ _ _ hholds with hold | rfl
    · obtain ⟨way, hway⟩ := ih
      exact ⟨_, hway.down hold⟩
    · exact ⟨[], .here⟩

/-- A refresh only concerns the lineage of those that are below. -/
theorem get?_refresh_noted (h : Hierarchy) (n k : Nat) :
    ∃ noted : Member → List String,
      (h.refresh n).get? k = (h.get? k).map (fun other => { other with lineage := noted other }) ∧
        ((∀ way, ¬ h.Descends n way k) → ∀ other, noted other = other.lineage) := by
  refine ⟨fun other => if k ∈ h.below n then h.lineageOf k else other.lineage, ?_, ?_⟩
  · rw [get?_refresh]
    congr 1
    funext other
    by_cases hk : k ∈ h.below n <;> simp [hk]
  · intro hoff other
    refine if_neg fun hk => ?_
    obtain ⟨way, hway⟩ := descends_of_mem_below hk
    exact hoff way hway

end Below

section Edits

theorem mem_of_released {children : OrderedMap Nat} {key : String}
    (hmem : (key, k) ∈ (released children n id).entries) : (key, k) ∈ children.entries := by
  unfold released at hmem
  split at hmem
  · exact (OrderedMap.mem_erase.mp hmem).1
  · exact hmem

/-- What is held after a member was taken in. -/
theorem holds_taken_reparented {self : Member} {parent : Option Nat}
    (hholds : ((h.taken p n member).reparented n self parent).Holds m id k) :
    h.Holds m id k ∨ k = n := by
  obtain ⟨after, hafter, hmem⟩ := hholds
  rw [get?_reparented, get?_taken, Option.map_map] at hafter
  obtain ⟨before, hbefore, rfl⟩ := Option.map_eq_some_iff.mp hafter
  dsimp only [Function.comp_apply] at hmem
  have hplaced : (id, k) ∈ (if p = m then before.place n member.id member.name
      else before).children.entries := by
    by_cases hleft : self.parent = some m ∧ parent ≠ some m
    · rw [if_pos hleft] at hmem
      exact mem_of_released hmem
    · rwa [if_neg hleft] at hmem
  split at hplaced
  · rcases OrderedMap.mem_insert hplaced with ⟨-, rfl⟩ | hold
    · exact Or.inr rfl
    · exact Or.inl ⟨before, hbefore, hold⟩
  · exact Or.inl ⟨before, hbefore, hplaced⟩

/-- The children of a member once another one was put somewhere: it is let go where it was, and
taken in where it comes to. -/
def childrenAfter (member : Member) (n p k : Nat) (children : OrderedMap Nat) : OrderedMap Nat :=
  let placed := if p = k then children.insert member.id n else children
  if member.parent = some k ∧ p ≠ k then released placed n member.id else placed

/-- The names that lead to the children of a member once another one was put somewhere. -/
def namesAfter (member : Member) (p k : Nat) (names : OrderedMap String) : OrderedMap String :=
  let placed := if p = k ∧ member.name ≠ "" then names.insert member.name member.id else names
  if member.parent = some k ∧ p ≠ k then disowned placed member.id member.name else placed

theorem get?_attach (hn : h.get? n = some member) (p k : Nat) :
    ∃ noted : Member → List String,
      (h.attach p n).get? k = (h.get? k).map (fun other =>
        { other with
          parent := if n = k then some p else other.parent
          children := childrenAfter member n p k other.children
          names := namesAfter member p k other.names
          lineage := noted other }) ∧
        ((∀ way, ¬ h.Descends n way k) → ∀ other, noted other = other.lineage) := by
  obtain ⟨self, hself, hid, hparent, heq⟩ := attach_eq (p := p) hn
  have hname : self.name = member.name := by
    rw [get?_taken, hn, Option.map_some, Option.some.injEq] at hself
    subst hself
    split <;> rfl
  obtain ⟨noted, hget, hkept⟩ :=
    get?_refresh_noted ((h.taken p n member).reparented n self (some p)) n k
  refine ⟨fun other => noted
    { (if p = k then other.place n member.id member.name else other) with
      parent := if n = k then some p else other.parent
      children := childrenAfter member n p k other.children
      names := namesAfter member p k other.names }, ?_, ?_⟩
  · rw [heq, hget, get?_reparented, get?_taken, Option.map_map, Option.map_map, hid, hname,
      hparent]
    congr 1
    funext other
    by_cases hpk : p = k
    · by_cases hnamed : member.name = "" <;>
        simp [hpk, childrenAfter, namesAfter, Member.place, hnamed]
    · by_cases hheld : member.parent = some k <;>
        simp [hpk, childrenAfter, namesAfter, hheld]
  · intro hoff other
    refine (hkept (fun way hway => ?_) _).trans ?_
    · obtain ⟨way', hway'⟩ := descends_of_gain
        (fun m id k hholds => holds_taken_reparented hholds) hway
      exact hoff way' hway'
    · dsimp only
      split <;> rfl

/-- Who is not where the member comes from or where it goes keeps all that it holds. -/
theorem get?_attach_aside (hn : h.get? n = some member) (hp : p ≠ k)
    (hfrom : member.parent ≠ some k) :
    ∃ noted : Member → List String,
      (h.attach p n).get? k = (h.get? k).map (fun other =>
        { other with
          parent := if n = k then some p else other.parent
          lineage := noted other }) ∧
        ((∀ way, ¬ h.Descends n way k) → ∀ other, noted other = other.lineage) := by
  obtain ⟨noted, hget, hkept⟩ := get?_attach hn p k
  refine ⟨noted, ?_, hkept⟩
  rw [hget]
  simp [hp, hfrom, childrenAfter, namesAfter]

/-- The new parent takes the member in. -/
theorem get?_attach_parent (hn : h.get? n = some member) (hbelow : ∀ way, ¬ h.Descends n way p) :
    (h.attach p n).get? p = (h.get? p).map (·.place n member.id member.name) := by
  obtain ⟨noted, hget, hkept⟩ := get?_attach hn p p
  have hnp : n ≠ p := by
    rintro rfl
    exact hbelow [] .here
  rw [hget]
  congr 1
  funext other
  by_cases hnamed : member.name = "" <;>
    simp [hnp, childrenAfter, namesAfter, hkept hbelow, Member.place, hnamed]

theorem get?_release (hn : h.get? n = some member) (k : Nat) :
    ∃ noted : Member → List String,
      (h.setParent n none).get? k = (h.get? k).map (fun other =>
        { other with
          parent := if n = k then none else other.parent
          children := if member.parent = some k then released other.children n member.id
            else other.children
          names := if member.parent = some k then disowned other.names member.id member.name
            else other.names
          lineage := noted other }) ∧
        ((∀ way, ¬ h.Descends n way k) → ∀ other, noted other = other.lineage) := by
  obtain ⟨noted, hget, hkept⟩ := get?_refresh_noted (h.reparented n member none) n k
  refine ⟨fun other => noted
    { other with
      parent := if n = k then none else other.parent
      children := if member.parent = some k then released other.children n member.id
        else other.children
      names := if member.parent = some k then disowned other.names member.id member.name
        else other.names }, ?_, ?_⟩
  · rw [setParent_eq hn, hget, get?_reparented, Option.map_map]
    congr 1
    funext other
    simp
  · intro hoff other
    refine (hkept (fun way hway => ?_) _).trans rfl
    have hgain : ∀ m id k, (h.reparented n member none).Holds m id k → h.Holds m id k ∨ k = n := by
      rintro m id k ⟨after, hafter, hmem⟩
      rw [get?_reparented] at hafter
      obtain ⟨before, hbefore, rfl⟩ := Option.map_eq_some_iff.mp hafter
      dsimp only at hmem
      split at hmem
      · exact Or.inl ⟨before, hbefore, mem_of_released hmem⟩
      · exact Or.inl ⟨before, hbefore, hmem⟩
    obtain ⟨way', hway'⟩ := descends_of_gain hgain hway
    exact hoff way' hway'

theorem get?_setId (hn : h.get? n = some member) (id : String) (k : Nat) :
    ∃ noted : Member → List String,
      (h.setId n id).get? k = (h.get? k).map (fun other =>
        { other with
          contents := if n = k then { other.contents with id := id } else other.contents
          children := if member.parent = some k then
            (released other.children n member.id).insert id n else other.children
          names := if member.parent = some k ∧ member.name ≠ "" then
            other.names.insert member.name id else other.names
          lineage := noted other }) ∧
        ((∀ way, ¬ h.Descends n way k) → ∀ other, noted other = other.lineage) := by
  obtain ⟨noted, hget, hkept⟩ := get?_refresh_noted (h.reidentified n member id) n k
  refine ⟨fun other => noted
    { other with
      contents := if n = k then { other.contents with id := id } else other.contents
      children := if member.parent = some k then
        (released other.children n member.id).insert id n else other.children
      names := if member.parent = some k ∧ member.name ≠ "" then
        other.names.insert member.name id else other.names }, ?_, ?_⟩
  · rw [setId_eq hn, hget, get?_reidentified, Option.map_map]
    rfl
  · intro hoff other
    refine (hkept (fun way hway => ?_) _).trans rfl
    have hgain : ∀ m key k, (h.reidentified n member id).Holds m key k →
        h.Holds m key k ∨ k = n := by
      rintro m key k ⟨after, hafter, hmem⟩
      rw [get?_reidentified] at hafter
      obtain ⟨before, hbefore, rfl⟩ := Option.map_eq_some_iff.mp hafter
      dsimp only at hmem
      split at hmem
      · rcases OrderedMap.mem_insert hmem with ⟨-, rfl⟩ | hold
        · exact Or.inr rfl
        · exact Or.inl ⟨before, hbefore, mem_of_released hold⟩
      · exact Or.inl ⟨before, hbefore, hmem⟩
    obtain ⟨way', hway'⟩ := descends_of_gain hgain hway
    exact hoff way' hway'

end Edits

section AttachAll

/-- Members under their ids. -/
def filed (h : Hierarchy) (ks : List Nat) : List (String × Nat) :=
  ks.filterMap fun k => (h.get? k).map fun member => (member.id, k)

/-- The names that members bear, with their ids. -/
def borne (h : Hierarchy) (ks : List Nat) : List (String × String) :=
  ks.filterMap fun k =>
    (h.get? k).bind fun member => if member.name = "" then none else some (member.name, member.id)

/-- Nobody comes to be below `m` if something is held anew only by `n`, which is not below it. -/
theorem descends_of_gain_aside (hgain : ∀ m id k, h'.Holds m id k → h.Holds m id k ∨ m = n)
    (hoff : ∀ way, ¬ h.Descends m way n) (hway : h'.Descends m way k) : h.Descends m way k := by
  induction hway with
  | here => exact .here
  | down _ hholds ih =>
    rcases hgain _ _ _ hholds with hold | rfl
    · exact ih.down hold
    · exact absurd ih (hoff _)

theorem holds_attach (hholds : (h.attach p n).Holds m id k) :
    h.Holds m id k ∨ (m = p ∧ k = n) := by
  cases hn : h.get? n with
  | none =>
    left
    simpa [Hierarchy.attach, hn] using hholds
  | some member =>
    obtain ⟨after, hafter, hmem⟩ := hholds
    obtain ⟨noted, hget, -⟩ := get?_attach hn p m
    rw [hget] at hafter
    obtain ⟨before, hbefore, rfl⟩ := Option.map_eq_some_iff.mp hafter
    dsimp only [childrenAfter] at hmem
    have hplaced : (id, k) ∈ (if p = m then before.children.insert member.id n
        else before.children).entries := by
      by_cases hleft : member.parent = some m ∧ p ≠ m
      · rw [if_pos hleft] at hmem
        exact mem_of_released hmem
      · rwa [if_neg hleft] at hmem
    split at hplaced
    · rename_i hpm
      rcases OrderedMap.mem_insert hplaced with ⟨-, rfl⟩ | hold
      · exact Or.inr ⟨hpm.symm, rfl⟩
      · exact Or.inl ⟨before, hbefore, hold⟩
    · exact Or.inl ⟨before, hbefore, hplaced⟩

/-- What is known of members that are about to come from one parent to another. -/
structure Coming (h : Hierarchy) (n : Nat) (origin : Option Nat) (ks : List Nat) : Prop where
  parents : ∀ k ∈ ks, ∃ member, h.get? k = some member ∧ member.parent = origin
  nodup : ks.Nodup
  origin_ne : origin ≠ some n
  apart : ∀ k ∈ ks, origin ≠ some k
  target : ∀ k ∈ ks, ∀ way, ¬ h.Descends k way n

/-- The member that has others as well: they come after and over those that it had. -/
def joined (h : Hierarchy) (ks : List Nat) (member : Member) : Member :=
  { member with
    children := ⟨OrderedMap.writeAll (h.filed ks) member.children.entries⟩
    names := ⟨OrderedMap.writeAll (h.borne ks) member.names.entries⟩ }

variable {origin : Option Nat} {ks : List Nat}

theorem filed_congr (h h' : Hierarchy)
    (hsame : ∀ k ∈ ks, (h'.get? k).map Member.contents = (h.get? k).map Member.contents) :
    h'.filed ks = h.filed ks := by
  refine List.filterMap_congr fun k hk => ?_
  have hids := congrArg (Option.map Contents.id) (hsame k hk)
  rw [Option.map_map, Option.map_map] at hids
  have hpairs := congrArg (Option.map fun id => (id, k)) hids
  rwa [Option.map_map, Option.map_map] at hpairs

theorem borne_congr (h h' : Hierarchy)
    (hsame : ∀ k ∈ ks, (h'.get? k).map Member.contents = (h.get? k).map Member.contents) :
    h'.borne ks = h.borne ks := by
  refine List.filterMap_congr fun k hk => ?_
  have hpairs := congrArg (Option.bind · fun contents : Contents =>
    if contents.name = "" then none else some (contents.name, contents.id)) (hsame k hk)
  rwa [Option.bind_map, Option.bind_map] at hpairs

namespace Coming

/-- One of them comes first. -/
theorem step (hcoming : h.Coming n origin (k :: ks)) : (h.attach n k).Coming n origin ks where
  parents m hm := by
    obtain ⟨member, hk, rfl⟩ := hcoming.parents k (List.mem_cons_self ..)
    have hmem : m ∈ k :: ks := List.mem_cons_of_mem _ hm
    obtain ⟨child, hchild, hparent⟩ := hcoming.parents m hmem
    have hnm : n ≠ m := by
      rintro rfl
      exact hcoming.target n hmem [] .here
    have hkm : k ≠ m := by
      rintro rfl
      exact (List.nodup_cons.mp hcoming.nodup).1 hm
    obtain ⟨noted, hget, -⟩ := get?_attach_aside hk hnm (hcoming.apart m hmem)
    rw [hchild, Option.map_some, if_neg hkm] at hget
    exact ⟨_, hget, hparent⟩
  nodup := (List.nodup_cons.mp hcoming.nodup).2
  origin_ne := hcoming.origin_ne
  apart m hm := hcoming.apart m (List.mem_cons_of_mem _ hm)
  target m hm way hway := by
    have hoff := hcoming.target m (List.mem_cons_of_mem _ hm)
    exact hoff way (descends_of_gain_aside
      (fun _ _ _ hholds => (holds_attach hholds).imp_right And.left) hoff hway)

theorem contents_step (hcoming : h.Coming n origin (k :: ks)) (j : Nat) :
    ((h.attach n k).get? j).map Member.contents = (h.get? j).map Member.contents := by
  obtain ⟨member, hk, -⟩ := hcoming.parents k (List.mem_cons_self ..)
  obtain ⟨noted, hget, -⟩ := get?_attach hk n j
  rw [hget, Option.map_map]
  rfl

/-- The member that they come to has them all afterwards. -/
theorem get?_target (hcoming : h.Coming n origin ks) :
    (ks.foldl (fun acc k => acc.attach n k) h).get? n = (h.get? n).map (h.joined ks) := by
  induction ks generalizing h with
  | nil => exact Option.map_id'.symm
  | cons k ks ih =>
    obtain ⟨member, hk, -⟩ := hcoming.parents k (List.mem_cons_self ..)
    have hplaced := get?_attach_parent hk (hcoming.target k (List.mem_cons_self ..))
    rw [List.foldl_cons, ih hcoming.step, hplaced, Option.map_map]
    congr 1
    funext other
    have hfiled : (h.attach n k).filed ks = h.filed ks :=
      filed_congr h (h.attach n k) fun j _ => hcoming.contents_step j
    have hborne : (h.attach n k).borne ks = h.borne ks :=
      borne_congr h (h.attach n k) fun j _ => hcoming.contents_step j
    have hentry : h.filed (k :: ks) = (member.id, k) :: h.filed ks := by
      simp [filed, hk]
    by_cases hname : member.name = ""
    · have hbare : h.borne (k :: ks) = h.borne ks := by simp [borne, hk, hname]
      simp [joined, hfiled, hborne, hentry, hbare, Member.place, hname, OrderedMap.writeAll,
        OrderedMap.insert]
    · have hnamed : h.borne (k :: ks) = (member.name, member.id) :: h.borne ks := by
        simp [borne, hk, hname]
      simp [joined, hfiled, hborne, hentry, hnamed, Member.place, hname, OrderedMap.writeAll,
        OrderedMap.insert]

/-- Apart from the two parents everyone holds what they held. -/
theorem get?_aside (hcoming : h.Coming n origin ks) {j : Nat} (hn : n ≠ j)
    (horigin : origin ≠ some j) :
    ∃ noted : Member → List String,
      (ks.foldl (fun acc k => acc.attach n k) h).get? j = (h.get? j).map (fun other =>
        { other with
          parent := if j ∈ ks then some n else other.parent
          lineage := noted other }) ∧
        ((∀ k ∈ ks, ∀ way, ¬ h.Descends k way j) → ∀ other, noted other = other.lineage) := by
  induction ks generalizing h with
  | nil =>
    exact ⟨Member.lineage, Option.map_id'.symm, fun _ _ => rfl⟩
  | cons k ks ih =>
    obtain ⟨member, hk, hparent⟩ := hcoming.parents k (List.mem_cons_self ..)
    obtain ⟨noted, hget, hkept⟩ := get?_attach_aside hk hn (hparent ▸ horigin)
    obtain ⟨later, hlater, hkept'⟩ := ih hcoming.step
    refine ⟨fun other => later
      { other with
        parent := if k = j then some n else other.parent
        lineage := noted other }, ?_, ?_⟩
    · rw [List.foldl_cons, hlater, hget, Option.map_map]
      congr 1
      funext other
      by_cases hjk : k = j
      · simp [hjk]
      · by_cases hj : j ∈ ks <;> simp [hj, hjk, Ne.symm hjk]
    · intro hoff other
      refine (hkept' (fun m hm way hway => ?_) _).trans (hkept (hoff k (List.mem_cons_self ..)) other)
      refine hoff m (List.mem_cons_of_mem _ hm) way (descends_of_gain_aside
        (fun _ _ _ hholds => (holds_attach hholds).imp_right And.left) ?_ hway)
      exact hcoming.target m (List.mem_cons_of_mem _ hm)

end Coming

end AttachAll

end RecipeGraph.Graph.Hierarchy
