import RecipeGraph.Proofs.Absorption
import RecipeGraph.Proofs.Annexes

/-!
Lookups from a member that is being filled. The members above it depict the scopes around, each with
the child in its place that leads down to it, and whatever comes of that child, the picture of the
whole follows. So paths lead to the same values as in a scope with scopes around it, although these
do not know the scope inside.
-/
namespace RecipeGraph.Graph

namespace Hierarchy

variable {h h' : Hierarchy} {n k m p focus : Nat} {way : List Nat} {member : Member}
  {scope around : Scope} {outer : List Scope} {id name : String} {busy : List Nat}

/-- A picture that leads to none of the members that are at work. -/
structure Clear (h : Hierarchy) (busy : List Nat) (n : Nat) (scope : Scope) : Prop where
  depicts : h.Depicts n scope
  off : ∀ way k, h.Descends n way k → k ∉ busy

section Clear

theorem Depicts.lt_of_descends (hscope : h.Depicts n scope) (hway : h.Descends n way k) :
    k < h.members.length := by
  obtain ⟨part, hpart, -⟩ := hscope.within hway
  obtain ⟨member, hk, -⟩ := hpart.find
  exact lt_of_get? hk

theorem descends_of_kept (hkept : ∀ way k, h.Descends n way k → h'.get? k = h.get? k)
    (hway : h'.Descends n way k) : h.Descends n way k := by
  induction hway with
  | here => exact .here
  | down _ hholds ih =>
    obtain ⟨member, hm, hmem⟩ := hholds
    exact ih.down ⟨member, (hkept _ _ ih).symm.trans hm, hmem⟩

/-- What happens to those at work changes none of the others, and what comes is none of them. -/
theorem Clear.kept {later : List Nat} (hclear : h.Clear busy n scope)
    (hkept : ∀ k < h.members.length, k ∉ busy → h'.get? k = h.get? k)
    (hlater : ∀ k ∈ later, k ∈ busy ∨ h.members.length ≤ k) : h'.Clear later n scope := by
  have hsame : ∀ way k, h.Descends n way k → h'.get? k = h.get? k :=
    fun way k hway => hkept k (hclear.depicts.lt_of_descends hway) (hclear.off way k hway)
  constructor
  · exact hclear.depicts.congr fun way k hway => by rw [hsame way k hway]
  · intro way k hway hk
    have hold := descends_of_kept hsame hway
    rcases hlater k hk with hbusy | hnew
    · exact hclear.off way k hold hbusy
    · exact absurd (hclear.depicts.lt_of_descends hold) (Nat.not_lt_of_le hnew)

theorem Annexed.kept_off (hannexed : h.Annexed h' focus) (hfocus : focus ∈ busy) :
    ∀ k < h.members.length, k ∉ busy → h'.get? k = h.get? k := by
  intro k hk hoff
  refine hannexed.kept k hk ?_
  rintro rfl
  exact hoff hfocus

end Clear

section Entries

variable {α β : Type} {R : α → β → Prop} {as : List (String × α)} {bs : List (String × β)}
  {key : String} {a : α} {b : β}

/-- Entries of one name of which the one stands for the other, unless it has the given name. -/
def EntrywiseBut (key : String) (R : α → β → Prop) (first : String × α) (second : String × β) :
    Prop :=
  first.1 = second.1 ∧ (first.1 ≠ key → R first.2 second.2)

/-- The entry that is written over need not match. -/
theorem forall₂_write_but (h : List.Forall₂ (EntrywiseBut key R) as bs)
    (hdistinct : (as.map Prod.fst).Nodup) (hnew : R a b) :
    List.Forall₂ (Entrywise R) (OrderedMap.write key a as) (OrderedMap.write key b bs) := by
  induction h with
  | nil => exact .cons ⟨rfl, hnew⟩ .nil
  | @cons first second as bs hfirst hrest ih =>
    obtain ⟨k, x⟩ := first
    obtain ⟨k', y⟩ := second
    obtain rfl : k = k' := hfirst.1
    obtain ⟨hother, hdistinct⟩ := List.nodup_cons.mp hdistinct
    by_cases hk : k = key
    · subst hk
      have hmatch : List.Forall₂ (Entrywise R) as bs :=
        ((List.forall₂_and_left _ _).mpr ⟨fun entry hentry => hentry, hrest⟩).imp
          fun entry _ hboth => ⟨hboth.2.1, hboth.2.2 fun heq =>
            hother (List.mem_map.mpr ⟨entry, hboth.1, heq⟩)⟩
      simpa [OrderedMap.write] using ⟨⟨rfl, hnew⟩, hmatch⟩
    · simpa [OrderedMap.write, hk] using ⟨⟨rfl, hfirst.2 hk⟩, ih hdistinct⟩

end Entries

/-- Member `p` depicts the scope around a child, once the child is put in. It holds member `n` in the
place of the child; the others lead nowhere near the member at work. -/
structure Encloses (h : Hierarchy) (focus p n : Nat) (id name : String) (around : Scope)
    (member : Member) (siblings : List (String × Nat)) : Prop where
  away : p ≠ focus
  find : h.get? p = some member
  contents : around.contents = member.contents
  names : member.names = if name = "" then around.names else around.names.insert name id
  entries : member.children.entries = OrderedMap.write id n siblings
  distinct : (siblings.map Prod.fst).Nodup
  depicted : List.Forall₂ (EntrywiseBut id (h.Clear [focus])) siblings (Scope.filed around.children)

/-- The members above member `n`, which has the given id and name, and the scopes around. -/
inductive Around (h : Hierarchy) (focus : Nat) : Nat → String → String → List Scope → Prop
  | top {n : Nat} {id name : String} (hparent : (h.get? n).map Member.parent = some none) :
      Around h focus n id name []
  | inside {n p : Nat} {id name : String} {around : Scope} {further : List Scope}
      {member : Member} {siblings : List (String × Nat)}
      (hparent : (h.get? n).map Member.parent = some (some p))
      (hencloses : h.Encloses focus p n id name around member siblings)
      (hfurther : Around h focus p around.id around.name further) :
      Around h focus n id name (around :: further)

namespace Encloses

variable {siblings : List (String × Nat)}

/-- With the child in its place the picture is whole. -/
theorem depicts (hencloses : h.Encloses focus p n id name around member siblings)
    (hscope : h.Depicts n scope) (hid : scope.id = id) (hname : scope.name = name) :
    h.Depicts p (around.attach scope) := by
  refine depicts_iff.mpr ⟨member, hencloses.find, hencloses.contents, ?_, ?_⟩
  · rw [hencloses.names, Scope.names_attach, hname, hid]
  · have hclear : List.Forall₂ (EntrywiseBut id h.Depicts) siblings
        (Scope.filed around.children) :=
      hencloses.depicted.imp fun _ _ hentry => ⟨hentry.1, fun hne => (hentry.2 hne).depicts⟩
    have hwhole := forall₂_values (forall₂_write_but hclear hencloses.distinct hscope)
    rw [← hencloses.entries, ← hid, ← Scope.filed_placeChild] at hwhole
    simpa [Scope.filed, Contents.keyed, OrderedMap.values] using hwhole

theorem annexed {later : Nat} (hencloses : h.Encloses focus p n id name around member siblings)
    (hannexed : h.Annexed h' focus) (hlater : later = focus ∨ h.members.length ≤ later) :
    h'.Encloses later p n id name around member siblings where
  away := by
    have hp := lt_of_get? hencloses.find
    have haway := hencloses.away
    omega
  find := (hannexed.kept p (lt_of_get? hencloses.find) hencloses.away).trans hencloses.find
  contents := hencloses.contents
  names := hencloses.names
  entries := hencloses.entries
  distinct := hencloses.distinct
  depicted := hencloses.depicted.imp fun _ _ hentry => ⟨hentry.1, fun hne =>
    (hentry.2 hne).kept (hannexed.kept_off (List.mem_singleton_self focus)) (by simpa using hlater)⟩

end Encloses

namespace Around

/-- Those above stay as they are, whatever the member at work comes to be. -/
theorem annexed {later : Nat} (haround : h.Around focus n id name outer)
    (hannexed : h.Annexed h' focus) (hlater : later = focus ∨ h.members.length ≤ later) :
    h'.Around later n id name outer := by
  have hplace : ∀ {k parent}, (h.get? k).map Member.parent = some parent →
      (h'.get? k).map Member.parent = some parent := by
    intro k parent hparent
    by_cases hk : k = focus
    · subst hk
      exact hannexed.parent_eq.trans hparent
    · obtain ⟨member, hmember, -⟩ := Option.map_eq_some_iff.mp hparent
      rwa [hannexed.kept k (lt_of_get? hmember) hk]
  induction haround with
  | top hparent => exact .top (hplace hparent)
  | inside hparent hencloses _ ih =>
    exact .inside (hplace hparent) (hencloses.annexed hannexed hlater) ih

/-- A lookup goes the same way up. -/
theorem resolveFrom {α : Type} (hlinked : h.Linked) (haround : h.Around focus n id name outer)
    (hscope : h.Depicts n scope) (hid : scope.id = id) (hname : scope.name = name)
    (field : Contents → OrderedMap α) (path : Path) (seen : List String) :
    h.resolveFrom field path seen n = scope.resolveFrom field path seen outer := by
  induction haround generalizing scope seen with
  | top hparent =>
    obtain ⟨member, hn, hnone⟩ := Option.map_eq_some_iff.mp hparent
    rw [resolveFrom_of_get? hn, hscope.findBelow hlinked, hnone, ← hscope.id_eq hn]
    unfold Scope.resolveFrom
    split
    · rfl
    · cases scope.findBelow field path <;> rfl
  | @inside n p id name around further _ _ hparent hencloses _ ih =>
    obtain ⟨member, hn, hsome⟩ := Option.map_eq_some_iff.mp hparent
    have hup := ih (hencloses.depicts hscope hid hname) rfl rfl (scope.id :: seen)
    rw [resolveFrom_of_get? hn, hscope.findBelow hlinked, hsome, ← hscope.id_eq hn]
    unfold Scope.resolveFrom
    split
    · rfl
    · cases scope.findBelow field path with
      | some value => rfl
      | none => exact hup

theorem resolve {α : Type} (hlinked : h.Linked)
    (haround : h.Around focus n scope.id scope.name outer) (hscope : h.Depicts n scope)
    (field : Contents → OrderedMap α) (path : Path) :
    h.resolve field n path = scope.resolve field outer path :=
  haround.resolveFrom hlinked hscope rfl rfl field path []

end Around

section Enter

variable (contents : Contents)

/-- Inside a new child the scope around is the one that it came to. -/
theorem Around.enter (hlinked : h.Linked) (hscope : h.Depicts n scope)
    (haround : h.Around n n scope.id scope.name outer) :
    (h.add contents (some n)).Depicts h.members.length (.ofContents contents) ∧
      (h.add contents (some n)).Around h.members.length h.members.length contents.id contents.name
        (scope :: outer) := by
  obtain ⟨member, hn, hcontents, hnames, -⟩ := hscope.find
  have hlt := lt_of_get? hn
  obtain ⟨⟨lineage, hmade⟩, hplaced⟩ := get?_add_some contents hlt
  have hannexed := annexed_add contents hlt
  rw [hn, Option.map_some] at hplaced
  refine ⟨.intro hmade .nil, ?_⟩
  have hfurther := haround.annexed hannexed (Or.inr (Nat.le_refl h.members.length))
  have hparent : ((h.add contents (some n)).get? h.members.length).map Member.parent =
      some (some n) := by
    rw [hmade]
    rfl
  have hbelow : ∀ entry ∈ member.children.entries, ∀ way k,
      h.Descends entry.2 way k → k ∉ [n] := by
    intro entry hentry way k hway hk
    obtain rfl := List.mem_singleton.mp hk
    have hheld : h.Holds k entry.1 entry.2 := ⟨member, hn, hentry⟩
    cases hscope.way_nil (hway.from_child hheld)
  have hencloses : (h.add contents (some n)).Encloses h.members.length n h.members.length
      contents.id contents.name scope (member.place h.members.length contents.id contents.name)
      member.children.entries := {
    away := Nat.ne_of_lt hlt
    find := hplaced
    contents := hcontents
    names := by
      rw [hnames]
      rfl
    entries := rfl
    distinct := hlinked.distinct n member hn
    depicted := ((List.forall₂_and_left _ _).mpr ⟨hbelow, hscope.entries hlinked hn⟩).imp
      fun entry _ hboth => ⟨hboth.2.1, fun _ =>
        Clear.kept ⟨hboth.2.2, hboth.1⟩ (hannexed.kept_off (List.mem_singleton_self n)) (by simp)⟩ }
  exact .inside hparent hencloses hfurther

/-- Back in the scope around, it has the child. -/
theorem Around.leave (haround : h.Around k k scope.id scope.name (around :: outer))
    (hscope : h.Depicts k scope) (hparent : (h.get? k).map Member.parent = some (some n)) :
    h.Depicts n (around.attach scope) := by
  cases haround with
  | inside hparent' hencloses _ =>
    obtain rfl : n = _ := by simpa using hparent.symm.trans hparent'
    exact hencloses.depicts hscope rfl rfl

end Enter

section Relabeled

/-- The id of a member that nobody holds is its own affair. -/
theorem body_setId_top (htop : h.IsTop k) (id : String) (j : Nat) :
    ((h.setId k id).get? j).map Member.body =
      ((h.edit k ({ · with id := id })).get? j).map Member.body := by
  obtain ⟨member, hk, hnone⟩ := htop
  obtain ⟨noted, hafter, -⟩ := get?_setId hk id j
  rw [hafter, get?_edit, Option.map_map, Option.map_map]
  congr 1
  funext other
  by_cases hj : k = j <;> simp [hj, hnone, Member.body]

theorem setName_top (htop : h.IsTop k) (name : String) :
    h.setName k name = h.edit k ({ · with name := name }) := by
  obtain ⟨member, hk, hnone⟩ := htop
  simp [setName, hk, hnone]

theorem IsTop.edit (htop : h.IsTop k) (n : Nat) (f : Contents → Contents) :
    (h.edit n f).IsTop k := by
  obtain ⟨member, hk, hnone⟩ := htop
  have hafter := get?_edit f h n k
  rw [hk, Option.map_some] at hafter
  refine ⟨_, hafter, ?_⟩
  split <;> exact hnone

theorem IsTop.setId (htop : h.IsTop k) (id : String) : (h.setId k id).IsTop k := by
  obtain ⟨member, hk, hnone⟩ := htop
  obtain ⟨noted, hafter, -⟩ := get?_setId hk id k
  rw [hk, Option.map_some] at hafter
  exact ⟨_, hafter, hnone⟩

/-- A member that nobody holds comes to another one under a new id and a new name. -/
theorem Depicts.attach_labeled (hforest : h.Forest) (hscope : h.Depicts n scope)
    {package : Scope} (hchild : h.TopDepicts k package) (hne : n ≠ k) (id name : String)
    (hoff : ∀ way, ¬ ((h.setId k id).setName k name).Descends k way n) :
    (((h.setId k id).setName k name).attach n k).Depicts n (scope.attach
      (package.mapContents fun contents => { contents with id := id, name := name })) := by
  have hforest' := (hforest.setId k id).setName k name
  have hlabeled : (h.setId k id).IsTop k := hchild.top.setId id
  have haway : ∀ {acc : Hierarchy}, acc.Forest → acc.IsTop k → ∀ way, ¬ acc.Descends n way k :=
    fun hacc htop way hway => hne (hacc.linked.eq_of_descends_top htop hway)
  rw [setName_top hlabeled] at hforest' hoff ⊢
  refine Depicts.attach_top hforest'.linked ?_ ⟨?_, hlabeled.edit k _⟩ hoff
  · have hself : (h.setId k id).Depicts n scope :=
      (hscope.edit_elsewhere _ (haway hforest hchild.top)).congr fun _ j _ =>
        body_setId_top hchild.top id j
    exact hself.edit_elsewhere _ (haway (hforest.setId k id) hlabeled)
  · have hself : (h.setId k id).Depicts k (package.mapContents ({ · with id := id })) :=
      (hchild.depicts.edit _).congr fun _ j _ => body_setId_top hchild.top id j
    have hnamed := hself.edit ({ · with name := name })
    obtain ⟨contents, names, children⟩ := package
    exact hnamed

end Relabeled

end Hierarchy

end RecipeGraph.Graph
