import RecipeGraph.Proofs.Ancestry
import RecipeGraph.Proofs.Reach
import RecipeGraph.Proofs.Repetition

/-!
Members as pictures of scopes. A member with all that is below it depicts a scope when both hold
the same contents and the same names, and the children of the one depict the children of the other
in their order. Taking members in, merging and copying do to the members what they do to the scopes
that these depict, and paths lead to the same values.
-/
namespace RecipeGraph.Graph

/-- What is seen of a member when looking down from it. -/
def Member.body (member : Member) : Contents × OrderedMap Nat × OrderedMap String :=
  (member.contents, member.children, member.names)

namespace Hierarchy

/-- A member and those below it are as a scope and those in it. -/
inductive Depicts (h : Hierarchy) : Nat → Scope → Prop
  | intro {n : Nat} {member : Member} {children : List Scope} (hn : h.get? n = some member)
      (hchildren : List.Forall₂ (Depicts h) member.children.values children) :
      Depicts h n (.mk member.contents member.names children)

variable {h h' : Hierarchy} {n k p : Nat} {way : List Nat} {member : Member} {id : String}
  {scope other : Scope}

theorem Depicts.find (hscope : h.Depicts n scope) : ∃ member, h.get? n = some member ∧
    scope.contents = member.contents ∧ scope.names = member.names ∧
      List.Forall₂ h.Depicts member.children.values scope.children := by
  cases hscope with
  | intro hn hchildren => exact ⟨_, hn, rfl, rfl, hchildren⟩

theorem depicts_iff : h.Depicts n scope ↔ ∃ member, h.get? n = some member ∧
    scope.contents = member.contents ∧ scope.names = member.names ∧
      List.Forall₂ h.Depicts member.children.values scope.children := by
  refine ⟨Depicts.find, ?_⟩
  rintro ⟨member, hn, hcontents, hnames, hchildren⟩
  rw [← Scope.mk_eta scope, hcontents, hnames]
  exact .intro hn hchildren

theorem Depicts.of_member (hscope : h.Depicts n scope) (hn : h.get? n = some member) :
    scope.contents = member.contents ∧ scope.names = member.names ∧
      List.Forall₂ h.Depicts member.children.values scope.children := by
  obtain ⟨found, hfound, hrest⟩ := hscope.find
  rw [hn] at hfound
  cases hfound
  exact hrest

theorem Depicts.id_eq (hscope : h.Depicts n scope) (hn : h.get? n = some member) :
    scope.id = member.id :=
  congrArg Contents.id (hscope.of_member hn).1

theorem holds_of_mem_values (hn : h.get? n = some member) (hk : k ∈ member.children.values) :
    ∃ id, h.Holds n id k := by
  obtain ⟨id, hid⟩ := OrderedMap.mem_values.mp hk
  exact ⟨id, member, hn, hid⟩

/-- Each child depicts a child. -/
theorem Depicts.child (hscope : h.Depicts n scope) (hholds : h.Holds n id k) :
    ∃ child ∈ scope.children, h.Depicts k child := by
  obtain ⟨member, hn, hmem⟩ := hholds
  obtain ⟨-, -, hchildren⟩ := hscope.of_member hn
  have hk : k ∈ member.children.values := OrderedMap.mem_values.mpr ⟨id, hmem⟩
  obtain ⟨i, hi, rfl⟩ := List.getElem_of_mem hk
  have hlength := hchildren.length_eq
  exact ⟨scope.children[i], List.getElem_mem _, hchildren.get hi (hlength ▸ hi)⟩

/-- Two lists agree where their items are related to the same ones. -/
theorem forall₂_unique {α β : Type} {R S : α → β → Prop} {as : List α} {bs cs : List β}
    (hunique : ∀ a ∈ as, ∀ b ∈ bs, ∀ c, R a b → S a c → b = c)
    (hb : List.Forall₂ R as bs) (hc : List.Forall₂ S as cs) : bs = cs := by
  induction hb generalizing cs with
  | nil =>
    cases hc
    rfl
  | cons hfirst _ ih =>
    cases hc with
    | cons hfirst' hrest =>
      have hhead := hunique _ (List.mem_cons_self ..) _ (List.mem_cons_self ..) _ hfirst hfirst'
      have htail := ih (fun a ha b hb => hunique a (List.mem_cons_of_mem _ ha) b
        (List.mem_cons_of_mem _ hb)) hrest
      rw [hhead, htail]

/-- A member depicts one scope at most. -/
theorem Depicts.unique (hscope : h.Depicts n scope) (hother : h.Depicts n other) :
    scope = other := by
  induction scope using Scope.induction generalizing n other with
  | step contents names children ih =>
    obtain ⟨member, hn, rfl, rfl, hchildren⟩ := hscope.find
    obtain ⟨hcontents, hnames, hchildren'⟩ := hother.of_member hn
    have hsame : children = other.children :=
      forall₂_unique (fun k _ child hchild other (hk : h.Depicts k child)
        (hk' : h.Depicts k other) => ih child hchild hk hk') hchildren hchildren'
    rw [← Scope.mk_eta other, hcontents, hnames, hsame]

/-- What is below a member is in the scope. -/
theorem Depicts.within (hscope : h.Depicts n scope) (hway : h.Descends n way k) :
    ∃ part, h.Depicts k part ∧ (way = [] ∧ part = scope ∨ part ∈ scope.inner) := by
  induction hway with
  | here => exact ⟨scope, hscope, Or.inl ⟨rfl, rfl⟩⟩
  | down _ hholds ih =>
    obtain ⟨part, hpart, hin⟩ := ih
    obtain ⟨child, hchild, hdepicts⟩ := hpart.child hholds
    refine ⟨child, hdepicts, Or.inr ?_⟩
    rcases hin with ⟨-, rfl⟩ | hin
    · exact Scope.child_mem_inner hchild
    · obtain ⟨top, htop, hbelow⟩ := Scope.mem_inner.mp hin
      exact Scope.mem_inner.mpr ⟨top, htop,
        Scope.mem_all_trans (Scope.mem_all_of_child hchild (Scope.self_mem_all child)) hbelow⟩

/-- A member that depicts a scope is not below itself. -/
theorem Depicts.way_nil (hscope : h.Depicts n scope) (hway : h.Descends n way n) : way = [] := by
  obtain ⟨part, hpart, ⟨hnil, -⟩ | hin⟩ := hscope.within hway
  · exact hnil
  · have hlt := Scope.length_elements_lt hin
    rw [hpart.unique hscope] at hlt
    exact absurd hlt (Nat.lt_irrefl _)

/-- It is enough that what is below is the same. -/
theorem Depicts.congr (hscope : h.Depicts n scope)
    (hsame : ∀ way k, h.Descends n way k →
      (h'.get? k).map Member.body = (h.get? k).map Member.body) : h'.Depicts n scope := by
  induction scope using Scope.induction generalizing n with
  | step contents names children ih =>
    obtain ⟨member, hn, hcontents, hnames, hchildren⟩ := hscope.find
    have hself := hsame [] n .here
    rw [hn, Option.map_some] at hself
    obtain ⟨member', hn', hbody⟩ := Option.map_eq_some_iff.mp hself
    obtain ⟨hcontents', hbody⟩ := Prod.mk.inj hbody
    obtain ⟨hchildren', hnames'⟩ := Prod.mk.inj hbody
    refine depicts_iff.mpr ⟨member', hn', hcontents.trans hcontents'.symm,
      hnames.trans hnames'.symm, ?_⟩
    rw [hchildren']
    refine (List.forall₂_iff_get.mpr ⟨hchildren.length_eq, fun i hi hi' => ?_⟩)
    refine ih _ (List.getElem_mem _) (hchildren.get hi hi') fun way k hway => ?_
    obtain ⟨id, hholds⟩ := holds_of_mem_values hn (List.getElem_mem hi)
    exact hsame _ k (hway.from_child hholds)

/-- What leads into no circle depicts a scope. -/
theorem exists_depicts (hlinked : h.Linked) (hfree : h.CircleFree n)
    (hn : n < h.members.length) : ∃ scope, h.Depicts n scope := by
  -- by induction on how far down it goes at most
  suffices hdeep : ∀ depth n, n < h.members.length →
      (∀ way k, h.Descends n way k → way.length < depth) → ∃ scope, h.Depicts n scope from
    hdeep h.members.length n hn fun way k hway => hfree.length_lt hlinked hn hway
  intro depth
  induction depth with
  | zero =>
    intro n _ hshort
    exact absurd (hshort [] n .here) (Nat.lt_irrefl 0)
  | succ depth ih =>
    intro n hn hshort
    obtain ⟨member, hmember⟩ := exists_get? hn
    have hchildren : ∀ k ∈ member.children.values, ∃ child, h.Depicts k child := by
      intro k hk
      obtain ⟨id, hholds⟩ := holds_of_mem_values hmember hk
      obtain ⟨child, hchild, -⟩ := hlinked.held n id k hholds
      refine ih k (lt_of_get? hchild) fun way m hway => ?_
      have hlonger := hshort _ m (hway.from_child hholds)
      simpa using hlonger
    have hall : ∃ children, List.Forall₂ h.Depicts member.children.values children := by
      generalize member.children.values = ks at hchildren
      induction ks with
      | nil => exact ⟨[], .nil⟩
      | cons k ks ihRest =>
        obtain ⟨hfirst, hrest⟩ := List.forall_mem_cons.mp hchildren
        obtain ⟨child, hchild⟩ := hfirst
        obtain ⟨children, hrest⟩ := ihRest hrest
        exact ⟨child :: children, .cons hchild hrest⟩
    obtain ⟨children, hall⟩ := hall
    exact ⟨_, .intro hmember hall⟩

section Entries

variable {α β : Type} {R : α → β → Prop} {as : List (String × α)} {bs : List (String × β)}
  {key : String} {a : α} {b : β}

/-- Entries of one name of which the one stands for the other. -/
def Entrywise (R : α → β → Prop) (first : String × α) (second : String × β) : Prop :=
  first.1 = second.1 ∧ R first.2 second.2

theorem forall₂_write (h : List.Forall₂ (Entrywise R) as bs) (hnew : R a b) :
    List.Forall₂ (Entrywise R) (OrderedMap.write key a as) (OrderedMap.write key b bs) := by
  induction h with
  | nil => exact .cons ⟨rfl, hnew⟩ .nil
  | @cons first second as bs hfirst hrest ih =>
    obtain ⟨k, x⟩ := first
    obtain ⟨k', y⟩ := second
    obtain rfl : k = k' := hfirst.1
    by_cases hk : k = key
    · simpa [OrderedMap.write, hk] using ⟨⟨rfl, hnew⟩, hrest⟩
    · simpa [OrderedMap.write, hk] using ⟨hfirst, ih⟩

theorem forall₂_writeAll {cs : List (String × α)} {ds : List (String × β)}
    (hadded : List.Forall₂ (Entrywise R) cs ds) (h : List.Forall₂ (Entrywise R) as bs) :
    List.Forall₂ (Entrywise R) (OrderedMap.writeAll cs as) (OrderedMap.writeAll ds bs) := by
  induction hadded generalizing as bs with
  | nil => exact h
  | @cons first second cs ds hfirst _ ih =>
    obtain ⟨k, x⟩ := first
    obtain ⟨k', y⟩ := second
    obtain rfl : k = k' := hfirst.1
    exact ih (forall₂_write h hfirst.2)

theorem forall₂_values (h : List.Forall₂ (Entrywise R) as bs) :
    List.Forall₂ R (as.map Prod.snd) (bs.map Prod.snd) := by
  induction h with
  | nil => exact .nil
  | cons hfirst _ ih => exact .cons hfirst.2 ih

end Entries

section Lookup

/-- The children of a member and those of the scope have the same ids. -/
theorem Depicts.entries (hlinked : h.Linked) (hscope : h.Depicts n scope)
    (hn : h.get? n = some member) :
    List.Forall₂ (Entrywise h.Depicts) member.children.entries (Scope.filed scope.children) := by
  obtain ⟨-, -, hchildren⟩ := hscope.of_member hn
  have hids : ∀ entry ∈ member.children.entries, ∀ child, h.Depicts entry.2 child →
      entry.1 = child.id := by
    intro entry hentry child hchild
    obtain ⟨found, hfound, hid, -⟩ := hlinked.held n _ _ ⟨member, hn, hentry⟩
    exact hid.symm.trans (hchild.id_eq hfound).symm
  unfold OrderedMap.values at hchildren
  unfold Scope.filed Contents.keyed
  rw [List.forall₂_map_left_iff] at hchildren
  rw [List.forall₂_map_right_iff]
  generalize member.children.entries = entries, scope.children = children at hids hchildren ⊢
  induction hchildren with
  | nil => exact .nil
  | cons hfirst _ ih =>
    obtain ⟨hid, hrest⟩ := List.forall_mem_cons.mp hids
    exact .cons ⟨hid _ hfirst, hfirst⟩ (ih hrest)

/-- Under an id both have a child or neither has one. -/
theorem Depicts.child? (hlinked : h.Linked) (hscope : h.Depicts n scope)
    (hn : h.get? n = some member) (id : String) :
    Option.Rel h.Depicts (member.children.get? id) (scope.child? id) := by
  have hentries := hscope.entries hlinked hn
  unfold OrderedMap.get? Scope.child?
  unfold Scope.filed Contents.keyed at hentries
  rw [List.forall₂_map_right_iff] at hentries
  generalize member.children.entries = entries, scope.children = children at hentries ⊢
  induction hentries with
  | nil => exact .none
  | @cons entry child _ _ hfirst _ ih =>
    obtain ⟨key, k⟩ := entry
    obtain rfl : key = child.id := hfirst.1
    by_cases hid : child.id = id
    · simpa [OrderedMap.lookup, hid] using Option.Rel.some hfirst.2
    · simpa [OrderedMap.lookup, hid] using ih

theorem resolveFrom_of_none {α : Type} (hn : h.get? n = none) (field : Contents → OrderedMap α)
    (path : Path) (seen : List String) : h.resolveFrom field path seen n = none := by
  rw [resolveFrom]
  split
  · rfl
  · rename_i member hmember
    cases hn.symm.trans hmember

theorem resolveFrom_of_get? {α : Type} {member : Member} (hn : h.get? n = some member)
    (field : Contents → OrderedMap α) (path : Path) (seen : List String) :
    h.resolveFrom field path seen n =
      if member.id ∈ seen then none
      else (h.findBelow field path n).or
        (member.parent.bind (h.resolveFrom field path (member.id :: seen))) := by
  rw [resolveFrom]
  split
  · rename_i hnone
    cases hn.symm.trans hnone
  · rename_i found hfound
    obtain rfl : member = found := Option.some.inj (hn.symm.trans hfound)
    by_cases hseen : member.id ∈ seen
    · simp [hseen]
    · cases h.findBelow field path n <;> cases member.parent <;> simp [hseen]

/-- Downwards a path leads to the same value. -/
theorem Depicts.findBelow {α : Type} (hlinked : h.Linked) (hscope : h.Depicts n scope)
    (field : Contents → OrderedMap α) (path : Path) :
    h.findBelow field path n = scope.findBelow field path := by
  induction path generalizing n scope with
  | nil => rfl
  | cons name rest ih =>
    obtain ⟨member, hn, hcontents, hnames, -⟩ := hscope.find
    cases rest with
    | nil => simp [Hierarchy.findBelow, Scope.findBelow, hn, hcontents]
    | cons next rest =>
      simp only [Hierarchy.findBelow, Scope.findBelow, hn, Option.bind_some, hnames]
      cases member.names.get? name with
      | none => rfl
      | some id =>
        simp only [Option.bind_some]
        have hfound := hscope.child? hlinked hn id
        generalize member.children.get? id = k, scope.child? id = child at hfound ⊢
        cases hfound with
        | none => rfl
        | some hchild => exact ih hchild

end Lookup

section Attach

variable {origin : Option Nat} {ks : List Nat} {added : List Scope}

/-- Members that are as the scopes have their ids. -/
theorem filed_of_depicts (hadded : List.Forall₂ h.Depicts ks added) :
    List.Forall₂ (Entrywise h.Depicts) (h.filed ks) (Scope.filed added) := by
  induction hadded with
  | nil => exact .nil
  | @cons k child ks added hfirst _ ih =>
    obtain ⟨member, hk, -⟩ := hfirst.find
    have hentry : h.filed (k :: ks) = (member.id, k) :: h.filed ks := by
      simp [filed, hk]
    rw [hentry]
    exact .cons ⟨(hfirst.id_eq hk).symm, hfirst⟩ ih

theorem borne_of_depicts (hadded : List.Forall₂ h.Depicts ks added) :
    h.borne ks = Scope.borne added := by
  induction hadded with
  | nil => rfl
  | @cons k child ks added hfirst _ ih =>
    obtain ⟨member, hk, hcontents, -⟩ := hfirst.find
    have hname : child.name = member.name := congrArg Contents.name hcontents
    have hid : child.id = member.id := congrArg Contents.id hcontents
    unfold Scope.borne at ih ⊢
    unfold borne at ih ⊢
    by_cases hbare : member.name = ""
    · simp [hk, hbare, hname, ih]
    · simp [hk, hbare, hname, hid, ih]

/-- Members that come to a member do what scopes do that come to the scope. -/
theorem Depicts.attachAll (hlinked : h.Linked) (hcoming : h.Coming n origin ks)
    (hscope : h.Depicts n scope) (hadded : List.Forall₂ h.Depicts ks added)
    (hoff : ∀ q, origin = some q → (∀ way, ¬ h.Descends n way q) ∧
      ∀ k ∈ ks, ∀ way, ¬ h.Descends k way q) :
    (ks.foldl (fun acc k => acc.attach n k) h).Depicts n (added.foldl Scope.attach scope) := by
  have hkept : ∀ k child, h.Depicts k child → (∀ way, ¬ h.Descends k way n) →
      (∀ q, origin = some q → ∀ way, ¬ h.Descends k way q) →
        (ks.foldl (fun acc k => acc.attach n k) h).Depicts k child := by
    intro k child hchild hn horigin
    refine hchild.congr fun way j hway => ?_
    have hnj : n ≠ j := by
      rintro rfl
      exact hn way hway
    obtain ⟨noted, hget, -⟩ :=
      hcoming.get?_aside hnj fun heq => horigin j heq way hway
    rw [hget, Option.map_map]
    rfl
  obtain ⟨member, hn, hcontents, hnames, hchildren⟩ := hscope.find
  have htarget := hcoming.get?_target
  rw [hn, Option.map_some] at htarget
  generalize ks.foldl (fun acc k => acc.attach n k) h = after at hkept htarget ⊢
  refine depicts_iff.mpr ⟨_, htarget, ?_, ?_, ?_⟩
  · rw [Scope.contents_foldl_attach]
    exact hcontents
  · have hentries : (added.foldl Scope.attach scope).names.entries =
        (h.joined ks member).names.entries := by
      rw [Scope.names_attachAll, hnames, ← borne_of_depicts hadded]
      rfl
    exact congrArg OrderedMap.mk hentries
  · have hfree : ∀ entry ∈ member.children.entries, (∀ way, ¬ h.Descends entry.2 way n) ∧
        ∀ q, origin = some q → ∀ way, ¬ h.Descends entry.2 way q := by
      intro entry hentry
      have hholds : h.Holds n entry.1 entry.2 := ⟨member, hn, hentry⟩
      refine ⟨fun way hway => ?_, fun q hq way hway => ?_⟩
      · cases hscope.way_nil (hway.from_child hholds)
      · exact (hoff q hq).1 _ (hway.from_child hholds)
    have hfree' : ∀ entry ∈ h.filed ks, (∀ way, ¬ h.Descends entry.2 way n) ∧
        ∀ q, origin = some q → ∀ way, ¬ h.Descends entry.2 way q := by
      intro entry hentry
      obtain ⟨k, hk, hmem⟩ := List.mem_filterMap.mp hentry
      obtain ⟨found, -, rfl⟩ := Option.map_eq_some_iff.mp hmem
      exact ⟨hcoming.target k hk, fun q hq => (hoff q hq).2 k hk⟩
    have hold := ((List.forall₂_and_left _ _).mpr ⟨hfree, hscope.entries hlinked hn⟩).imp
      fun entry _ hboth => (⟨hboth.2.1, hkept _ _ hboth.2.2 hboth.1.1 hboth.1.2⟩ :
        Entrywise after.Depicts entry _)
    have hnew := ((List.forall₂_and_left _ _).mpr ⟨hfree', filed_of_depicts hadded⟩).imp
      fun entry _ hboth => (⟨hboth.2.1, hkept _ _ hboth.2.2 hboth.1.1 hboth.1.2⟩ :
        Entrywise after.Depicts entry _)
    have hall := forall₂_values (forall₂_writeAll hnew hold)
    rw [← Scope.filed_attachAll] at hall
    simpa [Scope.filed, Contents.keyed, joined, OrderedMap.values] using hall

end Attach

end Hierarchy

end RecipeGraph.Graph
