import RecipeGraph.Graph.Records
import RecipeGraph.Proofs.Duplicates
import RecipeGraph.Proofs.RegularScopes

/-!
What members hold by themselves. Moving members about changes nothing in it, a new id and a new name
change the id and the name alone, and merging puts in what the other one holds. In what has been put
in entry by entry, every element stands under its own id and no key comes twice.
-/
namespace RecipeGraph.Graph

open OrderedMap

theorem Item.id_put (entry : Item) (contents : Contents) :
    (entry.put contents).id = contents.id := by
  cases entry with
  | package location => exact contents.addPackage_id location
  | _ => rfl

theorem Item.name_put (entry : Item) (contents : Contents) :
    (entry.put contents).name = contents.name := by
  cases entry with
  | package location =>
    change (contents.addPackage location).name = contents.name
    unfold Contents.addPackage
    split <;> rfl
  | _ => rfl

section Shelved

theorem distinct_merge {α : Type} {m other : OrderedMap α} (h : m.Distinct) :
    (m.merge other).Distinct := by
  unfold OrderedMap.merge
  generalize other.entries = added
  induction added generalizing m with
  | nil => exact h
  | cons first rest ih => exact ih (h.insert _ _)

namespace Contents

variable {contents other : Contents}

theorem Shelved.put (h : contents.Shelved) (entry : Item) : (entry.put contents).Shelved := by
  cases entry with
  | vertex vertex => exact h.addVertex vertex
  | edge edge => exact h.addEdge edge
  | value name id => exact h.bindVariable name id
  | valueLook name look => exact h.setVariableLook name look
  | style name properties => exact h.setStyle name properties
  | binding keyword tags => exact h.bindStyle keyword tags
  | package location =>
    unfold Item.put addPackage
    dsimp only
    split
    · exact h
    · exact { h with }
  | look look => exact { h with }

theorem Shelved.merge (h : contents.Shelved) (hother : other.Shelved) :
    (contents.merge other).Shelved := by
  rw [hother.merge_eq]
  refine ⟨?_, ?_, distinct_merge h.distinctVertices, distinct_merge h.distinctEdges,
    distinct_merge h.distinctIds, distinct_merge h.distinctLooks,
    distinct_merge h.distinctStyles, distinct_merge h.distinctBindings⟩
  · intro entry hentry
    dsimp only at hentry
    rw [entries_merge] at hentry
    exact (mem_writeAll hentry).elim (hother.vertices entry) (h.vertices entry)
  · intro entry hentry
    dsimp only at hentry
    rw [entries_merge] at hentry
    exact (mem_writeAll hentry).elim (hother.edges entry) (h.edges entry)

end Contents

end Shelved

namespace Hierarchy

variable {h h' : Hierarchy} {n k p : Nat} {member : Member} {P : Contents → Prop}

/-- The contents of a member. -/
def contentsAt (h : Hierarchy) (n : Nat) : Option Contents :=
  (h.get? n).map Member.contents

section Contents

theorem contentsAt_refresh (h : Hierarchy) (n k : Nat) :
    (h.refresh n).contentsAt k = h.contentsAt k := by
  obtain ⟨noted, hget, -⟩ := get?_refresh_noted h n k
  unfold contentsAt
  rw [hget, Option.map_map]
  rfl

@[simp] theorem contentsAt_attach (h : Hierarchy) (p n k : Nat) :
    (h.attach p n).contentsAt k = h.contentsAt k := by
  cases hn : h.get? n with
  | none => simp [Hierarchy.attach, hn]
  | some member =>
    obtain ⟨noted, hget, -⟩ := get?_attach hn p k
    unfold contentsAt
    rw [hget, Option.map_map]
    rfl

@[simp] theorem contentsAt_release (h : Hierarchy) (n k : Nat) :
    (h.setParent n none).contentsAt k = h.contentsAt k := by
  cases hn : h.get? n with
  | none => simp [Hierarchy.setParent, hn]
  | some member =>
    obtain ⟨noted, hget, -⟩ := get?_release hn k
    unfold contentsAt
    rw [hget, Option.map_map]
    rfl

@[simp] theorem contentsAt_move (h : Hierarchy) (n k : Nat) (parent : Option Nat) :
    (h.move n parent).contentsAt k = h.contentsAt k := by
  cases parent with
  | none => exact contentsAt_release h n k
  | some parent => exact contentsAt_attach h parent n k

theorem contentsAt_edit (h : Hierarchy) (n k : Nat) (f : Contents → Contents) :
    (h.edit n f).contentsAt k =
      (h.contentsAt k).map fun contents => if n = k then f contents else contents := by
  unfold contentsAt
  rw [get?_edit, Option.map_map, Option.map_map]
  congr 1
  funext member
  by_cases hk : n = k <;> simp [hk]

theorem contentsAt_setId (h : Hierarchy) (n k : Nat) (id : String) :
    (h.setId n id).contentsAt k = (h.contentsAt k).map fun contents =>
      if n = k then { contents with id := id } else contents := by
  cases hn : h.get? n with
  | none =>
    have hself : h.setId n id = h := by simp [Hierarchy.setId, hn]
    rw [hself]
    by_cases hk : n = k
    · subst hk
      simp [contentsAt, hn]
    · simp [hk]
  | some member =>
    obtain ⟨noted, hget, -⟩ := get?_setId hn id k
    unfold contentsAt
    rw [hget, Option.map_map, Option.map_map]
    rfl

theorem contentsAt_setName (h : Hierarchy) (n k : Nat) (name : String) :
    (h.setName n name).contentsAt k = (h.contentsAt k).map fun contents =>
      if n = k then { contents with name := name } else contents := by
  rw [← contentsAt_edit h n k ({ · with name := name })]
  unfold setName
  cases hn : h.get? n with
  | none =>
    rw [contentsAt_edit]
    by_cases hk : n = k
    · subst hk
      simp [contentsAt, hn]
    · simp [hk]
  | some member =>
    dsimp only
    cases member.parent with
    | none => rfl
    | some parent =>
      dsimp only
      unfold contentsAt
      rw [get?_update, Option.map_map]
      congr 1
      funext other
      by_cases hk : parent = k <;> simp [hk]

theorem contentsAt_attachAll (h : Hierarchy) (n k : Nat) (ks : List Nat) :
    (ks.foldl (fun acc child => acc.attach n child) h).contentsAt k = h.contentsAt k := by
  induction ks generalizing h with
  | nil => rfl
  | cons child rest ih => exact (ih _).trans (contentsAt_attach h n child k)

theorem contentsAt_merge {given : Member} (hp : h.get? p = some given) (n k : Nat) :
    (h.merge n p).contentsAt k = (h.contentsAt k).map fun contents =>
      if n = k then contents.merge given.contents else contents := by
  rw [merge_eq hp, contentsAt_attachAll, contentsAt_edit]

end Contents

section Every

/-- All that is held is of one kind. -/
def Every (P : Contents → Prop) (h : Hierarchy) : Prop :=
  ∀ n contents, h.contentsAt n = some contents → P contents

variable (hevery : h.Every P)

include hevery

theorem Every.of_same (hsame : ∀ k, h'.contentsAt k = h.contentsAt k) : h'.Every P :=
  fun k contents hk => hevery k contents ((hsame k).symm.trans hk)

theorem Every.of_changed {f : Contents → Contents} (hf : ∀ contents, P contents → P (f contents))
    (hget : ∀ k, h'.contentsAt k =
      (h.contentsAt k).map fun contents => if n = k then f contents else contents) :
    h'.Every P := by
  intro k contents hk
  rw [hget] at hk
  obtain ⟨before, hbefore, rfl⟩ := Option.map_eq_some_iff.mp hk
  split
  · exact hf _ (hevery k before hbefore)
  · exact hevery k before hbefore

theorem Every.add {contents : Contents} (hnew : P contents) (parent : Option Nat) :
    (h.add contents parent).Every P := by
  have halone : (h.enlarged contents).Every P := by
    intro k found hk
    unfold contentsAt at hk
    rw [get?_enlarged] at hk
    split at hk
    · cases hk
      exact hnew
    · exact hevery k found hk
  cases parent with
  | none => exact halone.of_same (contentsAt_refresh _ _)
  | some parent => exact halone.of_same (contentsAt_attach _ _ _)

theorem Every.merge (hmerge : ∀ contents other, P contents → P other → P (contents.merge other))
    (n p : Nat) : (h.merge n p).Every P := by
  cases hp : h.get? p with
  | none => simpa [Hierarchy.merge, hp] using hevery
  | some given =>
    have hgiven : P given.contents := hevery p _ (by simp [contentsAt, hp])
    exact hevery.of_changed (fun contents hcontents => hmerge contents _ hcontents hgiven)
      (contentsAt_merge hp n)

theorem Every.copyWithin (fuel n : Nat) : (copyWithin fuel h n).Every P := by
  induction fuel generalizing h n with
  | zero => exact hevery
  | succ fuel ih =>
    unfold Hierarchy.copyWithin
    cases hn : h.get? n with
    | none => exact hevery
    | some member =>
      have hmade := hevery.add (hevery n member.contents (by simp [contentsAt, hn])) none
      dsimp only
      generalize h.add member.contents none = made at hmade ⊢
      induction member.children.values generalizing made with
      | nil => exact hmade
      | cons child rest ihRest =>
        exact ihRest _ ((ih hmade child).of_same (contentsAt_attach _ _ _))

end Every

/-- The hierarchies that come of making members, putting entries into them, and moving, merging and
copying them. -/
inductive Reached : Hierarchy → Prop
  | start : Reached {}
  | add {h : Hierarchy} (hreached : Reached h) (id name : String) (look : Look)
      (parent : Option Nat) : Reached (h.add { id := id, name := name, look := look } parent)
  | put {h : Hierarchy} (hreached : Reached h) (n : Nat) (entry : Item) :
      Reached (h.edit n entry.put)
  | setId {h : Hierarchy} (hreached : Reached h) (n : Nat) (id : String) : Reached (h.setId n id)
  | setName {h : Hierarchy} (hreached : Reached h) (n : Nat) (name : String) :
      Reached (h.setName n name)
  | move {h : Hierarchy} (hreached : Reached h) (n : Nat) (parent : Option Nat) :
      Reached (h.move n parent)
  | attach {h : Hierarchy} (hreached : Reached h) (parent n : Nat) : Reached (h.attach parent n)
  | merge {h : Hierarchy} (hreached : Reached h) (n other : Nat) : Reached (h.merge n other)
  | copy {h : Hierarchy} (hreached : Reached h) (n : Nat) (hfree : h.CircleFree n) :
      Reached (h.copy n)

theorem Reached.forest (hreached : Reached h) : h.Forest := by
  induction hreached with
  | start => exact forest_start
  | add _ id name look parent ih => exact ih.add _ parent
  | put _ n entry ih => exact ih.edit n (Item.id_put entry)
  | setId _ n id ih => exact ih.setId n id
  | setName _ n name ih => exact ih.setName n name
  | move _ n parent ih => exact ih.move n parent
  | attach _ parent n ih => exact ih.attach parent n
  | merge _ n other ih => exact ih.merge n other
  | copy _ n _ ih => exact ih.copyWithin _ n

theorem Reached.shelved (hreached : Reached h) : h.Every Contents.Shelved := by
  induction hreached with
  | start =>
    intro n contents hn
    simp [contentsAt, get?] at hn
  | add _ id name look parent ih => exact ih.add (Contents.shelved_new id name look) parent
  | put _ n entry ih =>
    exact ih.of_changed (fun _ hcontents => hcontents.put entry) fun k => contentsAt_edit _ n k _
  | setId _ n id ih =>
    exact ih.of_changed (f := ({ · with id := id })) (fun _ hcontents => { hcontents with })
      fun k => contentsAt_setId _ n k id
  | setName _ n name ih =>
    exact ih.of_changed (f := ({ · with name := name })) (fun _ hcontents => { hcontents with })
      fun k => contentsAt_setName _ n k name
  | move _ n parent ih => exact ih.of_same fun k => contentsAt_move _ n k parent
  | attach _ parent n ih => exact ih.of_same (contentsAt_attach _ parent n)
  | merge _ n other ih => exact ih.merge (fun _ _ hcontents hother => hcontents.merge hother) n other
  | copy _ n _ ih => exact ih.copyWithin _ n

end Hierarchy

end RecipeGraph.Graph
