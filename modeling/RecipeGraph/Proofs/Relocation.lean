import RecipeGraph.Graph.Records
import RecipeGraph.Proofs.Maps
import Mathlib.Data.List.ReduceOption
import Mathlib.Logic.Relation

/-!
Records that are alike. What is read in a record depends on the records that it leads to, and not on
their numbers: where these are the same under other numbers, the same is read. A copy leads to copies
alone, each of which is like the record that it was made of.
-/
namespace RecipeGraph.Graph

open OrderedMap

namespace Record

theorem parts_relocate (f : Nat → Nat) (record : Record) :
    (record.relocate f).parts = record.parts.map f := by
  cases record with
  | table entries => simp [relocate, parts, OrderedMap.map, OrderedMap.values]
  | looks entries =>
    simp only [relocate, parts, OrderedMap.map, OrderedMap.values, ← List.reduceOption_map,
      List.map_map]
    rfl
  | _ => rfl

theorem kind_relocate (f : Nat → Nat) (record : Record) : (record.relocate f).kind = record.kind := by
  cases record <;> rfl

theorem relocate_relocate (f g : Nat → Nat) (record : Record) :
    (record.relocate f).relocate g = record.relocate (g ∘ f) := by
  cases record <;> simp [relocate, OrderedMap.map, Function.comp_def]

theorem relocate_of_kept {f : Nat → Nat} {record : Record}
    (hkept : ∀ k ∈ record.parts, f k = k) : record.relocate f = record := by
  cases record with
  | table entries =>
    have hentries : entries.entries.map (fun entry => (entry.1, f entry.2)) = entries.entries := by
      refine (List.map_congr_left fun entry hentry => ?_).trans (List.map_id _)
      have hk : entry.2 ∈ entries.values := OrderedMap.mem_values.mpr ⟨entry.1, hentry⟩
      simp [hkept entry.2 hk]
    simp [relocate, OrderedMap.map, hentries]
  | looks entries =>
    have hentries : entries.entries.map (fun entry => (entry.1, entry.2.map f)) =
        entries.entries := by
      refine (List.map_congr_left fun entry hentry => ?_).trans (List.map_id _)
      have hk : ∀ k ∈ entry.2, f k = k := fun k hk => hkept k
        (List.reduceOption_mem_iff.mpr (OrderedMap.mem_values.mpr ⟨entry.1, hk ▸ hentry⟩))
      obtain ⟨key, r⟩ := entry
      cases r with
      | none => rfl
      | some k => simp [hk k rfl]
    simp [relocate, OrderedMap.map, hentries]
  | _ => simp_all [relocate, parts]

end Record

namespace Store

variable {s s' s'' : Store} {r r' r'' k : Nat} {f : Nat → Nat}

/-- A record leads to those that it holds, and to those that these lead to. -/
def Leads (s : Store) : Nat → Nat → Prop :=
  Relation.ReflTransGen fun r k => k ∈ (s.recordAt r).parts

/-- The records that `r` leads to are there, under numbers that `f` gives. -/
def Moved (s : Store) (r : Nat) (f : Nat → Nat) (s' : Store) : Prop :=
  ∀ k, s.Leads r k → s'.recordAt (f k) = (s.recordAt k).relocate f

/-- The one record leads to the same as the other. -/
def Alike (s : Store) (r : Nat) (s' : Store) (r' : Nat) : Prop :=
  ∃ f : Nat → Nat, f r = r' ∧ s.Moved r f s'

section Alike

theorem Moved.part (h : s.Moved r f s') (hk : k ∈ (s.recordAt r).parts) : s.Moved k f s' :=
  fun j hj => h j (Relation.ReflTransGen.head hk hj)

theorem Moved.self (h : s.Moved r f s') : s'.recordAt (f r) = (s.recordAt r).relocate f :=
  h r .refl

theorem Moved.leads (h : s.Moved r f s') (hk : s.Leads r k) : s'.Leads (f r) (f k) := by
  induction hk with
  | refl => exact .refl
  | @tail j k hj hk ih =>
    refine ih.tail ?_
    rw [h j hj, Record.parts_relocate]
    exact List.mem_map_of_mem hk

/-- A way on the other side is the picture of a way. -/
theorem Alike.trans (h : s.Alike r s' r') (h' : s'.Alike r' s'' r'') : s.Alike r s'' r'' := by
  obtain ⟨f, rfl, hf⟩ := h
  obtain ⟨g, rfl, hg⟩ := h'
  refine ⟨g ∘ f, rfl, fun k hk => ?_⟩
  rw [Function.comp_apply, hg (f k) (hf.leads hk), hf k hk, Record.relocate_relocate]

/-- Records that lead to records that have not changed. -/
theorem alike_of_kept (h : ∀ k, s.Leads r k → s'.recordAt k = s.recordAt k) : s.Alike r s' r := by
  refine ⟨id, rfl, fun k hk => (h k hk).trans ?_⟩
  exact (Record.relocate_of_kept fun _ _ => rfl).symm

theorem Alike.kind (h : s.Alike r s' r') : (s'.recordAt r').kind = (s.recordAt r).kind := by
  obtain ⟨f, rfl, hf⟩ := h
  rw [hf.self, Record.kind_relocate]

theorem Alike.tagsAt (h : s.Alike r s' r') : s'.tagsAt r' = s.tagsAt r := by
  obtain ⟨f, rfl, hf⟩ := h
  unfold Store.tagsAt
  rw [hf.self]
  cases s.recordAt r <;> rfl

theorem Alike.textsAt (h : s.Alike r s' r') : s'.textsAt r' = s.textsAt r := by
  obtain ⟨f, rfl, hf⟩ := h
  unfold Store.textsAt
  rw [hf.self]
  cases s.recordAt r <;> rfl

theorem Alike.locationsAt (h : s.Alike r s' r') : s'.locationsAt r' = s.locationsAt r := by
  obtain ⟨f, rfl, hf⟩ := h
  unfold Store.locationsAt
  rw [hf.self]
  cases s.recordAt r <;> rfl

/-- The tags and the properties of an element. -/
theorem Moved.looking {listed mapped : Nat} (h : s.Moved r f s')
    (hparts : (s.recordAt r).parts = [listed, mapped]) :
    s'.tagsAt (f listed) = s.tagsAt listed ∧ s'.textsAt (f mapped) = s.textsAt mapped :=
  ⟨Alike.tagsAt ⟨f, rfl, h.part (by simp [hparts])⟩,
    Alike.textsAt ⟨f, rfl, h.part (by simp [hparts])⟩⟩

theorem Alike.lookAt (h : s.Alike r s' r') : s'.lookAt r' = s.lookAt r := by
  obtain ⟨f, rfl, hf⟩ := h
  unfold Store.lookAt
  rw [hf.self]
  cases hr : s.recordAt r with
  | look listed mapped =>
    obtain ⟨htags, htexts⟩ := hf.looking (by rw [hr]; rfl)
    simp [Record.relocate, htags, htexts]
  | _ => rfl

theorem Alike.vertexAt (h : s.Alike r s' r') : s'.vertexAt r' = s.vertexAt r := by
  obtain ⟨f, rfl, hf⟩ := h
  unfold Store.vertexAt
  rw [hf.self]
  cases hr : s.recordAt r with
  | vertex id name listed mapped =>
    obtain ⟨htags, htexts⟩ := hf.looking (by rw [hr]; rfl)
    simp [Record.relocate, htags, htexts]
  | _ => rfl

theorem Alike.edgeAt (h : s.Alike r s' r') : s'.edgeAt r' = s.edgeAt r := by
  obtain ⟨f, rfl, hf⟩ := h
  unfold Store.edgeAt
  rw [hf.self]
  cases hr : s.recordAt r with
  | edge id name source target listed mapped =>
    obtain ⟨htags, htexts⟩ := hf.looking (by rw [hr]; rfl)
    simp [Record.relocate, htags, htexts]
  | _ => rfl

/-- Tables are read entry by entry. -/
theorem Moved.tableAt {α : Type} {see see' : Nat → α} (h : s.Moved r f s')
    (hsee : ∀ k, s.Moved k f s' → see' (f k) = see k) :
    (s'.tableAt (f r)).map see' = (s.tableAt r).map see := by
  unfold Store.tableAt
  rw [h.self]
  cases hr : s.recordAt r with
  | table entries =>
    have hentries : ∀ entry ∈ entries.entries, see' (f entry.2) = see entry.2 := by
      intro entry hentry
      refine hsee entry.2 (h.part ?_)
      rw [hr]
      exact OrderedMap.mem_values.mpr ⟨entry.1, hentry⟩
    simp only [Record.relocate, OrderedMap.map, List.map_map]
    exact congrArg OrderedMap.mk
      (List.map_congr_left fun entry hentry => by simp [hentries entry hentry])
  | _ => rfl

theorem Moved.looksAt {α : Type} {see see' : Nat → α} (h : s.Moved r f s')
    (hsee : ∀ k, s.Moved k f s' → see' (f k) = see k) :
    (s'.looksAt (f r)).map (Option.map see') = (s.looksAt r).map (Option.map see) := by
  unfold Store.looksAt
  rw [h.self]
  cases hr : s.recordAt r with
  | looks entries =>
    have hentries : ∀ entry ∈ entries.entries,
        (entry.2.map f).map see' = entry.2.map see := by
      rintro ⟨key, part⟩ hentry
      cases part with
      | none => rfl
      | some k =>
        have hk : k ∈ (s.recordAt r).parts := by
          rw [hr]
          exact List.reduceOption_mem_iff.mpr (OrderedMap.mem_values.mpr ⟨key, hentry⟩)
        simp [hsee k (h.part hk)]
    simp only [Record.relocate, OrderedMap.map, List.map_map]
    exact congrArg OrderedMap.mk
      (List.map_congr_left fun entry hentry => by simpa using hentries entry hentry)
  | _ => rfl

/-- In tables that are alike the same is read. -/
theorem Alike.read (h : s.Alike r s' r') (slot : Slot) : s'.read r' slot = s.read r slot := by
  cases slot with
  | variableIds => exact h.textsAt
  | packages => exact h.locationsAt
  | vertices =>
    obtain ⟨f, rfl, hf⟩ := h
    exact hf.tableAt fun k hk => Alike.vertexAt ⟨f, rfl, hk⟩
  | edges =>
    obtain ⟨f, rfl, hf⟩ := h
    exact hf.tableAt fun k hk => Alike.edgeAt ⟨f, rfl, hk⟩
  | styles =>
    obtain ⟨f, rfl, hf⟩ := h
    exact hf.tableAt fun k hk => Alike.textsAt ⟨f, rfl, hk⟩
  | bindings =>
    obtain ⟨f, rfl, hf⟩ := h
    exact hf.tableAt fun k hk => Alike.tagsAt ⟨f, rfl, hk⟩
  | variableLooks =>
    obtain ⟨f, rfl, hf⟩ := h
    exact hf.looksAt fun k hk => Alike.lookAt ⟨f, rfl, hk⟩

theorem contents_congr {holding holding' : Holding} {id name : String}
    (hlook : s'.lookAt holding'.look = s.lookAt holding.look)
    (htables : ∀ slot, s'.read (holding'.tables slot) slot = s.read (holding.tables slot) slot) :
    s'.contents holding' id name = s.contents holding id name := by
  unfold Store.contents
  simp only [hlook, htables]

end Alike

section Walk

variable {seen pending : List Nat}

/-- What is pending is walked through, and so is what it leads to. -/
theorem walk_closed (s : Store) (seen pending : List Nat) :
    (∀ r ∈ pending, r < s.size → r ∈ seen ∨ r ∈ s.walk seen pending) ∧
      ∀ r ∈ s.walk seen pending, ∀ k ∈ (s.recordAt r).parts, k < s.size →
        k ∈ seen ∨ k ∈ s.walk seen pending := by
  unfold size
  fun_induction walk s seen pending with
  | case1 seen => simp
  | case2 seen r rest hskip ih =>
    refine ⟨?_, ih.2⟩
    intro k hk hbound
    rcases List.mem_cons.mp hk with rfl | hrest
    · exact Or.inl (hskip.resolve_right (by omega))
    · exact ih.1 k hrest hbound
  | case3 seen r rest hskip ih =>
    have hshift : ∀ k, k ∈ r :: seen ∨ k ∈ s.walk (r :: seen) ((s.recordAt r).parts ++ rest) →
        k ∈ seen ∨ k ∈ r :: s.walk (r :: seen) ((s.recordAt r).parts ++ rest) := by
      intro k hk
      simp only [List.mem_cons] at hk ⊢
      tauto
    constructor
    · intro k hk hbound
      rcases List.mem_cons.mp hk with rfl | hrest
      · simp
      · exact hshift k (ih.1 k (by simp [hrest]) hbound)
    · intro k hk j hj hbound
      rcases List.mem_cons.mp hk with rfl | hwalked
      · exact hshift j (ih.1 j (by simp [hj]) hbound)
      · exact hshift j (ih.2 k hwalked j hj hbound)

/-- No record holds a number under which there is none. -/
def Bound (s : Store) : Prop :=
  ∀ r, ∀ k ∈ (s.recordAt r).parts, k < s.size

variable (hbound : s.Bound)

include hbound

theorem Bound.lt_of_leads (hr : r < s.size) (hk : s.Leads r k) : k < s.size := by
  cases hk with
  | refl => exact hr
  | tail _ hk => exact hbound _ _ hk

theorem Bound.mem_walk (hr : r < s.size) (hk : s.Leads r k) : k ∈ s.walk [] [r] := by
  obtain ⟨hpending, hparts⟩ := walk_closed s [] [r]
  induction hk with
  | refl => simpa using hpending r (List.mem_singleton_self r) hr
  | tail _ hk ih => simpa using hparts _ ih _ hk (hbound _ _ hk)

end Walk

section Growth

theorem recordAt_of_ge (hr : s.size ≤ r) : s.recordAt r = .tags [] := by
  unfold recordAt
  rw [List.getElem?_eq_none hr]
  rfl

theorem size_push (s : Store) (records : List Record) :
    (s.push records).size = s.size + records.length :=
  List.length_append

theorem recordAt_push_old (records : List Record) (hr : r < s.size) :
    (s.push records).recordAt r = s.recordAt r := by
  unfold recordAt push
  rw [List.getElem?_append_left hr]

theorem recordAt_push_new (records : List Record) {i : Nat} (hi : i < records.length) :
    (s.push records).recordAt (s.size + i) = records[i] := by
  unfold recordAt push size
  simp [hi]

/-- What a record has as parts it had before, or it is one of those that have come. -/
theorem mem_parts_push {records : List Record} {k : Nat}
    (hk : k ∈ ((s.push records).recordAt r).parts) :
    (r < s.size ∧ k ∈ (s.recordAt r).parts) ∨ ∃ record ∈ records, k ∈ record.parts := by
  rcases Nat.lt_or_ge r s.size with hlt | hge
  · exact Or.inl ⟨hlt, recordAt_push_old records hlt ▸ hk⟩
  · obtain ⟨i, rfl⟩ := Nat.exists_eq_add_of_le hge
    by_cases hi : i < records.length
    · rw [recordAt_push_new _ hi] at hk
      exact Or.inr ⟨_, List.getElem_mem hi, hk⟩
    · rw [recordAt_of_ge (by rw [size_push]; omega)] at hk
      cases hk

/-- Records have come that hold none but those that have come. -/
structure Grown (s s' : Store) : Prop where
  size : s.size ≤ s'.size
  kept : ∀ r < s.size, s'.recordAt r = s.recordAt r
  parts : ∀ r, s.size ≤ r → ∀ k ∈ (s'.recordAt r).parts, s.size ≤ k ∧ k < s'.size

theorem grown_refl (s : Store) : s.Grown s where
  size := Nat.le_refl _
  kept _ _ := rfl
  parts r hr k hk := by
    rw [recordAt_of_ge hr] at hk
    cases hk

theorem Grown.not_mem (hgrown : s.Grown s') (hr : r < s.size)
    (hfree : ∀ k, r ∉ (s.recordAt k).parts) (k : Nat) : r ∉ (s'.recordAt k).parts := by
  intro hk
  rcases Nat.lt_or_ge k s.size with hlt | hge
  · rw [hgrown.kept k hlt] at hk
    exact hfree k hk
  · exact absurd (hgrown.parts k hge r hk).1 (Nat.not_le_of_lt hr)

theorem Grown.trans (h : s.Grown s') (h' : s'.Grown s'') : s.Grown s'' where
  size := Nat.le_trans h.size h'.size
  kept r hr := (h'.kept r (Nat.lt_of_lt_of_le hr h.size)).trans (h.kept r hr)
  parts r hr k hk := by
    rcases Nat.lt_or_ge r s'.size with hlt | hge
    · rw [h'.kept r hlt] at hk
      obtain ⟨hnew, hbound⟩ := h.parts r hr k hk
      exact ⟨hnew, Nat.lt_of_lt_of_le hbound h'.size⟩
    · obtain ⟨hnew, hbound⟩ := h'.parts r hge k hk
      exact ⟨Nat.le_trans h.size hnew, hbound⟩

theorem Grown.bound (h : s.Grown s') (hbound : s.Bound) : s'.Bound := by
  intro r k hk
  rcases Nat.lt_or_ge r s.size with hlt | hge
  · rw [h.kept r hlt] at hk
    exact Nat.lt_of_lt_of_le (hbound r k hk) h.size
  · exact (h.parts r hge k hk).2

theorem Grown.alike (h : s.Grown s') (hbound : s.Bound) (hr : r < s.size) : s.Alike r s' r :=
  alike_of_kept fun k hk => h.kept k (hbound.lt_of_leads hr hk)

end Growth

section Duplicate

theorem length_duplicate (s : Store) (r : Nat) :
    (s.duplicate r).2.size = s.size + (s.walk [] [r]).length := by
  unfold duplicate
  rw [size_push, List.length_map]

theorem recordAt_duplicate (hk : k ∈ s.walk [] [r]) :
    (s.duplicate r).2.recordAt (s.place (s.walk [] [r]) k) =
      (s.recordAt k).relocate (s.place (s.walk [] [r])) := by
  have hi : (s.walk [] [r]).idxOf k <
      ((s.walk [] [r]).map fun j => (s.recordAt j).relocate (s.place (s.walk [] [r]))).length := by
    simpa using List.idxOf_lt_length_of_mem hk
  change (s.push _).recordAt (s.size + (s.walk [] [r]).idxOf k) = _
  rw [recordAt_push_new _ hi, List.getElem_map, List.getElem_idxOf]

/-- A record that comes with a copy is the copy of one. -/
theorem duplicate_of_ge (hk : s.size ≤ k) (hlt : k < (s.duplicate r).2.size) :
    ∃ j ∈ s.walk [] [r], (s.duplicate r).2.recordAt k =
      (s.recordAt j).relocate (s.place (s.walk [] [r])) := by
  rw [length_duplicate] at hlt
  obtain ⟨i, rfl⟩ := Nat.exists_eq_add_of_le hk
  have hi : i < (s.walk [] [r]).length := by omega
  refine ⟨(s.walk [] [r])[i], List.getElem_mem hi, ?_⟩
  unfold duplicate
  rw [recordAt_push_new _ (by simpa using hi), List.getElem_map]

variable (hbound : s.Bound) (hr : r < s.size)

include hbound hr

/-- What is copied together with a record. -/
theorem moved_duplicate : s.Moved r (s.place (s.walk [] [r])) (s.duplicate r).2 :=
  fun _ hk => recordAt_duplicate (hbound.mem_walk hr hk)

theorem alike_duplicate : s.Alike r (s.duplicate r).2 (s.duplicate r).1 :=
  ⟨_, rfl, moved_duplicate hbound hr⟩

theorem mem_walk_self : r ∈ s.walk [] [r] :=
  hbound.mem_walk hr .refl

theorem duplicate_new : s.size ≤ (s.duplicate r).1 ∧ (s.duplicate r).1 < (s.duplicate r).2.size := by
  have hi := List.idxOf_lt_length_of_mem (mem_walk_self hbound hr)
  rw [length_duplicate]
  unfold duplicate place
  constructor
  · exact Nat.le_add_right ..
  · dsimp only
    omega

omit hr

/-- A copy only holds copies. -/
theorem grown_duplicate : s.Grown (s.duplicate r).2 where
  size := by
    rw [length_duplicate]
    omega
  kept k hk := recordAt_push_old _ hk
  parts k hk j hj := by
    rcases Nat.lt_or_ge k (s.duplicate r).2.size with hlt | hge
    · obtain ⟨i, hi, heq⟩ := duplicate_of_ge hk hlt
      rw [heq, Record.parts_relocate] at hj
      obtain ⟨part, hpart, rfl⟩ := List.mem_map.mp hj
      obtain ⟨-, hclosed⟩ := walk_closed s [] [r]
      have hmem : part ∈ s.walk [] [r] := by
        simpa using hclosed i hi part hpart (hbound i part hpart)
      have hindex := List.idxOf_lt_length_of_mem hmem
      rw [length_duplicate]
      unfold place
      omega
    · rw [recordAt_of_ge hge] at hj
      cases hj

/-- A record that no other one holds has a copy that no other one holds. -/
theorem not_mem_duplicate (hr : r < s.size) (hfree : ∀ k, r ∉ (s.recordAt k).parts) (k : Nat) :
    (s.duplicate r).1 ∉ ((s.duplicate r).2.recordAt k).parts := by
  have hnew := (duplicate_new hbound hr).1
  intro hmem
  rcases Nat.lt_or_ge k s.size with hlt | hge
  · rw [(grown_duplicate hbound).kept k hlt] at hmem
    exact absurd (hbound k _ hmem) (Nat.not_lt_of_le hnew)
  · rcases Nat.lt_or_ge k (s.duplicate r).2.size with hbelow | habove
    · obtain ⟨i, hi, heq⟩ := duplicate_of_ge hge hbelow
      rw [heq, Record.parts_relocate] at hmem
      obtain ⟨part, hpart, hsame⟩ := List.mem_map.mp hmem
      have hindex : (s.walk [] [r]).idxOf part = (s.walk [] [r]).idxOf r := by
        unfold duplicate place at hsame
        dsimp only at hsame
        omega
      obtain ⟨-, hclosed⟩ := walk_closed s [] [r]
      have hlive : part ∈ s.walk [] [r] := by
        simpa using hclosed i hi part hpart (hbound i part hpart)
      have heq : part = r := (List.idxOf_inj hlive).mp hindex
      exact hfree i (heq ▸ hpart)
    · rw [recordAt_of_ge habove] at hmem
      cases hmem

end Duplicate

end Store

end RecipeGraph.Graph
