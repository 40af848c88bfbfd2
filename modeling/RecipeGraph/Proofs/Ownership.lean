import RecipeGraph.Proofs.Belongings
import RecipeGraph.Proofs.Relocation

/-!
Whose tables are whose. Every table belongs to one member and is held by nothing else, whatever is
put in and copied. Therefore what is put into a member is read there afterwards and nowhere else, and
a copy has tables of its own, in which the same is read.
-/
namespace RecipeGraph.Graph

open OrderedMap

namespace Shelves

variable {s s' s'' : Shelves} {n m r k t : Nat} {slot : Slot} {holding : Holding}

/-- The record is a table of a member. -/
def IsTable (s : Shelves) (r : Nat) : Prop :=
  ∃ (n : Nat) (holding : Holding) (slot : Slot),
    s.holdings[n]? = some holding ∧ holding.tables slot = r

/-- Every table belongs to one member, at one place, and nothing else holds it. -/
structure Owned (s : Shelves) : Prop where
  bound : s.store.Bound
  looks : ∀ (n : Nat) (holding : Holding), s.holdings[n]? = some holding →
    holding.look < s.store.size ∧ (s.store.recordAt holding.look).kind = .look
  tables : ∀ (n : Nat) (holding : Holding) (slot : Slot), s.holdings[n]? = some holding →
    holding.tables slot < s.store.size ∧
      (s.store.recordAt (holding.tables slot)).kind = slot.blank.kind
  alone : ∀ (n m : Nat) (holding other : Holding) (slot slot' : Slot),
    s.holdings[n]? = some holding → s.holdings[m]? = some other →
      holding.tables slot = other.tables slot' → n = m ∧ slot = slot'
  apart : ∀ r, s.IsTable r → ∀ k, r ∉ (s.store.recordAt k).parts

/-- These records are there, and are no tables. -/
def Given (s : Shelves) (ks : List Nat) : Prop :=
  ∀ k ∈ ks, k < s.store.size ∧ ¬ s.IsTable k

theorem owned_start : Owned {} where
  bound r k hk := by simp [Store.recordAt, Record.parts] at hk
  looks _ _ h := nomatch h
  tables _ _ _ h := nomatch h
  alone _ _ _ _ _ _ h := nomatch h
  apart _ _ k hk := by simp [Store.recordAt, Record.parts] at hk

section Write

theorem recordAt_write (store : Store) (f : Record → Record) (hr : r < store.size) (k : Nat) :
    (store.write r f).recordAt k =
      if r = k then f (store.recordAt k) else store.recordAt k := by
  unfold Store.recordAt Store.write
  rw [List.getElem?_modify]
  by_cases hk : r = k
  · subst hk
    simp [List.getElem?_eq_getElem hr]
  · simp [hk]

@[simp] theorem size_write (store : Store) (f : Record → Record) :
    (store.write r f).size = store.size :=
  List.length_modify ..

theorem blank_kind_ne_look (slot : Slot) : slot.blank.kind ≠ .look := by
  cases slot <;> decide

theorem Owned.given_parts (howned : s.Owned) (r : Nat) : s.Given (s.store.recordAt r).parts :=
  fun k hk => ⟨howned.bound r k hk, fun htable => howned.apart k htable r hk⟩

/-- A record may be changed in place into one of its kind. -/
theorem Owned.write (howned : s.Owned) (hr : r < s.store.size) {f : Record → Record}
    (hkind : (f (s.store.recordAt r)).kind = (s.store.recordAt r).kind)
    (hparts : s.Given (f (s.store.recordAt r)).parts) :
    ({ s with store := s.store.write r f } : Shelves).Owned := by
  have hkinds : ∀ k, ((s.store.write r f).recordAt k).kind = (s.store.recordAt k).kind := by
    intro k
    rw [recordAt_write _ _ hr]
    split
    · rename_i heq
      exact heq ▸ hkind
    · rfl
  have hgiven : ∀ j, s.Given ((s.store.write r f).recordAt j).parts := by
    intro j
    rw [recordAt_write _ _ hr]
    split
    · rename_i heq
      exact heq ▸ hparts
    · exact howned.given_parts j
  constructor
  case bound =>
    intro j k hk
    rw [size_write]
    exact (hgiven j k hk).1
  case looks =>
    intro n holding hn
    dsimp only
    rw [size_write, hkinds]
    exact howned.looks n holding hn
  case tables =>
    intro n holding slot hn
    dsimp only
    rw [size_write, hkinds]
    exact howned.tables n holding slot hn
  case alone => exact howned.alone
  case apart => exact fun k htable j hk => (hgiven j k hk).2 htable

/-- What does not lead to a table leads to what it led to before the table changed. -/
theorem Owned.alike_write (howned : s.Owned) (htable : s.IsTable t) (f : Record → Record)
    (hr : r ≠ t) : s.store.Alike r (s.store.write t f) r := by
  refine Store.alike_of_kept fun k hk => ?_
  have hkt : t ≠ k := by
    rintro rfl
    cases hk with
    | refl => exact hr rfl
    | tail _ hmem => exact howned.apart _ htable _ hmem
  obtain ⟨n, holding, slot, hn, rfl⟩ := htable
  rw [recordAt_write _ _ (howned.tables n holding slot hn).1, if_neg hkt]

end Write

section Push

/-- Records may come that hold what is there and is no table. -/
theorem Owned.push (howned : s.Owned) {records : List Record}
    (hparts : ∀ record ∈ records, s.Given record.parts) : (s.push records).Owned := by
  have hold : ∀ k < s.store.size, (s.store.push records).recordAt k = s.store.recordAt k :=
    fun k hk => Store.recordAt_push_old records hk
  have hsize : s.store.size ≤ (s.store.push records).size := by
    rw [Store.size_push]
    omega
  have hgiven : ∀ j, s.Given ((s.store.push records).recordAt j).parts := by
    intro j k hk
    rcases Store.mem_parts_push hk with ⟨-, hpart⟩ | ⟨record, hrecord, hpart⟩
    · exact howned.given_parts j k hpart
    · exact hparts record hrecord k hpart
  constructor
  case bound => exact fun j k hk => Nat.lt_of_lt_of_le (hgiven j k hk).1 hsize
  case looks =>
    intro n holding hn
    obtain ⟨hlt, hkind⟩ := howned.looks n holding hn
    exact ⟨Nat.lt_of_lt_of_le hlt hsize, (congrArg Record.kind (hold _ hlt)).trans hkind⟩
  case tables =>
    intro n holding slot hn
    obtain ⟨hlt, hkind⟩ := howned.tables n holding slot hn
    exact ⟨Nat.lt_of_lt_of_le hlt hsize, (congrArg Record.kind (hold _ hlt)).trans hkind⟩
  case alone => exact howned.alone
  case apart => exact fun k htable j hk => (hgiven j k hk).2 htable

theorem Owned.alike_push (howned : s.Owned) (records : List Record) (hr : r < s.store.size) :
    s.store.Alike r (s.store.push records) r :=
  Store.alike_of_kept fun _ hk =>
    Store.recordAt_push_old records (howned.bound.lt_of_leads hr hk)

theorem Owned.contents_push (howned : s.Owned) (records : List Record) {n : Nat}
    {holding : Holding} (hn : s.holdings[n]? = some holding) (id name : String) :
    (s.push records).store.contents holding id name = s.store.contents holding id name :=
  Store.contents_congr (howned.alike_push _ (howned.looks n holding hn).1).lookAt fun slot =>
    (howned.alike_push _ (howned.tables n holding slot hn).1).read slot

end Push

section Newcomer

/-- Records that have come, and one more member that holds some of them. -/
theorem Owned.newcomer (howned : s.Owned) {store : Store} {newcomer : Holding}
    (hgrown : s.store.Grown store)
    (hlook : newcomer.look < store.size ∧ (store.recordAt newcomer.look).kind = .look)
    (htables : ∀ slot, s.store.size ≤ newcomer.tables slot ∧ newcomer.tables slot < store.size ∧
      (store.recordAt (newcomer.tables slot)).kind = slot.blank.kind ∧
        ∀ k, newcomer.tables slot ∉ (store.recordAt k).parts)
    (halone : Function.Injective newcomer.tables) :
    (⟨s.holdings ++ [newcomer], store⟩ : Shelves).Owned := by
  have hfind : ∀ n holding, (s.holdings ++ [newcomer])[n]? = some holding →
      s.holdings[n]? = some holding ∨ n = s.holdings.length ∧ holding = newcomer := by
    intro n holding hn
    rcases Nat.lt_or_ge n s.holdings.length with hlt | hge
    · rw [List.getElem?_append_left hlt] at hn
      exact Or.inl hn
    · rw [List.getElem?_append_right hge, List.getElem?_singleton] at hn
      split at hn
      · cases hn
        exact Or.inr ⟨by omega, rfl⟩
      · cases hn
  constructor
  case bound => exact hgrown.bound howned.bound
  case looks =>
    intro n holding hn
    rcases hfind n holding hn with hold | ⟨-, rfl⟩
    · obtain ⟨hlt, hkind⟩ := howned.looks n holding hold
      exact ⟨Nat.lt_of_lt_of_le hlt hgrown.size,
        (congrArg Record.kind (hgrown.kept _ hlt)).trans hkind⟩
    · exact hlook
  case tables =>
    intro n holding slot hn
    rcases hfind n holding hn with hold | ⟨-, rfl⟩
    · obtain ⟨hlt, hkind⟩ := howned.tables n holding slot hold
      exact ⟨Nat.lt_of_lt_of_le hlt hgrown.size,
        (congrArg Record.kind (hgrown.kept _ hlt)).trans hkind⟩
    · obtain ⟨-, hlt, hkind, -⟩ := htables slot
      exact ⟨hlt, hkind⟩
  case alone =>
    intro n m holding other slot slot' hn hm heq
    rcases hfind n holding hn with hold | ⟨rfl, rfl⟩ <;>
      rcases hfind m other hm with hold' | ⟨rfl, rfl⟩
    · exact howned.alone n m holding other slot slot' hold hold' heq
    · have hlt := (howned.tables n holding slot hold).1
      have hge := (htables slot').1
      omega
    · have hlt := (howned.tables m other slot' hold').1
      have hge := (htables slot).1
      omega
    · exact ⟨rfl, halone heq⟩
  case apart =>
    rintro r ⟨n, holding, slot, hn, rfl⟩ k hk
    rcases hfind n holding hn with hold | ⟨-, rfl⟩
    · exact hgrown.not_mem (howned.tables n holding slot hold).1
        (howned.apart _ ⟨n, holding, slot, hold, rfl⟩) k hk
    · exact (htables slot).2.2.2 k hk

theorem length_all : Slot.all.length = 7 := rfl

theorem mem_all (slot : Slot) : slot ∈ Slot.all := by
  cases slot <;> decide

theorem size_blank (store : Store) :
    (store.push (Slot.all.map Slot.blank)).size = store.size + 7 := by
  rw [Store.size_push, List.length_map, length_all]

theorem recordAt_blank (store : Store) (slot : Slot) :
    (store.push (Slot.all.map Slot.blank)).recordAt (store.size + Slot.all.idxOf slot) =
      slot.blank := by
  have hi : Slot.all.idxOf slot < (Slot.all.map Slot.blank).length := by
    simpa using List.idxOf_lt_length_of_mem (mem_all slot)
  rw [Store.recordAt_push_new _ hi, List.getElem_map, List.getElem_idxOf]

/-- Empty tables hold nothing. -/
theorem parts_blank (store : Store) {k : Nat} (hk : store.size ≤ k) :
    ((store.push (Slot.all.map Slot.blank)).recordAt k).parts = [] := by
  obtain ⟨i, rfl⟩ := Nat.exists_eq_add_of_le hk
  by_cases hi : i < (Slot.all.map Slot.blank).length
  · rw [Store.recordAt_push_new _ hi, List.getElem_map]
    cases Slot.all[i] <;> rfl
  · rw [Store.recordAt_of_ge (by rw [Store.size_push]; omega)]
    rfl

theorem grown_blank (store : Store) : store.Grown (store.push (Slot.all.map Slot.blank)) where
  size := by
    rw [size_blank]
    omega
  kept _ hk := Store.recordAt_push_old _ hk
  parts k hk j hj := by
    rw [parts_blank store hk] at hj
    cases hj

theorem read_blank (store : Store) (id name : String) (look : Nat) :
    (store.push (Slot.all.map Slot.blank)).contents
        ⟨look, fun slot => store.size + Slot.all.idxOf slot⟩ id name =
      { id := id, name := name,
        look := (store.push (Slot.all.map Slot.blank)).lookAt look } := by
  simp only [Store.contents, Store.read, Store.tableAt, Store.textsAt, Store.looksAt,
    Store.locationsAt, recordAt_blank]
  rfl

theorem Owned.add (howned : s.Owned) (hr : r < s.store.size)
    (hlook : (s.store.recordAt r).kind = .look) : (s.add r).Owned := by
  have hsize := size_blank s.store
  refine howned.newcomer (grown_blank s.store) ⟨?_, ?_⟩ ?_ ?_
  · change r < (s.store.push _).size
    omega
  · change ((s.store.push _).recordAt r).kind = .look
    rw [Store.recordAt_push_old _ hr, hlook]
  · intro slot
    have hindex := List.idxOf_lt_length_of_mem (mem_all slot)
    rw [length_all] at hindex
    dsimp only
    refine ⟨Nat.le_add_right .., by omega, congrArg Record.kind (recordAt_blank s.store slot),
      fun k hk => ?_⟩
    rcases Nat.lt_or_ge k s.store.size with hlt | hge
    · rw [Store.recordAt_push_old _ hlt] at hk
      exact absurd (howned.bound k _ hk) (by omega)
    · rw [parts_blank s.store hge] at hk
      cases hk
  · intro slot slot' heq
    have hindex : Slot.all.idxOf slot = Slot.all.idxOf slot' := Nat.add_left_cancel heq
    exact (List.idxOf_inj (mem_all slot)).mp hindex

end Newcomer

end Shelves

namespace Store

variable {s s' : Store} {r k : Nat}

/-- The copy of a table: it is new, like the table, and held by nothing. -/
structure Fresh (s : Store) (r : Nat) (s' : Store) (r' : Nat) : Prop where
  new : s.size ≤ r'
  bound : r' < s'.size
  alike : s.Alike r s' r'
  apart : ∀ k, r' ∉ (s'.recordAt k).parts

theorem fresh_duplicate (hbound : s.Bound) (hr : r < s.size)
    (hfree : ∀ k, r ∉ (s.recordAt k).parts) :
    s.Fresh r (s.duplicate r).2 (s.duplicate r).1 :=
  ⟨(duplicate_new hbound hr).1, (duplicate_new hbound hr).2, alike_duplicate hbound hr,
    not_mem_duplicate hbound hr hfree⟩

theorem Fresh.later {s'' : Store} {r' : Nat} (hfresh : s.Fresh r s' r') (hbound : s'.Bound)
    (hgrown : s'.Grown s'') : s.Fresh r s'' r' :=
  ⟨hfresh.new, Nat.lt_of_lt_of_le hfresh.bound hgrown.size,
    hfresh.alike.trans (hgrown.alike hbound hfresh.bound),
    hgrown.not_mem hfresh.bound hfresh.apart⟩

theorem Grown.fresh {s'' : Store} {r' : Nat} (hgrown : s.Grown s') (hbound : s.Bound)
    (hr : r < s.size) (hfresh : s'.Fresh r s'' r') : s.Fresh r s'' r' :=
  ⟨Nat.le_trans hgrown.size hfresh.new, hfresh.bound,
    (hgrown.alike hbound hr).trans hfresh.alike, hfresh.apart⟩

theorem duplicateAll_spec (slots : List Slot) (hnodup : slots.Nodup) (tables : Slot → Nat)
    (hbound : s.Bound)
    (htables : ∀ slot ∈ slots, tables slot < s.size ∧ ∀ k, tables slot ∉ (s.recordAt k).parts) :
    s.Grown (s.duplicateAll tables slots).2 ∧
      (∀ slot ∉ slots, (s.duplicateAll tables slots).1 slot = tables slot) ∧
      (∀ slot ∈ slots, s.Fresh (tables slot) (s.duplicateAll tables slots).2
        ((s.duplicateAll tables slots).1 slot)) ∧
      ∀ slot ∈ slots, ∀ slot' ∈ slots, (s.duplicateAll tables slots).1 slot =
        (s.duplicateAll tables slots).1 slot' → slot = slot' := by
  induction slots generalizing s tables with
  | nil => exact ⟨grown_refl s, fun _ _ => rfl, by simp, by simp⟩
  | cons slot rest ih =>
    obtain ⟨hnew, hrest⟩ := List.nodup_cons.mp hnodup
    obtain ⟨⟨hlt, hfree⟩, hothers⟩ := List.forall_mem_cons.mp htables
    have hgrown := grown_duplicate (r := tables slot) hbound
    have hcopied := fresh_duplicate hbound hlt hfree
    unfold duplicateAll
    dsimp only
    generalize s.duplicate (tables slot) = copied at hgrown hcopied ⊢
    have hkept : ∀ other ∈ rest,
        (if other = slot then copied.1 else tables other) = tables other := by
      intro other hother
      refine if_neg ?_
      rintro rfl
      exact hnew hother
    obtain ⟨hlater, hsame, hfresh, hinjective⟩ := ih hrest
      (fun other => if other = slot then copied.1 else tables other) (hgrown.bound hbound)
      fun other hother => by
        obtain ⟨hother_lt, hother_free⟩ := hothers other hother
        rw [hkept other hother]
        exact ⟨Nat.lt_of_lt_of_le hother_lt hgrown.size, hgrown.not_mem hother_lt hother_free⟩
    have hself := hsame slot hnew
    rw [if_pos rfl] at hself
    refine ⟨hgrown.trans hlater, ?_, ?_, ?_⟩
    · intro other hother
      obtain ⟨hne, hout⟩ := not_or.mp (mt List.mem_cons.mpr hother)
      rw [hsame other hout, if_neg hne]
    · intro other hother
      rcases List.mem_cons.mp hother with rfl | hin
      · rw [hself]
        exact hcopied.later (hgrown.bound hbound) hlater
      · have hcopy := hfresh other hin
        rw [hkept other hin] at hcopy
        exact hgrown.fresh hbound (hothers other hin).1 hcopy
    · have hdistinct : ∀ other ∈ rest, copied.1 ≠
          (copied.2.duplicateAll (fun other => if other = slot then copied.1 else tables other)
            rest).1 other := by
        intro other hother heq
        have hge := (hfresh other hother).new
        have hlt := hcopied.bound
        omega
      intro one hone other hother heq
      rcases List.mem_cons.mp hone with rfl | hin <;> rcases List.mem_cons.mp hother with rfl | hin'
      · rfl
      · rw [hself] at heq
        exact absurd heq (hdistinct other hin')
      · rw [hself] at heq
        exact absurd heq.symm (hdistinct one hin)
      · exact hinjective one hin other hin' heq

end Store

namespace Shelves

variable {s s' s'' : Shelves} {n m r k t : Nat} {slot : Slot} {holding : Holding}

/-- A member that holds copies of the records of another one. -/
theorem Owned.duplicate (howned : s.Owned) (hn : s.holdings[n]? = some holding) :
    ∃ newcomer, (s.duplicate n).holdings = s.holdings ++ [newcomer] ∧
      s.store.Grown (s.duplicate n).store ∧ (s.duplicate n).Owned ∧
      s.store.size ≤ newcomer.look ∧ (∀ slot, s.store.size ≤ newcomer.tables slot) ∧
      ∀ id name, (s.duplicate n).store.contents newcomer id name =
        s.store.contents holding id name := by
  obtain ⟨hlook, hkind⟩ := howned.looks n holding hn
  have htables := howned.tables n holding
  have hgrown := Store.grown_duplicate (r := holding.look) howned.bound
  have hplaced := Store.duplicate_new howned.bound hlook
  have halike := Store.alike_duplicate howned.bound hlook
  unfold Shelves.duplicate
  rw [hn]
  dsimp only
  generalize s.store.duplicate holding.look = look at hgrown hplaced halike ⊢
  have hbound := hgrown.bound howned.bound
  obtain ⟨hlater, -, hfresh, hinjective⟩ := Store.duplicateAll_spec (s := look.2) Slot.all (by decide)
    holding.tables hbound fun slot _ =>
      ⟨Nat.lt_of_lt_of_le (htables slot hn).1 hgrown.size, hgrown.not_mem (htables slot hn).1
        (howned.apart _ ⟨n, holding, slot, hn, rfl⟩)⟩
  have hall := hgrown.trans hlater
  have hlike : ∀ slot, s.store.Alike (holding.tables slot)
      (look.2.duplicateAll holding.tables Slot.all).2
        ((look.2.duplicateAll holding.tables Slot.all).1 slot) :=
    fun slot => (hgrown.alike howned.bound (htables slot hn).1).trans
      (hfresh slot (mem_all slot)).alike
  have hlooks := halike.trans (hlater.alike hbound hplaced.2)
  refine ⟨_, rfl, hall, howned.newcomer hall ⟨?_, ?_⟩ ?_ ?_, hplaced.1, ?_, ?_⟩
  · exact Nat.lt_of_lt_of_le hplaced.2 hlater.size
  · exact hlooks.kind.trans hkind
  · intro slot
    have hcopy := hfresh slot (mem_all slot)
    exact ⟨Nat.le_trans hgrown.size hcopy.new, hcopy.bound,
      (hlike slot).kind.trans (htables slot hn).2, hcopy.apart⟩
  · exact fun slot slot' heq => hinjective slot (mem_all slot) slot' (mem_all slot') heq
  · exact fun slot => Nat.le_trans hgrown.size (hfresh slot (mem_all slot)).new
  · intro id name
    exact Store.contents_congr hlooks.lookAt fun slot => (hlike slot).read slot

end Shelves

end RecipeGraph.Graph
