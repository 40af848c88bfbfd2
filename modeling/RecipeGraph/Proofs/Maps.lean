import RecipeGraph.OrderedMap
import Mathlib.Data.List.Nodup

/-!
Facts about maps that remember the order of their names. A write changes the value of one name
and nothing else, a name comes in at the end, and merging one map into another is a write for
each of its entries. Where no name comes twice, writes and merges can be exchanged.
-/
namespace RecipeGraph.OrderedMap

variable {α : Type}

/-- No name comes twice. -/
def Distinct (m : OrderedMap α) : Prop := m.keys.Nodup

theorem lookup_write (key other : String) (value : α) (entries : List (String × α)) :
    lookup other (write key value entries) =
      if key = other then some value else lookup other entries := by
  induction entries with
  | nil => simp [write, lookup]
  | cons first rest ih =>
    obtain ⟨k, old⟩ := first
    by_cases hk : k = key
    · subst hk
      by_cases ho : k = other <;> simp [write, lookup, ho]
    · by_cases ho : k = other
      · subst ho
        have hne : key ≠ k := Ne.symm hk
        simp [write, lookup, hk, hne]
      · simp [write, lookup, hk, ho, ih]

theorem get?_insert (m : OrderedMap α) (key other : String) (value : α) :
    (m.insert key value).get? other = if key = other then some value else m.get? other :=
  lookup_write key other value m.entries

@[simp] theorem get?_insert_self (m : OrderedMap α) (key : String) (value : α) :
    (m.insert key value).get? key = some value := by
  simp [get?_insert]

theorem get?_insert_of_ne (m : OrderedMap α) {key other : String} (value : α)
    (hne : key ≠ other) : (m.insert key value).get? other = m.get? other := by
  simp [get?_insert, hne]

theorem get?_insert_eq_some {m : OrderedMap α} {key other : String} {value found : α} :
    (m.insert key value).get? other = some found ↔
      key = other ∧ value = found ∨ key ≠ other ∧ m.get? other = some found := by
  rw [get?_insert]
  by_cases hsame : key = other <;> simp [hsame]

@[simp] theorem get?_empty (key : String) : ({} : OrderedMap α).get? key = none := rfl

theorem mem_write {key k : String} {value v : α} {entries : List (String × α)}
    (h : (k, v) ∈ write key value entries) :
    (k = key ∧ v = value) ∨ (k, v) ∈ entries := by
  induction entries with
  | nil =>
    left
    simpa [write] using h
  | cons first rest ih =>
    obtain ⟨k', old⟩ := first
    by_cases hk : k' = key
    · simp only [write, hk, ↓reduceIte, List.mem_cons, Prod.mk.injEq] at h
      rcases h with h | h
      · exact Or.inl h
      · exact Or.inr (List.mem_cons_of_mem _ h)
    · simp only [write, hk, ↓reduceIte, List.mem_cons, Prod.mk.injEq] at h
      rcases h with h | h
      · right
        simp [h]
      · rcases ih h with hnew | hold
        · exact Or.inl hnew
        · exact Or.inr (List.mem_cons_of_mem _ hold)

theorem mem_insert {m : OrderedMap α} {key k : String} {value v : α}
    (h : (k, v) ∈ (m.insert key value).entries) :
    (k = key ∧ v = value) ∨ (k, v) ∈ m.entries :=
  mem_write h

theorem mem_values {m : OrderedMap α} {v : α} : v ∈ m.values ↔ ∃ k, (k, v) ∈ m.entries := by
  simp [values]

theorem mem_keys {m : OrderedMap α} {k : String} : k ∈ m.keys ↔ ∃ v, (k, v) ∈ m.entries := by
  simp [keys]

theorem mem_values_insert {m : OrderedMap α} {key : String} {value v : α}
    (h : v ∈ (m.insert key value).values) : v = value ∨ v ∈ m.values := by
  obtain ⟨k, hk⟩ := mem_values.mp h
  rcases mem_insert hk with hnew | hold
  · exact Or.inl hnew.2
  · exact Or.inr (mem_values.mpr ⟨k, hold⟩)

theorem mem_of_lookup {entries : List (String × α)} {key : String} {value : α}
    (h : lookup key entries = some value) : (key, value) ∈ entries := by
  induction entries with
  | nil => simp [lookup] at h
  | cons first rest ih =>
    obtain ⟨k, v⟩ := first
    by_cases hk : k = key
    · simp only [lookup, hk, ↓reduceIte, Option.some.injEq] at h
      simp [hk, h]
    · simp only [lookup, hk, ↓reduceIte] at h
      exact List.mem_cons_of_mem _ (ih h)

theorem mem_of_get? {m : OrderedMap α} {key : String} {value : α}
    (h : m.get? key = some value) : (key, value) ∈ m.entries :=
  mem_of_lookup h

theorem keys_write (key : String) (value : α) (entries : List (String × α)) :
    (write key value entries).map (·.1) =
      if key ∈ entries.map (·.1) then entries.map (·.1) else entries.map (·.1) ++ [key] := by
  induction entries with
  | nil => simp [write]
  | cons first rest ih =>
    obtain ⟨k, old⟩ := first
    by_cases hk : k = key
    · simp [write, hk]
    · have hne : key ≠ k := Ne.symm hk
      by_cases hmem : key ∈ rest.map (·.1)
      · simp only [write, hk, ↓reduceIte, List.map_cons, ih, hmem, List.mem_cons, or_true]
      · simp only [write, hk, ↓reduceIte, List.map_cons, ih, hmem, List.mem_cons, hne, or_self,
          List.cons_append]

/-- What is put at the end of a list unless it is there already. -/
theorem mem_ite_append {x y : α} {xs : List α} [DecidableEq α] :
    x ∈ (if y ∈ xs then xs else xs ++ [y]) ↔ x = y ∨ x ∈ xs := by
  split
  · rename_i hin
    refine ⟨Or.inr, ?_⟩
    rintro (rfl | h)
    · exact hin
    · exact h
  · rw [List.mem_append, List.mem_singleton]
    exact Or.comm

theorem nodup_ite_append {xs : List α} [DecidableEq α] (h : xs.Nodup) (y : α) :
    (if y ∈ xs then xs else xs ++ [y]).Nodup := by
  split
  · exact h
  · rename_i hnew
    rw [← List.concat_eq_append, List.nodup_concat]
    exact ⟨hnew, h⟩

theorem keys_insert (m : OrderedMap α) (key : String) (value : α) :
    (m.insert key value).keys = if key ∈ m.keys then m.keys else m.keys ++ [key] :=
  keys_write key value m.entries

theorem mem_keys_insert {m : OrderedMap α} {key k : String} {value : α} :
    k ∈ (m.insert key value).keys ↔ k = key ∨ k ∈ m.keys := by
  rw [keys_insert]
  exact mem_ite_append

theorem Distinct.insert {m : OrderedMap α} (h : m.Distinct) (key : String) (value : α) :
    (m.insert key value).Distinct := by
  unfold Distinct at *
  rw [keys_insert]
  exact nodup_ite_append h key

theorem distinct_empty : ({} : OrderedMap α).Distinct := List.nodup_nil

theorem write_of_not_mem {key : String} (value : α) {entries : List (String × α)}
    (h : key ∉ entries.map (·.1)) : write key value entries = entries ++ [(key, value)] := by
  induction entries with
  | nil => rfl
  | cons first rest ih =>
    obtain ⟨k, old⟩ := first
    simp only [List.map_cons, List.mem_cons, not_or] at h
    have hk : k ≠ key := fun heq => h.1 heq.symm
    simp only [write, hk, ↓reduceIte, ih h.2, List.cons_append]

theorem entries_insert_of_not_mem {m : OrderedMap α} {key : String} (value : α)
    (h : key ∉ m.keys) : (m.insert key value).entries = m.entries ++ [(key, value)] :=
  write_of_not_mem value h

/-- Two writes can change places unless the second brings in its name. -/
theorem write_comm {key other : String} (value v : α) {entries : List (String × α)}
    (hne : key ≠ other) (hmem : key ∈ entries.map (·.1)) :
    write key value (write other v entries) = write other v (write key value entries) := by
  induction entries with
  | nil => simp at hmem
  | cons first rest ih =>
    obtain ⟨k, old⟩ := first
    by_cases hk : k = key
    · have ho : k ≠ other := fun heq => hne (hk.symm.trans heq)
      subst hk
      simp [write, ho]
    · have hrest : key ∈ rest.map (·.1) := by
        simp only [List.map_cons, List.mem_cons] at hmem
        exact hmem.resolve_left fun heq => hk heq.symm
      by_cases ho : k = other
      · subst ho
        simp [write, hk]
      · simp [write, hk, ho, ih hrest]

theorem write_write (key : String) (value v : α) (entries : List (String × α)) :
    write key value (write key v entries) = write key value entries := by
  induction entries with
  | nil => simp [write]
  | cons first rest ih =>
    obtain ⟨k, old⟩ := first
    by_cases hk : k = key <;> simp [write, hk, ih]

/-- Merging, on the entries alone. -/
def writeAll (added entries : List (String × α)) : List (String × α) :=
  added.foldl (fun acc entry => write entry.1 entry.2 acc) entries

theorem entries_foldl_insert (added : List (String × α)) (m : OrderedMap α) :
    (added.foldl (fun acc entry => acc.insert entry.1 entry.2) m).entries =
      writeAll added m.entries := by
  induction added generalizing m with
  | nil => rfl
  | cons first rest ih => exact ih (m.insert first.1 first.2)

theorem entries_merge (m other : OrderedMap α) :
    (m.merge other).entries = writeAll other.entries m.entries :=
  entries_foldl_insert other.entries m

theorem mem_writeAll {added entries : List (String × α)} {k : String} {v : α}
    (h : (k, v) ∈ writeAll added entries) : (k, v) ∈ added ∨ (k, v) ∈ entries := by
  induction added generalizing entries with
  | nil => exact Or.inr h
  | cons first rest ih =>
    obtain ⟨key, value⟩ := first
    rcases ih h with hadded | hold
    · exact Or.inl (List.mem_cons_of_mem _ hadded)
    · rcases mem_write hold with ⟨rfl, rfl⟩ | hold
      · exact Or.inl (List.mem_cons_self ..)
      · exact Or.inr hold

theorem mem_values_merge {m other : OrderedMap α} {v : α} (h : v ∈ (m.merge other).values) :
    v ∈ other.values ∨ v ∈ m.values := by
  obtain ⟨k, hk⟩ := mem_values.mp h
  rw [entries_merge] at hk
  rcases mem_writeAll hk with hnew | hold
  · exact Or.inl (mem_values.mpr ⟨k, hnew⟩)
  · exact Or.inr (mem_values.mpr ⟨k, hold⟩)

theorem mem_keys_writeAll {added entries : List (String × α)} {k : String} :
    k ∈ (writeAll added entries).map (·.1) ↔
      k ∈ added.map (·.1) ∨ k ∈ entries.map (·.1) := by
  induction added generalizing entries with
  | nil => simp [writeAll]
  | cons first rest ih =>
    obtain ⟨key, value⟩ := first
    have hwrite : k ∈ (write key value entries).map (·.1) ↔ k = key ∨ k ∈ entries.map (·.1) :=
      mem_keys_insert (m := ⟨entries⟩)
    change k ∈ (writeAll rest (write key value entries)).map (·.1) ↔ _
    rw [ih, hwrite, List.map_cons, List.mem_cons]
    tauto

theorem write_writeAll_of_not_mem {key : String} (value : α)
    {added entries : List (String × α)} (hnew : key ∉ added.map (·.1))
    (hmem : key ∈ entries.map (·.1)) :
    write key value (writeAll added entries) = writeAll added (write key value entries) := by
  induction added generalizing entries with
  | nil => rfl
  | cons first rest ih =>
    obtain ⟨k, v⟩ := first
    simp only [List.map_cons, List.mem_cons, not_or] at hnew
    have hkept : key ∈ (write k v entries).map (·.1) :=
      (mem_keys_insert (m := ⟨entries⟩)).mpr (Or.inr hmem)
    change write key value (writeAll rest (write k v entries)) =
      writeAll rest (write k v (write key value entries))
    rw [ih hnew.2 hkept, write_comm value v hnew.1 hmem]

theorem write_writeAll (key : String) (value : α) {added : List (String × α)}
    (entries : List (String × α)) (h : (added.map (·.1)).Nodup) :
    write key value (writeAll added entries) = writeAll (write key value added) entries := by
  induction added generalizing entries with
  | nil => rfl
  | cons first rest ih =>
    obtain ⟨k, v⟩ := first
    rw [List.map_cons, List.nodup_cons] at h
    change write key value (writeAll rest (write k v entries)) = _
    by_cases hk : k = key
    · subst hk
      have hmem : k ∈ (write k v entries).map (·.1) :=
        (mem_keys_insert (m := ⟨entries⟩)).mpr (Or.inl rfl)
      rw [write_writeAll_of_not_mem value h.1 hmem, write_write]
      simp [write, writeAll]
    · rw [ih (write k v entries) h.2]
      simp [write, writeAll, hk]

/-- A write after a merge could as well have come before it, to the map that is merged. -/
theorem insert_merge {other : OrderedMap α} (h : other.Distinct) (m : OrderedMap α)
    (key : String) (value : α) :
    (m.merge other).insert key value = m.merge (other.insert key value) := by
  have hentries : ((m.merge other).insert key value).entries =
      (m.merge (other.insert key value)).entries := by
    rw [entries_merge]
    change write key value (m.merge other).entries = _
    rw [entries_merge]
    exact write_writeAll key value m.entries h
  cases hl : (m.merge other).insert key value
  cases hr : m.merge (other.insert key value)
  rw [hl, hr] at hentries
  exact congrArg OrderedMap.mk hentries

theorem writeAll_of_fresh {added entries : List (String × α)}
    (h : ((entries ++ added).map (·.1)).Nodup) : writeAll added entries = entries ++ added := by
  induction added generalizing entries with
  | nil => exact (List.append_nil entries).symm
  | cons first rest ih =>
    have hfirst : first.1 ∉ entries.map (·.1) := by
      intro hmem
      rw [List.map_append, List.nodup_append] at h
      exact h.2.2 _ hmem _ (by simp) rfl
    change writeAll rest (write first.1 first.2 entries) = _
    rw [write_of_not_mem first.2 hfirst, ih]
    · rw [List.append_assoc]
      rfl
    · simpa using h

theorem empty_merge {m : OrderedMap α} (h : m.Distinct) : ({} : OrderedMap α).merge m = m := by
  have hentries : (({} : OrderedMap α).merge m).entries = m.entries := by
    rw [entries_merge]
    exact writeAll_of_fresh h
  exact congrArg OrderedMap.mk hentries

theorem lookup_eq_none {key : String} {entries : List (String × α)}
    (h : key ∉ entries.map (·.1)) : lookup key entries = none := by
  induction entries with
  | nil => rfl
  | cons first rest ih =>
    obtain ⟨k, v⟩ := first
    simp only [List.map_cons, List.mem_cons, not_or] at h
    have hk : k ≠ key := fun heq => h.1 heq.symm
    simp [lookup, hk, ih h.2]

theorem get?_of_not_mem_keys {m : OrderedMap α} {key : String} (h : key ∉ m.keys) :
    m.get? key = none :=
  lookup_eq_none h

theorem lookup_ne_none {key : String} {entries : List (String × α)}
    (h : key ∈ entries.map (·.1)) : lookup key entries ≠ none := by
  induction entries with
  | nil => simp at h
  | cons first rest ih =>
    obtain ⟨k, v⟩ := first
    by_cases hk : k = key
    · simp [lookup, hk]
    · simp only [List.map_cons, List.mem_cons, Ne.symm hk, false_or] at h
      simpa [lookup, hk] using ih h

theorem get?_eq_none {m : OrderedMap α} {key : String} : m.get? key = none ↔ key ∉ m.keys :=
  ⟨fun hnone hin => lookup_ne_none hin hnone, get?_of_not_mem_keys⟩

theorem lookup_of_mem {key : String} {value : α} {entries : List (String × α)}
    (h : (entries.map (·.1)).Nodup) (hmem : (key, value) ∈ entries) :
    lookup key entries = some value := by
  induction entries with
  | nil => simp at hmem
  | cons first rest ih =>
    obtain ⟨k, v⟩ := first
    simp only [List.map_cons, List.nodup_cons] at h
    rcases List.mem_cons.mp hmem with heq | hrest
    · cases heq
      simp [lookup]
    · have hk : k ≠ key := by
        rintro rfl
        exact h.1 (List.mem_map_of_mem hrest)
      simp [lookup, hk, ih h.2 hrest]

theorem Distinct.get?_of_mem {m : OrderedMap α} (h : m.Distinct) {key : String} {value : α}
    (hmem : (key, value) ∈ m.entries) : m.get? key = some value :=
  lookup_of_mem h hmem

theorem mem_erase {m : OrderedMap α} {key k : String} {v : α} :
    (k, v) ∈ (m.erase key).entries ↔ (k, v) ∈ m.entries ∧ k ≠ key := by
  simp [erase]

theorem get?_erase (m : OrderedMap α) (key other : String) :
    (m.erase key).get? other = if key = other then none else m.get? other := by
  unfold get? erase
  generalize m.entries = entries
  induction entries with
  | nil => simp [lookup]
  | cons first rest ih =>
    obtain ⟨k, value⟩ := first
    by_cases hk : k = key
    · subst hk
      by_cases hother : k = other
      · simpa [hother] using ih
      · simpa [lookup, hother] using ih
    · by_cases hother : k = other
      · subst hother
        simp [lookup, hk, Ne.symm hk]
      · simpa [lookup, hk, hother] using ih

theorem Distinct.erase {m : OrderedMap α} (h : m.Distinct) (key : String) :
    (m.erase key).Distinct :=
  List.Nodup.sublist (List.filter_sublist.map _) h

theorem lookup_writeAll (key : String) {added : List (String × α)}
    (entries : List (String × α)) (h : (added.map (·.1)).Nodup) :
    lookup key (writeAll added entries) = (lookup key added).or (lookup key entries) := by
  induction added generalizing entries with
  | nil => rfl
  | cons first rest ih =>
    obtain ⟨k, v⟩ := first
    rw [List.map_cons, List.nodup_cons] at h
    change lookup key (writeAll rest (write k v entries)) = _
    rw [ih _ h.2, lookup_write]
    by_cases hk : k = key
    · subst hk
      simp [lookup, lookup_eq_none h.1]
    · simp [lookup, hk]

/-- What is found after a merge: the value of the other map if it has the name. -/
theorem get?_merge {other : OrderedMap α} (h : other.Distinct) (m : OrderedMap α)
    (key : String) : (m.merge other).get? key = (other.get? key).or (m.get? key) := by
  unfold get?
  rw [entries_merge]
  exact lookup_writeAll key m.entries h

end RecipeGraph.OrderedMap
