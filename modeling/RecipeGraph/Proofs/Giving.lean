import RecipeGraph.Proofs.Ownership

/-!
Putting records into members. The tables of one member change, and whatever does not lead there is
read as before. Read in the member itself is what the records that were given show, entry by entry,
so that to put in all that another member holds is to merge what both show.
-/
namespace RecipeGraph.Graph

open OrderedMap

namespace Shelves

variable {s s' s'' : Shelves} {n m r k t : Nat} {slot : Slot} {holding : Holding}
  {given given' : List Nat}

/-- What putting records into member `n` may change. -/
structure Puts (s s' : Shelves) (n : Nat) (given : List Nat) : Prop where
  owned : s'.Owned
  length : s'.holdings.length = s.holdings.length
  size : s.store.size ≤ s'.store.size
  kept : ∀ r < s.store.size,
    (∀ (holding : Holding) (slot : Slot), s.holdings[n]? = some holding →
      holding.tables slot ≠ r) → s'.store.recordAt r = s.store.recordAt r
  parts : ∀ r, ∀ k ∈ (s'.store.recordAt r).parts,
    k ∈ (s.store.recordAt r).parts ∨ k ∈ given ∨ s.store.size ≤ k
  others : ∀ m, m ≠ n → s'.holdings[m]? = s.holdings[m]?
  target : ∀ (holding : Holding), s.holdings[n]? = some holding →
    ∃ look, s'.holdings[n]? = some { holding with look := look } ∧
      (look = holding.look ∨ look ∈ given)

/-- The contents of member `n` become what `f` makes of them. -/
def Shows (s s' : Shelves) (n : Nat) (f : Contents → Contents) : Prop :=
  ∀ (holding : Holding), s.holdings[n]? = some holding → ∃ holding',
    s'.holdings[n]? = some holding' ∧ ∀ id name,
      s'.store.contents holding' id name = f (s.store.contents holding id name)

theorem Shows.trans {f g : Contents → Contents} (h : s.Shows s' n f) (h' : s'.Shows s'' n g) :
    s.Shows s'' n (g ∘ f) := by
  intro holding hn
  obtain ⟨holding', hn', heq⟩ := h holding hn
  obtain ⟨holding'', hn'', heq'⟩ := h' holding' hn'
  exact ⟨holding'', hn'', fun id name => (heq' id name).trans (congrArg g (heq id name))⟩

namespace Puts

variable (hputs : s.Puts s' n given)

include hputs

theorem tables_iff (r : Nat) : s'.IsTable r ↔ s.IsTable r := by
  have hsame : ∀ (m : Nat) (slot : Slot), (s'.holdings[m]?).map (fun found => found.tables slot) =
      (s.holdings[m]?).map (fun found => found.tables slot) := by
    intro m slot
    by_cases hm : m = n
    · subst hm
      cases hfind : s.holdings[m]? with
      | none =>
        have hnone : s'.holdings[m]? = none := by
          rw [List.getElem?_eq_none_iff] at hfind ⊢
          exact hputs.length ▸ hfind
        rw [hnone]
      | some holding =>
        obtain ⟨look, hlook, -⟩ := hputs.target holding hfind
        rw [hlook]
        rfl
    · rw [hputs.others m hm]
  have htable : ∀ s : Shelves, s.IsTable r ↔
      ∃ (m : Nat) (slot : Slot), (s.holdings[m]?).map (fun found => found.tables slot) = some r := by
    intro s
    constructor
    · rintro ⟨m, holding, slot, hm, rfl⟩
      exact ⟨m, slot, by rw [hm]; rfl⟩
    · rintro ⟨m, slot, heq⟩
      obtain ⟨holding, hm, rfl⟩ := Option.map_eq_some_iff.mp heq
      exact ⟨m, holding, slot, hm, rfl⟩
  rw [htable, htable]
  simp only [hsame]

theorem given_mono {ks : List Nat} (hks : s.Given ks) : s'.Given ks :=
  fun k hk => ⟨Nat.lt_of_lt_of_le (hks k hk).1 hputs.size, mt (hputs.tables_iff k).mp (hks k hk).2⟩

/-- What leads to no table of the member leads to what it led to. -/
theorem alike_of_not_table (howned : s.Owned) (hr : r < s.store.size)
    (hfree : ∀ (holding : Holding) (slot : Slot), s.holdings[n]? = some holding →
      holding.tables slot ≠ r) : s.store.Alike r s'.store r := by
  refine Store.alike_of_kept fun k hk => hputs.kept k (howned.bound.lt_of_leads hr hk) ?_
  intro holding slot hn heq
  cases hk with
  | refl => exact hfree holding slot hn heq
  | tail _ hmem => exact howned.apart k ⟨n, holding, slot, hn, heq⟩ _ hmem

theorem alike (howned : s.Owned) (hr : r < s.store.size) (hfree : ¬ s.IsTable r) :
    s.store.Alike r s'.store r :=
  hputs.alike_of_not_table howned hr fun holding slot hn heq => hfree ⟨n, holding, slot, hn, heq⟩

theorem look_alike (howned : s.Owned) (hm : s.holdings[m]? = some holding) :
    s.store.Alike holding.look s'.store holding.look := by
  obtain ⟨hlt, hkind⟩ := howned.looks m holding hm
  refine hputs.alike howned hlt ?_
  rintro ⟨j, other, slot, hj, heq⟩
  refine blank_kind_ne_look slot ?_
  rw [← (howned.tables j other slot hj).2, heq, hkind]

/-- The other members show what they showed. -/
theorem contents_other (howned : s.Owned) (hne : m ≠ n) (hm : s.holdings[m]? = some holding)
    (id name : String) : s'.store.contents holding id name = s.store.contents holding id name := by
  refine Store.contents_congr (hputs.look_alike howned hm).lookAt fun slot => ?_
  refine (hputs.alike_of_not_table howned (howned.tables m holding slot hm).1 ?_).read slot
  intro other slot' hn heq
  exact hne (howned.alone n m other holding slot' slot hn hm heq).1.symm

theorem trans (hlater : s'.Puts s'' n given') : s.Puts s'' n (given ++ given') where
  owned := hlater.owned
  length := hlater.length.trans hputs.length
  size := Nat.le_trans hputs.size hlater.size
  kept r hr hfree := by
    refine (hlater.kept r (Nat.lt_of_lt_of_le hr hputs.size) ?_).trans (hputs.kept r hr hfree)
    intro holding slot hn
    cases hfind : s.holdings[n]? with
    | none =>
      have hnone : s'.holdings[n]? = none := by
        rw [List.getElem?_eq_none_iff] at hfind ⊢
        exact hputs.length ▸ hfind
      rw [hnone] at hn
      cases hn
    | some first =>
      obtain ⟨look, hlook, -⟩ := hputs.target first hfind
      rw [hlook] at hn
      cases hn
      exact hfree first slot hfind
  parts r k hk := by
    rcases hlater.parts r k hk with hold | hgiven | hnew
    · rcases hputs.parts r k hold with hold | hgiven | hnew
      · exact Or.inl hold
      · exact Or.inr (Or.inl (List.mem_append_left _ hgiven))
      · exact Or.inr (Or.inr hnew)
    · exact Or.inr (Or.inl (List.mem_append_right _ hgiven))
    · exact Or.inr (Or.inr (Nat.le_trans hputs.size hnew))
  others m hm := (hlater.others m hm).trans (hputs.others m hm)
  target holding hn := by
    obtain ⟨look, hlook, hfrom⟩ := hputs.target holding hn
    obtain ⟨look', hlook', hfrom'⟩ := hlater.target _ hlook
    refine ⟨look', hlook', ?_⟩
    rcases hfrom' with rfl | hgiven
    · exact hfrom.imp_right (List.mem_append_left _)
    · exact Or.inr (List.mem_append_right _ hgiven)

end Puts

section Write

variable {f : Record → Record}

theorem write_eq (hn : s.holdings[n]? = some holding) (slot : Slot) (f : Record → Record) :
    s.write n slot f = { s with store := s.store.write (holding.tables slot) f } := by
  unfold Shelves.write
  rw [hn]

theorem puts_write (howned : s.Owned) (hn : s.holdings[n]? = some holding) (hgiven : s.Given given)
    (hkind : ∀ record, (f record).kind = record.kind)
    (hparts : ∀ record, ∀ k ∈ (f record).parts, k ∈ record.parts ∨ k ∈ given) :
    s.Puts (s.write n slot f) n given := by
  have hlt := (howned.tables n holding slot hn).1
  rw [write_eq hn]
  constructor
  case owned =>
    refine howned.write hlt (hkind _) fun k hk => ?_
    rcases hparts _ k hk with hold | hnew
    · exact howned.given_parts _ k hold
    · exact hgiven k hnew
  case length => rfl
  case size => exact Nat.le_of_eq (size_write ..).symm
  case kept =>
    intro r hr hfree
    dsimp only
    rw [recordAt_write _ _ hlt, if_neg (hfree holding slot hn)]
  case parts =>
    intro r k hk
    dsimp only at hk
    rw [recordAt_write _ _ hlt] at hk
    split at hk
    · exact (hparts _ k hk).imp_right Or.inl
    · exact Or.inl hk
  case others => exact fun m _ => rfl
  case target => exact fun other hother => ⟨other.look, hother, Or.inl rfl⟩

/-- What is read in the other tables of the member stays. -/
theorem read_write_other (howned : s.Owned) (hn : s.holdings[n]? = some holding) {other : Slot}
    (hne : other ≠ slot) (f : Record → Record) :
    (s.store.write (holding.tables slot) f).read (holding.tables other) other =
      s.store.read (holding.tables other) other := by
  refine (howned.alike_write ⟨n, holding, slot, hn, rfl⟩ f ?_).read other
  exact fun heq => hne (howned.alone n n holding holding other slot hn hn heq).2

theorem lookAt_write (howned : s.Owned) (hn : s.holdings[n]? = some holding)
    (slot : Slot) (f : Record → Record) :
    (s.store.write (holding.tables slot) f).lookAt holding.look = s.store.lookAt holding.look := by
  refine (howned.alike_write ⟨n, holding, slot, hn, rfl⟩ f ?_).lookAt
  intro heq
  refine blank_kind_ne_look slot ?_
  rw [← (howned.tables n holding slot hn).2, ← heq, (howned.looks n holding hn).2]

end Write

end Shelves

namespace Store

variable {s s' : Store} {t r : Nat} {key : String}

/-- A table after a record was put in under a key. -/
theorem map_tableAt_insert {α : Type} {see : Store → Nat → α}
    (hsee : ∀ k, s.Alike k s' k → see s' k = see s k)
    (hrecord : s'.recordAt t = (s.recordAt t).insertRecord key r)
    (hkind : (s.recordAt t).kind = .table) (hparts : ∀ k ∈ (s.recordAt t).parts, s.Alike k s' k)
    (hr : s.Alike r s' r) :
    (s'.tableAt t).map (see s') = ((s.tableAt t).map (see s)).insert key (see s r) := by
  unfold tableAt
  rw [hrecord]
  cases htable : s.recordAt t with
  | table entries =>
    rw [htable] at hparts
    simp only [Record.insertRecord]
    rw [OrderedMap.map_insert, hsee r hr]
    rw [OrderedMap.map_congr fun k hk => hsee k (hparts k hk)]
  | _ => rw [htable] at hkind; cases hkind

theorem map_looksAt_insert {look : Option Nat}
    (hrecord : s'.recordAt t = (s.recordAt t).insertLook key look)
    (hkind : (s.recordAt t).kind = .looks) (hparts : ∀ k ∈ (s.recordAt t).parts, s.Alike k s' k)
    (hlook : ∀ k ∈ look, s.Alike k s' k) :
    (s'.looksAt t).map (Option.map s'.lookAt) =
      ((s.looksAt t).map (Option.map s.lookAt)).insert key (look.map s.lookAt) := by
  have hmap : ∀ part : Option Nat, (∀ k ∈ part, s.Alike k s' k) →
      part.map s'.lookAt = part.map s.lookAt := by
    intro part hpart
    cases part with
    | none => rfl
    | some k => exact congrArg some (hpart k rfl).lookAt
  unfold looksAt
  rw [hrecord]
  cases htable : s.recordAt t with
  | looks entries =>
    rw [htable] at hparts
    simp only [Record.insertLook]
    rw [OrderedMap.map_insert, hmap look hlook]
    rw [OrderedMap.map_congr fun part hpart => hmap part fun k hk =>
      hparts k (List.reduceOption_mem_iff.mpr (hk ▸ hpart))]
  | _ => rw [htable] at hkind; cases hkind

end Store

namespace Shelves

variable {s s' : Shelves} {n : Nat} {slot : Slot} {holding : Holding}

/-- A style must be one. -/
def Suits (s : Shelves) : Gift → Prop
  | .look r => (s.store.recordAt r).kind = .look
  | _ => True

section Put

variable (howned : s.Owned) (hn : s.holdings[n]? = some holding)

include howned hn

/-- The table that was changed, and the records that were in it or are put in. -/
theorem alike_given (slot : Slot) {given : List Nat} (hgiven : s.Given given) (f : Record → Record) :
    ∀ k ∈ (s.store.recordAt (holding.tables slot)).parts ++ given,
      s.store.Alike k (s.store.write (holding.tables slot) f) k := by
  intro k hk
  refine howned.alike_write ⟨n, holding, slot, hn, rfl⟩ f ?_
  rintro rfl
  rcases List.mem_append.mp hk with hold | hnew
  · exact howned.apart _ ⟨n, holding, slot, hn, rfl⟩ _ hold
  · exact (hgiven _ hnew).2 ⟨n, holding, slot, hn, rfl⟩

theorem recordAt_written (f : Record → Record) :
    (s.store.write (holding.tables slot) f).recordAt (holding.tables slot) =
      f (s.store.recordAt (holding.tables slot)) := by
  rw [recordAt_write _ _ (howned.tables n holding slot hn).1, if_pos rfl]

/-- The contents with something else in one table. -/
def withTable (contents : Contents) : (slot : Slot) → slot.Content → Contents
  | .vertices, vertices => { contents with vertices := vertices }
  | .edges, edges => { contents with edges := edges }
  | .variableIds, ids => { contents with variableIds := ids }
  | .variableLooks, looks => { contents with variableLooks := looks }
  | .styles, styles => { contents with styles := styles }
  | .bindings, bindings => { contents with bindings := bindings }
  | .packages, packages => { contents with packages := packages }

theorem contents_write (slot : Slot) (f : Record → Record) (id name : String) :
    (s.store.write (holding.tables slot) f).contents holding id name =
      withTable (s.store.contents holding id name) slot
        ((s.store.write (holding.tables slot) f).read (holding.tables slot) slot) := by
  have hothers : ∀ other, other ≠ slot →
      (s.store.write (holding.tables slot) f).read (holding.tables other) other =
        s.store.read (holding.tables other) other :=
    fun other hne => read_write_other howned hn hne f
  unfold Store.contents
  rw [lookAt_write howned hn slot f]
  cases slot <;> simp [withTable, hothers]

theorem shows_write {f : Record → Record} {g : Contents → Contents}
    (hread : ∀ id name, withTable (s.store.contents holding id name) slot
      ((s.store.write (holding.tables slot) f).read (holding.tables slot) slot) =
        g (s.store.contents holding id name)) : s.Shows (s.write n slot f) n g := by
  intro found hfound
  obtain rfl : holding = found := Option.some.inj (hn.symm.trans hfound)
  rw [write_eq hn]
  exact ⟨holding, hn, fun id name => (contents_write howned hn slot f id name).trans (hread id name)⟩

/-- One more record in a table. -/
theorem puts_insertRecord (slot : Slot) {r : Nat} (hgiven : s.Given [r]) (key : String) :
    s.Puts (s.write n slot (.insertRecord key r)) n [r] := by
  refine puts_write howned hn hgiven (fun record => ?_) fun record k hk => ?_
  · cases record <;> rfl
  · cases record with
    | table entries =>
      exact (OrderedMap.mem_values_insert hk).symm.imp_right List.mem_singleton.mpr
    | _ => exact Or.inl hk

theorem tableAt_insertRecord {α : Type} (slot : Slot) (see : Store → Nat → α)
    (hsee : ∀ {s s' : Store} {k : Nat}, s.Alike k s' k → see s' k = see s k)
    (hslot : slot.blank.kind = .table) {r : Nat} (hgiven : s.Given [r]) (key : String) :
    ((s.store.write (holding.tables slot) (.insertRecord key r)).tableAt (holding.tables slot)).map
        (see (s.store.write (holding.tables slot) (.insertRecord key r))) =
      ((s.store.tableAt (holding.tables slot)).map (see s.store)).insert key (see s.store r) := by
  have halike := alike_given howned hn slot hgiven (.insertRecord key r)
  exact Store.map_tableAt_insert (fun _ hk => hsee hk) (recordAt_written howned hn _)
    ((howned.tables n holding slot hn).2.trans hslot)
    (fun k hk => halike k (List.mem_append_left _ hk)) (halike r (by simp))

theorem puts_without_record {f : Record → Record} (slot : Slot)
    (hkind : ∀ record, (f record).kind = record.kind)
    (hparts : ∀ record, (f record).parts = record.parts) : s.Puts (s.write n slot f) n [] :=
  puts_write howned hn (fun _ hk => nomatch hk) hkind fun record _ hk => Or.inl (hparts record ▸ hk)

omit hn in
/-- A record that has come and that nobody has is there to be given. -/
theorem given_push (record : Record) : (s.push [record]).Given [s.store.size] := by
  have hsize : (s.push [record]).store.size = s.store.size + 1 := Store.size_push ..
  intro k hk
  obtain rfl := List.mem_singleton.mp hk
  refine ⟨by omega, ?_⟩
  rintro ⟨m, other, slot, hm, heq⟩
  exact absurd (howned.tables m other slot hm).1 (by omega)

omit hn in
theorem puts_push {record : Record} (hparts : record.parts = []) (n : Nat) :
    s.Puts (s.push [record]) n [] := by
  have hnone : ∀ other ∈ [record], ∀ k ∈ other.parts, False := by
    intro other hother k hk
    rw [List.mem_singleton.mp hother, hparts] at hk
    cases hk
  constructor
  case owned => exact howned.push fun other hother k hk => (hnone other hother k hk).elim
  case length => rfl
  case size => exact Nat.le_trans (Nat.le_add_right ..) (Nat.le_of_eq (Store.size_push ..).symm)
  case kept => exact fun r hr _ => Store.recordAt_push_old _ hr
  case parts =>
    intro r k hk
    rcases Store.mem_parts_push hk with ⟨-, hold⟩ | ⟨other, hother, hnew⟩
    · exact Or.inl hold
    · exact (hnone other hother k hnew).elim
  case others => exact fun m _ => rfl
  case target => exact fun other hother => ⟨other.look, hother, Or.inl rfl⟩

/-- A list of tags is put in as a record of its own. -/
theorem put_binding (keyword : String) (tags : List Path) :
    s.Puts (s.put n (.binding keyword tags)) n [] ∧
      s.Shows (s.put n (.binding keyword tags)) n (·.bindStyle keyword tags) := by
  have hpushed : s.Puts (s.push [.tags tags]) n [] := puts_push howned rfl n
  have hn' : (s.push [.tags tags]).holdings[n]? = some holding := hn
  have hgiven := given_push howned (.tags tags)
  have hputs := puts_insertRecord hpushed.owned hn' .bindings hgiven keyword
  have hread : (s.push [.tags tags]).store.tagsAt s.store.size = tags := by
    unfold Store.tagsAt Shelves.push
    dsimp only
    rw [← Nat.add_zero s.store.size, Store.recordAt_push_new _ (by simp)]
    rfl
  constructor
  · -- the record that is given has come with the list, and is no style
    refine { hpushed.trans hputs with
      parts := fun r k hk => ((hpushed.trans hputs).parts r k hk).imp_right fun hnew =>
        Or.inr (hnew.elim (fun hlist => Nat.le_of_eq (List.mem_singleton.mp hlist).symm) id)
      target := fun other hother => ⟨other.look, ?_, Or.inl rfl⟩ }
    change ((s.push [.tags tags]).write n .bindings _).holdings[n]? = _
    rw [write_eq hn']
    exact hother
  · have htable := tableAt_insertRecord hpushed.owned hn' .bindings Store.tagsAt
      Store.Alike.tagsAt rfl hgiven keyword
    rw [hread] at htable
    have hlater : (s.push [.tags tags]).Shows (s.put n (.binding keyword tags)) n
        (·.bindStyle keyword tags) :=
      shows_write hpushed.owned hn' fun id name => congrArg (withTable _ .bindings) htable
    intro found hfound
    obtain ⟨later, hfind, heq⟩ := hlater found hfound
    exact ⟨later, hfind, fun id name => (heq id name).trans
      (by rw [howned.contents_push _ hfound])⟩

theorem put_valueLook {look : Option Nat} (hgiven : s.Given look.toList) (name : String) :
    s.Puts (s.put n (.valueLook name look)) n look.toList ∧
      s.Shows (s.put n (.valueLook name look)) n
        (·.setVariableLook name (look.map s.store.lookAt)) := by
  have halike := alike_given howned hn .variableLooks hgiven (.insertLook name look)
  constructor
  · refine puts_write howned hn hgiven (fun record => ?_) fun record k hk => ?_
    · cases record <;> rfl
    · cases record with
      | looks entries =>
        rcases OrderedMap.mem_values_insert (List.reduceOption_mem_iff.mp hk) with hnew | hold
        · exact Or.inr (Option.mem_toList.mpr hnew.symm)
        · exact Or.inl (List.reduceOption_mem_iff.mpr hold)
      | _ => exact Or.inl hk
  · refine shows_write howned hn fun id key => congrArg (withTable _ .variableLooks) ?_
    exact Store.map_looksAt_insert (recordAt_written howned hn _)
      (howned.tables n holding .variableLooks hn).2
      (fun k hk => halike k (List.mem_append_left _ hk))
      fun k hk => halike k (List.mem_append_right _ (Option.mem_toList.mpr hk))

theorem put_value (name id : String) : s.Puts (s.put n (.value name id)) n [] ∧
    s.Shows (s.put n (.value name id)) n (·.bindVariable name id) := by
  constructor
  · refine puts_without_record howned hn .variableIds (fun record => ?_) fun record => ?_ <;>
      cases record <;> rfl
  · refine shows_write howned hn fun _ _ => congrArg (withTable _ .variableIds) ?_
    change Store.textsAt _ _ = (s.store.textsAt (holding.tables .variableIds)).insert name id
    have hkind := (howned.tables n holding .variableIds hn).2
    unfold Store.textsAt
    rw [recordAt_written howned hn]
    cases htable : s.store.recordAt (holding.tables .variableIds) with
    | texts entries => rfl
    | _ => rw [htable] at hkind; cases hkind

theorem put_package (location : String) : s.Puts (s.put n (.package location)) n [] ∧
    s.Shows (s.put n (.package location)) n (·.addPackage location) := by
  constructor
  · refine puts_without_record howned hn .packages (fun record => ?_) fun record => ?_ <;>
      cases record <;> rfl
  · refine shows_write howned hn fun id name => ?_
    have hkind := (howned.tables n holding .packages hn).2
    have hread : (s.store.write (holding.tables .packages) (.insertLocation location)).read
        (holding.tables .packages) .packages =
          if location ∈ s.store.locationsAt (holding.tables .packages) then
            s.store.locationsAt (holding.tables .packages)
          else s.store.locationsAt (holding.tables .packages) ++ [location] := by
      unfold Store.read Store.locationsAt
      rw [recordAt_written howned hn]
      cases htable : s.store.recordAt (holding.tables .packages) with
      | locations items => rfl
      | _ => rw [htable] at hkind; cases hkind
    rw [hread]
    have hheld : (s.store.contents holding id name).packages =
        s.store.locationsAt (holding.tables .packages) := rfl
    unfold Contents.addPackage
    rw [hheld]
    split <;> rfl

omit howned hn in
theorem getElem?_put_look (r m : Nat) : (s.put n (.look r)).holdings[m]? =
    (s.holdings[m]?).map fun found => if n = m then { found with look := r } else found :=
  List.getElem?_modify ..

omit hn in
/-- Tables are nobody's style, so that they stay as they are. -/
theorem owned_put_look {r : Nat} (hgiven : s.Given [r])
    (hkind : (s.store.recordAt r).kind = .look) : (s.put n (.look r)).Owned := by
  have hold : ∀ {m : Nat} {found : Holding}, (s.put n (.look r)).holdings[m]? = some found →
      ∃ before : Holding, s.holdings[m]? = some before ∧ found.tables = before.tables ∧
        (found.look = before.look ∨ found.look = r) := by
    intro m found hm
    rw [getElem?_put_look] at hm
    obtain ⟨before, hbefore, rfl⟩ := Option.map_eq_some_iff.mp hm
    refine ⟨before, hbefore, ?_, ?_⟩ <;> split <;> simp
  constructor
  case bound => exact howned.bound
  case looks =>
    intro m found hm
    obtain ⟨before, hbefore, -, hlook | hlook⟩ := hold hm
    · rw [hlook]
      exact howned.looks m before hbefore
    · rw [hlook]
      exact ⟨(hgiven r (List.mem_singleton_self r)).1, hkind⟩
  case tables =>
    intro m found slot hm
    obtain ⟨before, hbefore, htables, -⟩ := hold hm
    rw [htables]
    exact howned.tables m before slot hbefore
  case alone =>
    intro m j found other slot slot' hm hj heq
    obtain ⟨before, hbefore, htables, -⟩ := hold hm
    obtain ⟨before', hbefore', htables', -⟩ := hold hj
    rw [htables, htables'] at heq
    exact howned.alone m j before before' slot slot' hbefore hbefore' heq
  case apart =>
    rintro t ⟨m, found, slot, hm, rfl⟩
    obtain ⟨before, hbefore, htables, -⟩ := hold hm
    rw [htables]
    exact howned.apart _ ⟨m, before, slot, hbefore, rfl⟩

theorem put_look {r : Nat} (hgiven : s.Given [r]) (hkind : (s.store.recordAt r).kind = .look) :
    s.Puts (s.put n (.look r)) n [r] ∧
      s.Shows (s.put n (.look r)) n ({ · with look := s.store.lookAt r }) := by
  have hself := getElem?_put_look (s := s) (n := n) r n
  rw [hn, Option.map_some, if_pos rfl] at hself
  constructor
  · constructor
    case owned => exact owned_put_look howned hgiven hkind
    case length => exact List.length_modify ..
    case size => exact Nat.le_refl _
    case kept => exact fun _ _ _ => rfl
    case parts => exact fun _ _ hk => Or.inl hk
    case others =>
      intro m hm
      rw [getElem?_put_look]
      simp [Ne.symm hm]
    case target =>
      intro other hother
      obtain rfl : holding = other := Option.some.inj (hn.symm.trans hother)
      exact ⟨r, hself, Or.inr (List.mem_singleton_self r)⟩
  · intro other hother
    obtain rfl : holding = other := Option.some.inj (hn.symm.trans hother)
    exact ⟨_, hself, fun _ _ => rfl⟩

/-- What is put into a member is read there, and its tables are the only ones that change. -/
theorem put_spec {gift : Gift} (hgiven : s.Given gift.records) (hsuits : s.Suits gift) :
    s.Puts (s.put n gift) n gift.records ∧
      s.Shows (s.put n gift) n (gift.item s.store).put := by
  cases gift with
  | vertex r =>
    refine ⟨puts_insertRecord howned hn .vertices hgiven _,
      shows_write howned hn fun id name => congrArg (withTable _ .vertices) ?_⟩
    exact tableAt_insertRecord howned hn .vertices Store.vertexAt Store.Alike.vertexAt rfl hgiven _
  | edge r =>
    refine ⟨puts_insertRecord howned hn .edges hgiven _,
      shows_write howned hn fun id name => congrArg (withTable _ .edges) ?_⟩
    exact tableAt_insertRecord howned hn .edges Store.edgeAt Store.Alike.edgeAt rfl hgiven _
  | style key r =>
    refine ⟨puts_insertRecord howned hn .styles hgiven _,
      shows_write howned hn fun id name => congrArg (withTable _ .styles) ?_⟩
    exact tableAt_insertRecord howned hn .styles Store.textsAt Store.Alike.textsAt rfl hgiven _
  | value name id => exact put_value howned hn name id
  | valueLook name look => exact put_valueLook howned hn hgiven name
  | binding keyword tags => exact put_binding howned hn keyword tags
  | package location => exact put_package howned hn location
  | look r => exact put_look howned hn hgiven hsuits

end Put

section Absorb

theorem puts_refl (howned : s.Owned) (n : Nat) : s.Puts s n [] where
  owned := howned
  length := rfl
  size := Nat.le_refl _
  kept _ _ _ := rfl
  parts _ _ hk := Or.inl hk
  others _ _ := rfl
  target holding hn := ⟨holding.look, hn, Or.inl rfl⟩

/-- Records that are given show the same after something was put in. -/
theorem Puts.item_eq {given : List Nat} (hputs : s.Puts s' n given) (howned : s.Owned)
    {gift : Gift} (hgiven : s.Given gift.records) :
    gift.item s'.store = gift.item s.store := by
  have halike : ∀ k ∈ gift.records, s.store.Alike k s'.store k :=
    fun k hk => hputs.alike howned (hgiven k hk).1 (hgiven k hk).2
  cases gift with
  | vertex r => exact congrArg Item.vertex (halike r (by simp [Gift.records])).vertexAt
  | edge r => exact congrArg Item.edge (halike r (by simp [Gift.records])).edgeAt
  | style name r => exact congrArg (Item.style name) (halike r (by simp [Gift.records])).textsAt
  | look r => exact congrArg Item.look (halike r (by simp [Gift.records])).lookAt
  | valueLook name look =>
    cases look with
    | none => rfl
    | some r =>
      exact congrArg (fun given => Item.valueLook name (some given))
        (halike r (by simp [Gift.records])).lookAt
  | _ => rfl

theorem Puts.suits {given : List Nat} (hputs : s.Puts s' n given) (howned : s.Owned) {gift : Gift}
    (hgiven : s.Given gift.records) (hsuits : s.Suits gift) : s'.Suits gift := by
  cases gift with
  | look r =>
    obtain ⟨hlt, hfree⟩ := hgiven r (by simp [Gift.records])
    exact (hputs.alike howned hlt hfree).kind.trans hsuits
  | _ => trivial

/-- Putting in one after the other. -/
theorem put_all (gifts : List Gift) (howned : s.Owned) (hn : s.holdings[n]? = some holding)
    (hgiven : ∀ gift ∈ gifts, s.Given gift.records) (hsuits : ∀ gift ∈ gifts, s.Suits gift) :
    s.Puts (gifts.foldl (·.put n ·) s) n (gifts.flatMap Gift.records) ∧
      s.Shows (gifts.foldl (·.put n ·) s) n fun contents =>
        (gifts.map (·.item s.store)).foldl Item.put contents := by
  induction gifts generalizing s holding with
  | nil => exact ⟨puts_refl howned n, fun found hfound => ⟨found, hfound, fun _ _ => rfl⟩⟩
  | cons gift rest ih =>
    obtain ⟨hfirst, hrest⟩ := List.forall_mem_cons.mp hgiven
    obtain ⟨hfits, hsuit⟩ := List.forall_mem_cons.mp hsuits
    obtain ⟨hputs, hshows⟩ := put_spec howned hn hfirst hfits
    obtain ⟨look, hlook, -⟩ := hputs.target holding hn
    obtain ⟨hputs', hshows'⟩ := ih hputs.owned hlook
      (fun other hother => hputs.given_mono (hrest other hother))
      fun other hother => hputs.suits howned (hrest other hother) (hsuit other hother)
    have hentries : rest.map (·.item (s.put n gift).store) = rest.map (·.item s.store) :=
      List.map_congr_left fun other hother => hputs.item_eq howned (hrest other hother)
    rw [hentries] at hshows'
    exact ⟨hputs.trans hputs', hshows.trans hshows'⟩

/-- The records that a member gives are those that its tables hold. -/
theorem part_of_gift {store : Store} {gift : Gift} (hgift : gift ∈ gifts store holding) {r : Nat}
    (hr : r ∈ gift.records) : ∃ slot, r ∈ (store.recordAt (holding.tables slot)).parts := by
  have htable : ∀ slot, ∀ k ∈ (store.tableAt (holding.tables slot)).values,
      k ∈ (store.recordAt (holding.tables slot)).parts := by
    intro slot k hk
    unfold Store.tableAt at hk
    cases hrecord : store.recordAt (holding.tables slot) with
    | table entries =>
      rw [hrecord] at hk
      exact hk
    | _ => rw [hrecord] at hk; cases hk
  have hlooks : ∀ entry ∈ (store.looksAt (holding.tables .variableLooks)).entries,
      ∀ k ∈ entry.2, k ∈ (store.recordAt (holding.tables .variableLooks)).parts := by
    intro entry hentry k hk
    unfold Store.looksAt at hentry
    cases hrecord : store.recordAt (holding.tables .variableLooks) with
    | looks entries =>
      rw [hrecord] at hentry
      exact List.reduceOption_mem_iff.mpr (OrderedMap.mem_values.mpr ⟨entry.1, hk ▸ hentry⟩)
    | _ => rw [hrecord] at hentry; cases hentry
  simp only [gifts, List.mem_append, List.mem_map] at hgift
  rcases hgift with (((((⟨k, hk, rfl⟩ | ⟨k, hk, rfl⟩) | ⟨entry, hentry, rfl⟩) | ⟨entry, -, rfl⟩) |
    ⟨entry, -, rfl⟩) | ⟨entry, hentry, rfl⟩) | ⟨location, -, rfl⟩
  · exact ⟨.vertices, List.mem_singleton.mp hr ▸ htable .vertices k hk⟩
  · exact ⟨.edges, List.mem_singleton.mp hr ▸ htable .edges k hk⟩
  · refine ⟨.styles, List.mem_singleton.mp hr ▸ htable .styles entry.2 ?_⟩
    exact OrderedMap.mem_values.mpr ⟨entry.1, hentry⟩
  · cases hr
  · cases hr
  · exact ⟨.variableLooks, hlooks entry hentry r (Option.mem_toList.mp hr)⟩
  · cases hr

theorem gifts_suit (holding : Holding) : ∀ gift ∈ gifts s.store holding, s.Suits gift := by
  intro gift hgift
  simp only [gifts, List.mem_append, List.mem_map] at hgift
  rcases hgift with (((((⟨k, -, rfl⟩ | ⟨k, -, rfl⟩) | ⟨entry, -, rfl⟩) | ⟨entry, -, rfl⟩) |
    ⟨entry, -, rfl⟩) | ⟨entry, -, rfl⟩) | ⟨location, -, rfl⟩ <;> trivial

theorem gifts_given (howned : s.Owned) (holding : Holding) :
    ∀ gift ∈ gifts s.store holding, s.Given gift.records ∧ s.Suits gift := by
  refine fun gift hgift => ⟨fun r hr => ?_, gifts_suit holding gift hgift⟩
  obtain ⟨slot, hpart⟩ := part_of_gift hgift hr
  exact howned.given_parts _ r hpart

end Absorb

end Shelves

section Merge

variable (contents : Contents)

/-- Entries that are put in one after the other are merged into the map that they go into. -/
theorem foldl_entries {α : Type} {item : String → α → Item} (into : OrderedMap α → Contents)
    (hput : ∀ m key value, (item key value).put (into m) = into (m.insert key value))
    (entries : List (String × α)) (m : OrderedMap α) :
    (entries.map fun entry => item entry.1 entry.2).foldl Item.put (into m) =
      into (m.merge ⟨entries⟩) := by
  induction entries generalizing m with
  | nil => rfl
  | cons entry rest ih =>
    rw [List.map_cons, List.foldl_cons, hput, ih]
    rfl

theorem foldl_styles (entries : List (String × Properties)) :
    (entries.map fun entry => Item.style entry.1 entry.2).foldl Item.put contents =
      { contents with styles := contents.styles.merge ⟨entries⟩ } :=
  foldl_entries (fun styles => { contents with styles := styles }) (fun _ _ _ => rfl) entries
    contents.styles

theorem foldl_bindings (entries : List (String × List Path)) :
    (entries.map fun entry => Item.binding entry.1 entry.2).foldl Item.put contents =
      { contents with bindings := contents.bindings.merge ⟨entries⟩ } :=
  foldl_entries (fun bindings => { contents with bindings := bindings }) (fun _ _ _ => rfl) entries
    contents.bindings

theorem foldl_values (entries : List (String × String)) :
    (entries.map fun entry => Item.value entry.1 entry.2).foldl Item.put contents =
      { contents with variableIds := contents.variableIds.merge ⟨entries⟩ } :=
  foldl_entries (fun ids => { contents with variableIds := ids }) (fun _ _ _ => rfl) entries
    contents.variableIds

theorem foldl_valueLooks (entries : List (String × Option Look)) :
    (entries.map fun entry => Item.valueLook entry.1 entry.2).foldl Item.put contents =
      { contents with variableLooks := contents.variableLooks.merge ⟨entries⟩ } :=
  foldl_entries (fun looks => { contents with variableLooks := looks }) (fun _ _ _ => rfl) entries
    contents.variableLooks

theorem foldl_addPackage (locations : List String) :
    locations.foldl Contents.addPackage contents =
      { contents with packages := (locations.foldl Contents.addPackage contents).packages } := by
  induction locations generalizing contents with
  | nil => rfl
  | cons location rest ih =>
    rw [List.foldl_cons, ih]
    unfold Contents.addPackage
    split <;> rfl

/-- All that a member holds, entry by entry. -/
def Contents.items (contents : Contents) : List Item :=
  contents.vertices.values.map .vertex ++ contents.edges.values.map .edge ++
    contents.styles.entries.map (fun entry => .style entry.1 entry.2) ++
    contents.bindings.entries.map (fun entry => .binding entry.1 entry.2) ++
    contents.variableIds.entries.map (fun entry => .value entry.1 entry.2) ++
    contents.variableLooks.entries.map (fun entry => .valueLook entry.1 entry.2) ++
    contents.packages.map .package

/-- To merge is to put in all that the other one holds. -/
theorem foldl_items (other : Contents) :
    other.items.foldl Item.put contents = contents.merge other := by
  unfold Contents.items Contents.merge
  simp only [List.foldl_append, foldl_styles, foldl_bindings, foldl_values, foldl_valueLooks]
  simp only [List.foldl_map]
  generalize hadded : other.edges.values.foldl Contents.addEdge
    (other.vertices.values.foldl Contents.addVertex contents) = added
  have hpackages : (other.packages.foldl Contents.addPackage
      { added with
        styles := added.styles.merge other.styles
        bindings := added.bindings.merge other.bindings
        variableIds := added.variableIds.merge other.variableIds
        variableLooks := added.variableLooks.merge other.variableLooks }).packages =
      (other.packages.foldl Contents.addPackage added).packages :=
    Contents.packages_foldl_addPackage other.packages rfl
  subst hadded
  rw [← hpackages]
  exact foldl_addPackage _ other.packages

theorem gifts_items (store : Store) (holding : Holding) (id name : String) :
    (Shelves.gifts store holding).map (·.item store) =
      (store.contents holding id name).items := by
  simp only [Shelves.gifts, Contents.items, List.map_append, List.map_map, Store.contents,
    Store.read, OrderedMap.values_map]
  simp only [OrderedMap.map, List.map_map]
  rfl

end Merge

namespace Shelves

variable {s : Shelves} {n m : Nat} {holding given : Holding}

/-- A member that takes over what another one holds shows both merged. -/
theorem absorb_spec (howned : s.Owned) (hn : s.holdings[n]? = some holding)
    (hm : s.holdings[m]? = some given) :
    s.Puts (s.absorb n m) n ((gifts s.store given).flatMap Gift.records) ∧
      ∀ id name, s.Shows (s.absorb n m) n (·.merge (s.store.contents given id name)) := by
  have habsorb : s.absorb n m = (gifts s.store given).foldl (·.put n ·) s := by
    unfold absorb
    rw [hm]
  rw [habsorb]
  obtain ⟨hputs, hshows⟩ := put_all (gifts s.store given) howned hn
    (fun gift hgift => (gifts_given howned given gift hgift).1)
    fun gift hgift => (gifts_given howned given gift hgift).2
  refine ⟨hputs, fun id name => ?_⟩
  rw [gifts_items s.store given id name] at hshows
  simpa only [foldl_items] using hshows

end Shelves

end RecipeGraph.Graph
