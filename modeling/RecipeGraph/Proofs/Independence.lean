import RecipeGraph.Proofs.Absorption
import RecipeGraph.Proofs.Regions

/-!
Copies and their originals. What a copy leads to was made with it, so that the two have nothing in
common, and what is done without an argument that is connected with the one changes nothing that can
be told of it. A member that has been left alone can therefore be copied again with the same outcome.
-/
namespace RecipeGraph.Graph

namespace Hierarchy

variable {h h' : Hierarchy} {n k m : Nat} {way : List Nat} {D : Nat → Prop} {scope : Scope}

section Kept

/-- Documents depend on what is below, and on the depth only as far as it suffices. -/
theorem jsonWithin_congr {fuel fuel' : Nat}
    (hkept : ∀ way k, h.Descends n way k → h'.get? k = h.get? k)
    (hdeep : ∀ way k, h.Descends n way k → way.length < fuel ∧ way.length < fuel') :
    h'.jsonWithin fuel' n = h.jsonWithin fuel n := by
  induction fuel generalizing n fuel' with
  | zero => exact absurd (hdeep [] n .here).1 (Nat.lt_irrefl 0)
  | succ fuel ih =>
    cases fuel' with
    | zero => exact absurd (hdeep [] n .here).2 (Nat.lt_irrefl 0)
    | succ fuel' =>
      unfold jsonWithin
      rw [hkept [] n .here]
      cases hn : h.get? n with
      | none => rfl
      | some member =>
        have hchildren : member.children.values.map (h'.jsonWithin fuel') =
            member.children.values.map (h.jsonWithin fuel) := by
          refine List.map_congr_left fun k hk => ?_
          obtain ⟨id, hholds⟩ := holds_of_mem_values hn hk
          refine ih (fun way j hway => hkept _ j (hway.from_child hholds)) fun way j hway => ?_
          simpa using hdeep _ j (hway.from_child hholds)
        dsimp only
        rw [hchildren]

theorem Spares.symm (hspares : h.Spares h' D) (hclosed : h.Closed D) : h'.Spares h D :=
  ⟨fun k hk => (hspares.kept k hk).symm, hclosed⟩

theorem Spares.descends (hspares : h.Spares h' D) (hclosed : h.Closed D) (hn : D n)
    (hway : h.Descends n way k) : h'.Descends n way k := by
  induction hway with
  | here => exact .here
  | down hway hholds ih =>
    obtain ⟨member, hm, hmem⟩ := hholds
    have hkept := hspares.kept _ ((hclosed.descends hway).mp hn)
    exact ih.down ⟨member, hkept.trans hm, hmem⟩

theorem Spares.toJson (hspares : h.Spares h' D) (hclosed : h.Closed D) (hn : D n)
    (hfree : h.CircleFree n) (hlinked : h.Linked) (hlinked' : h'.Linked) :
    h'.toJson n = h.toJson n := by
  have hback := hspares.symm hclosed
  have hfree' : h'.CircleFree n := by
    intro way k hway way' hway'
    have hk := (hspares.closed.descends hway).mp hn
    exact hfree way k (hback.descends hspares.closed hn hway) way'
      (hback.descends hspares.closed hk hway')
  have hlt := hclosed.bound n hn
  have hlt' := hspares.closed.bound n hn
  refine jsonWithin_congr (fun way k hway => hspares.kept k ((hclosed.descends hway).mp hn))
    fun way k hway => ?_
  have hdeep := hfree.length_lt hlinked hlt hway
  have hdeep' := hfree'.length_lt hlinked' hlt' (hspares.descends hclosed hn hway)
  omega

/-- A lookup goes down and up, but never out of a closed set. -/
theorem Spares.resolve {α : Type} (hspares : h.Spares h' D) (hclosed : h.Closed D) (hn : D n)
    (field : Contents → OrderedMap α) (path : Path) :
    h'.resolve field n path = h.resolve field n path := by
  have hbelow : ∀ k, D k → h'.findBelow field path k = h.findBelow field path k := by
    intro k hk
    refine findBelow_congr field path fun way j hway => ?_
    rw [hspares.kept j ((hclosed.descends hway).mp hk)]
  unfold Hierarchy.resolve
  generalize [] = seen
  fun_induction resolveFrom h field path seen n with
  | case1 seen n hnone => exact resolveFrom_of_none ((hspares.kept n hn).trans hnone) ..
  | case2 seen n member hfind hseen =>
    rw [resolveFrom_of_get? ((hspares.kept n hn).trans hfind), if_pos hseen]
  | case3 seen n member hfind hseen value hvalue =>
    rw [resolveFrom_of_get? ((hspares.kept n hn).trans hfind), if_neg hseen, hbelow n hn, hvalue]
    rfl
  | case4 seen n member hfind hseen hvalue hparent =>
    rw [resolveFrom_of_get? ((hspares.kept n hn).trans hfind), if_neg hseen, hbelow n hn, hvalue,
      hparent]
    rfl
  | case5 seen n member hfind hseen hvalue parent hparent ih =>
    have hp : D parent := (hclosed.ties n parent (Or.inr ⟨member, hfind, hparent⟩)).mp hn
    rw [resolveFrom_of_get? ((hspares.kept n hn).trans hfind), if_neg hseen, hbelow n hn, hvalue,
      hparent]
    exact ih hp

end Kept

section Depicted

/-- The document of a member below a top is the document of the scope that it depicts. -/
theorem Depicts.jsonWithin {top fuel : Nat} (hforest : h.Forest) (htop : h.IsTop top)
    (hway : h.Descends top way n) (hscope : h.Depicts n scope)
    (hdeep : ∀ way k, h.Descends n way k → way.length < fuel) :
    h.jsonWithin fuel n = scope.jsonAt (way.map h.idAt) := by
  induction fuel generalizing n way scope with
  | zero => exact absurd (hdeep [] n .here) (Nat.lt_irrefl 0)
  | succ fuel ih =>
    obtain ⟨member, hn, hcontents, -, hchildren⟩ := hscope.find
    have hlineage := hforest.lineage top way n member htop hway hn
    have hinner : member.children.values.map (h.jsonWithin fuel) =
        Scope.jsonsAt (way.map h.idAt) scope.children := by
      have hheld : ∀ k ∈ member.children.values, ∃ id, h.Holds n id k :=
        fun k hk => holds_of_mem_values hn hk
      generalize member.children.values = ks, scope.children = children at hchildren hheld ⊢
      induction hchildren with
      | nil => rfl
      | @cons k child _ _ hchild _ ihRest =>
        obtain ⟨⟨id, hholds⟩, hrest⟩ := List.forall_mem_cons.mp hheld
        obtain ⟨found, hfound, -⟩ := hchild.find
        have hfirst := ih (hway.down hholds) hchild fun way j hway => by
          simpa using hdeep _ j (hway.from_child hholds)
        rw [List.map_append, List.map_singleton, idAt_of_get? hfound, ← hchild.id_eq hfound] at hfirst
        rw [List.map_cons, hfirst, ihRest hrest]
        rfl
    rw [← Scope.mk_eta scope]
    unfold Hierarchy.jsonWithin Scope.jsonAt
    rw [hn]
    dsimp only
    rw [hlineage, hinner, hcontents]

theorem TopDepicts.toJson (hforest : h.Forest) (htop : h.TopDepicts n scope) :
    h.toJson n = scope.toJson := by
  obtain ⟨member, hn, -⟩ := htop.top
  refine htop.depicts.jsonWithin hforest htop.top .here fun way k hway => ?_
  exact Nat.lt_succ_of_lt
    (htop.depicts.circleFree.length_lt hforest.linked (lt_of_get? hn) hway)

/-- From a top, nothing is found but what is below it. -/
theorem TopDepicts.resolve {α : Type} (hlinked : h.Linked) (htop : h.TopDepicts n scope)
    (field : Contents → OrderedMap α) (path : Path) :
    h.resolve field n path = scope.findBelow field path := by
  obtain ⟨member, hn, hparent⟩ := htop.top
  unfold Hierarchy.resolve
  rw [resolveFrom_of_get? hn, if_neg List.not_mem_nil, htop.depicts.findBelow hlinked field path,
    hparent]
  exact Option.or_none

end Depicted

/-- Nothing that is told of a member or of those below it is different. -/
structure Unchanged (h h' : Hierarchy) (n : Nat) : Prop where
  members : ∀ way k, h.Descends n way k → h'.get? k = h.get? k
  documents : ∀ way k, h.Descends n way k → h'.toJson k = h.toJson k
  lookups : ∀ way k, h.Descends n way k → ∀ (α : Type) (field : Contents → OrderedMap α)
    (path : Path), h'.resolve field k path = h.resolve field k path

/-- Two members without a parent of which the same is told. -/
structure SameContent (h : Hierarchy) (n : Nat) (h' : Hierarchy) (n' : Nat) : Prop where
  depicted : ∃ scope, h.TopDepicts n scope ∧ h'.TopDepicts n' scope
  document : h'.toJson n' = h.toJson n
  lookups : ∀ (α : Type) (field : Contents → OrderedMap α) (path : Path),
    h'.resolve field n' path = h.resolve field n path

theorem Spares.unchanged (hspares : h.Spares h' D) (hclosed : h.Closed D) (hn : D n)
    (hfree : h.CircleFree n) (hlinked : h.Linked) (hlinked' : h'.Linked) : h.Unchanged h' n := by
  have hin : ∀ way k, h.Descends n way k → D k :=
    fun way k hway => (hclosed.descends hway).mp hn
  have hfree' : ∀ way k, h.Descends n way k → h.CircleFree k := by
    intro way k hway
    induction hway with
    | here => exact hfree
    | down _ hholds ih => exact ih.of_child hholds
  exact {
    members := fun way k hway => hspares.kept k (hin way k hway)
    documents := fun way k hway => hspares.toJson hclosed (hin way k hway) (hfree' way k hway)
      hlinked hlinked'
    lookups := fun way k hway α field path =>
      hspares.resolve hclosed (hin way k hway) field path }

theorem TopDepicts.sameContent {n' : Nat} (hforest : h.Forest) (hforest' : h'.Forest)
    (htop : h.TopDepicts n scope) (htop' : h'.TopDepicts n' scope) : h.SameContent n h' n' where
  depicted := ⟨scope, htop, htop'⟩
  document := (htop'.toJson hforest').trans (htop.toJson hforest).symm
  lookups _ field path := (htop'.resolve hforest'.linked field path).trans
    (htop.resolve hforest.linked field path).symm

end Hierarchy

namespace Archive

variable {a b later : Archive} {n : Nat} {X : Object → Prop} {x y : Object}

/-- An object and all that it leads down to. -/
def Below (a : Archive) : Object → Object → Prop :=
  Relation.ReflTransGen a.Leads

theorem Below.connected (hbelow : a.Below x y) : a.Connected x y := by
  induction hbelow with
  | refl => exact .refl x
  | tail _ hleads ih => exact ih.trans _ _ _ (.rel _ _ (.down hleads))

/-- What is connected is in the same regions. -/
theorem Region.connected (hregion : a.Region X) (hconnected : a.Connected x y) : X x ↔ X y := by
  have hbound : ∀ x, X x → a.Has x := by
    rintro (k | r) hx
    · exact hregion.members.bound k hx
    · exact hregion.records.bound r hx
  induction hconnected with
  | rel x y htouches => exact (region_iff hbound).mp hregion x y htouches
  | refl => rfl
  | symm _ _ _ ih => exact ih.symm
  | trans _ _ _ _ _ ih ih' => exact ih.trans ih'

/-- Where objects have come, those that were there are a region. -/
theorem Extends.region (hextends : a.Extends b) (hsound : a.Sound) : b.Region a.Has := by
  refine (hextends.spares hsound ?_).region
  exact (region_iff fun _ hx => hx).mpr fun x y htouches =>
    iff_of_true (hsound.has_of_touches htouches).1 (hsound.has_of_touches htouches).2

section Copy

variable (hsound : a.Sound)

include hsound

/-- What is connected with a copy was made with it. -/
theorem Sound.new_of_connected_copy (hconnected : (a.copy n).Connected (.member a.size) x) :
    ¬ a.Has x :=
  fun hx => Nat.lt_irrefl a.size
    (((hsound.copyWithin _ n).2.region hsound).connected hconnected |>.mpr hx)

theorem Sound.topDepicts_copy {scope : Scope} (hscope : a.hierarchy.Depicts n scope) :
    (a.copy n).hierarchy.TopDepicts a.size scope.copy := by
  rw [hierarchy_copy]
  exact Hierarchy.topDepicts_copy hsound.forest hscope

end Copy

/-- What is told of one of the two is not changed by anything that is done without an argument that
is connected with it. -/
theorem Runs.unchanged (hruns : Runs (a.Connected (.member n)) a later) (hsound : a.Sound)
    (hn : n < a.size) (hfree : a.hierarchy.CircleFree n) :
    later.Sound ∧ a.hierarchy.Unchanged later.hierarchy n := by
  have hregion := hsound.region (x := .member n) hn
  obtain ⟨hlater, hspares⟩ := hruns.spares hsound hregion
  exact ⟨hlater, hspares.hierarchy.unchanged hregion.members (.refl _) hfree hsound.forest.linked
    hlater.forest.linked⟩

/-- A copy and its original have nothing in common. Whatever is done with no argument that is
connected with the one of them leaves all that is told of it as it was, and a copy that is made of
the original later is as the first one was. -/
theorem copy_independent (hreached : a.Reached) (hn : n < a.size)
    (hfree : a.hierarchy.CircleFree n) :
    (∀ x, (a.copy n).Below (.member a.size) x → ¬ (a.copy n).Below (.member n) x) ∧
      (∀ x, (a.copy n).Connected (.member a.size) x → ¬ a.Has x) ∧
      (∀ side ∈ [n, a.size], ∀ later,
        Runs ((a.copy n).Connected (.member side)) (a.copy n) later →
          (a.copy n).hierarchy.Unchanged later.hierarchy side) ∧
      ∀ later, Runs ((a.copy n).Connected (.member n)) (a.copy n) later →
        (a.copy n).hierarchy.SameContent a.size (later.copy n).hierarchy later.size := by
  have hsound := hreached.sound
  obtain ⟨hcopied, hextends⟩ := hsound.copyWithin (a.size + 1) n
  obtain ⟨scope, hscope⟩ := Hierarchy.exists_depicts hsound.forest.linked hfree hn
  have hcopy := hsound.topDepicts_copy hscope
  have hkept : (a.copy n).hierarchy.Depicts n scope := hscope.grown hextends.hierarchy
  obtain ⟨member, hmember, -⟩ := hcopy.top
  refine ⟨fun x hbelow hbelow' => ?_, fun x => hsound.new_of_connected_copy,
    fun side hside later hruns => ?_, fun later hruns => ?_⟩
  · have hold : a.Has x := ((hextends.region hsound).connected hbelow'.connected).mp hn
    exact hsound.new_of_connected_copy hbelow.connected hold
  · rcases List.mem_pair.mp hside with rfl | rfl
    · exact (hruns.unchanged hcopied (Nat.lt_of_lt_of_le hn hextends.hierarchy.size)
        hkept.circleFree).2
    · exact (hruns.unchanged hcopied (Hierarchy.lt_of_get? hmember) hcopy.depicts.circleFree).2
  · obtain ⟨hlater, hunchanged⟩ := hruns.unchanged hcopied
      (Nat.lt_of_lt_of_le hn hextends.hierarchy.size) hkept.circleFree
    have hscope' : later.hierarchy.Depicts n scope := hkept.congr fun way k hway => by
      rw [hunchanged.members way k hway]
    exact hcopy.sameContent hcopied.forest (hlater.copyWithin _ n).1.forest
      (hlater.topDepicts_copy hscope')

section Fixed

/-- A style, for members to come. -/
def styled : Archive :=
  (Deed.make (.look 0 1)).apply ((Deed.make (.texts {})).apply ((Deed.make (.tags [])).apply {}))

/-- As long as there are no members, there are no tables. -/
theorem given_of_no_holdings {s : Shelves} (hnone : s.holdings = []) {ks : List Nat}
    (hks : ∀ k ∈ ks, k < s.store.size) : s.Given ks := by
  refine fun k hk => ⟨hks k hk, ?_⟩
  rintro ⟨n, holding, slot, hn, -⟩
  rw [hnone] at hn
  cases hn

theorem reached_styled : styled.Reached := by
  refine ((Reached.start.after ?_).after ?_).after ?_
  · exact List.forall_mem_nil _
  · exact List.forall_mem_nil _
  · exact given_of_no_holdings rfl (by decide)

/-- Member 1 lies below member 0, and a variable stands for `n` in it. -/
def family : Archive :=
  (Deed.put 1 (.value "x" "n")).apply
    ((Deed.add "d" "a" 2 (some 0)).apply ((Deed.add "p" "" 2 none).apply styled))

theorem reached_family : family.Reached := by
  refine ((reached_styled.after ?_).after ?_).after ?_
  · exact ⟨by cbv, by cbv, by simp⟩
  · refine ⟨by cbv, by cbv, fun p hp => ?_⟩
    cases hp
    cbv
  · exact ⟨by cbv, List.forall_mem_nil _, trivial⟩

theorem circleFree_family : family.hierarchy.CircleFree 1 := by
  have hnone : (family.hierarchy.get? 1).map (·.children.values) = some [] := by cbv
  obtain ⟨scope, hscope⟩ := Hierarchy.exists_depicts_of_children hnone .nil
  exact hscope.circleFree

/-- The copy of member 1 gets another value under the same name. -/
theorem copy_independent_family :
    family.Reached ∧ 1 < family.size ∧ family.hierarchy.CircleFree 1 ∧
      (((family.copy 1).put 2 (.value "x" "m")).hierarchy.resolve Contents.variableIds 1 ["x"]) =
        some "n" := by
  have hlt : 1 < family.size := by cbv
  obtain ⟨-, hnew, hsides, -⟩ := copy_independent reached_family hlt circleFree_family
  have hruns : Runs ((family.copy 1).Connected (.member 1)) (family.copy 1)
      ((Deed.put 2 (.value "x" "m")).apply (family.copy 1)) := by
    refine Runs.refl.step ⟨by cbv, List.forall_mem_nil _, trivial⟩
      ⟨fun k hk hin => ?_, List.forall_mem_nil _⟩
    obtain rfl := List.mem_singleton.mp hk
    have hsize : family.size = 2 := by cbv
    exact hnew (.member 1) (hsize ▸ hin.symm) hlt
  have hsame := (hsides 1 (List.mem_cons_self ..) _ hruns).lookups [] 1 .here _
    Contents.variableIds ["x"]
  exact ⟨reached_family, hlt, circleFree_family, hsame.trans (by cbv)⟩

/-- A member without children has records below it, but no other members. -/
theorem Below.eq_of_childless {k : Nat}
    (hnone : (a.hierarchy.get? n).map (·.children.values) = some [])
    (hbelow : a.Below (.member n) (.member k)) : k = n := by
  have hchildless : ∀ id k, ¬ a.hierarchy.Holds n id k := by
    rintro id k ⟨member, hn, hmem⟩
    rw [hn, Option.map_some, Option.some.injEq] at hnone
    exact List.not_mem_nil (hnone ▸ OrderedMap.mem_values.mpr ⟨id, hmem⟩)
  suffices hall : ∀ x, a.Below (.member n) x → x = .member n ∨ ∃ r, x = .record r by
    rcases hall _ hbelow with heq | ⟨r, heq⟩ <;> cases heq
    rfl
  intro x hx
  induction hx with
  | refl => exact Or.inl rfl
  | tail _ hleads ih =>
    cases hleads with
    | child hholds =>
      rcases ih with heq | ⟨r, heq⟩ <;> cases heq
      exact absurd hholds (hchildless _ _)
    | kept => exact Or.inr ⟨_, rfl⟩
    | part => exact Or.inr ⟨_, rfl⟩

/-- Member 0 holds vertex record 3, which member 1 has taken over. -/
def sharing : Archive :=
  (Deed.merge 1 0).apply ((Deed.add "e" "" 2 none).apply ((Deed.put 0 (.vertex 3)).apply
    ((Deed.add "d" "" 2 none).apply ((Deed.make (.vertex "v" "" 0 1)).apply styled))))

theorem reached_sharing : sharing.Reached := by
  have hmade : Archive.Reached ((Deed.add "d" "" 2 none).apply
      ((Deed.make (.vertex "v" "" 0 1)).apply styled)) := by
    refine (reached_styled.after ?_).after ⟨by cbv, by cbv, by simp⟩
    exact given_of_no_holdings rfl (by decide)
  refine ((hmade.after ?_).after ?_).after ?_
  · refine ⟨by cbv, fun k hk => ?_, trivial⟩
    obtain rfl := List.mem_singleton.mp hk
    refine ⟨by cbv, ?_⟩
    rintro ⟨n, holding, slot, hn, htable⟩
    have hkind := (hmade.sound.owned.tables n holding slot hn).2
    rw [htable] at hkind
    have hvertex : (((Deed.add "d" "" 2 none).apply
        ((Deed.make (.vertex "v" "" 0 1)).apply styled)).shelves.store.recordAt 3).kind =
          .vertex := by cbv
    rw [hvertex] at hkind
    cases slot <;> cases hkind
  · exact ⟨by cbv, by cbv, by simp⟩
  · exact ⟨by cbv, by cbv⟩

/-- The copy gets another value and is put where its original is. -/
theorem runs_family : Runs ((family.copy 1).Below (.member 1)) (family.copy 1)
    ((Deed.move 2 (some 0)).apply ((Deed.put 2 (.value "x" "m")).apply (family.copy 1))) := by
  have hoff : ∀ n, n ≠ 1 → ¬ (family.copy 1).Below (.member 1) (.member n) :=
    fun n hn hbelow => hn (hbelow.eq_of_childless (by cbv))
  refine (Runs.refl.step ?_ ⟨?_, ?_⟩).step ?_ ⟨?_, List.forall_mem_nil _⟩
  · exact ⟨by cbv, List.forall_mem_nil _, trivial⟩
  · intro k hk
    obtain rfl := List.mem_singleton.mp hk
    exact hoff 2 (by decide)
  · exact List.forall_mem_nil _
  · refine ⟨by cbv, fun p hp => ?_⟩
    cases hp
    cbv
  · intro k hk
    rcases List.mem_pair.mp hk with rfl | rfl
    · exact hoff 2 (by decide)
    · exact hoff 0 (by decide)

/-- It is not enough that no argument is below the original. Its lookups change when the copy is put
where it is, and it changes itself when the copy takes over a record of it from someone else. -/
theorem copy_disturbs :
    (family.Reached ∧ 1 < family.size ∧ family.hierarchy.CircleFree 1 ∧
      ∃ later, Runs ((family.copy 1).Below (.member 1)) (family.copy 1) later ∧
        ¬ (family.copy 1).hierarchy.Unchanged later.hierarchy 1) ∧
      sharing.Reached ∧ 0 < sharing.size ∧ sharing.hierarchy.CircleFree 0 ∧
        (∀ n ∈ [2, 1], ¬ (sharing.copy 0).Below (.member 0) (.member n)) ∧
        (Deed.merge 2 1).Fits (sharing.copy 0) ∧
        (Deed.overwrite 3 (.vertex "v" "w" 0 1)).Fits ((sharing.copy 0).merge 2 1) ∧
        ((sharing.copy 0).merge 2 1).Below (.member 2) (.record 3) ∧
        ¬ (sharing.copy 0).hierarchy.Unchanged
          (((sharing.copy 0).merge 2 1).overwrite 3 (.vertex "v" "w" 0 1)).hierarchy 0 := by
  have hnone : (sharing.hierarchy.get? 0).map (·.children.values) = some [] := by cbv
  have hfree : sharing.hierarchy.CircleFree 0 := by
    obtain ⟨scope, hscope⟩ := Hierarchy.exists_depicts_of_children hnone .nil
    exact hscope.circleFree
  have hmerged : ((sharing.copy 0).merge 2 1).Reached :=
    (reached_sharing.after (show (Deed.copy 0).Fits sharing from ⟨by cbv, hfree⟩)).after
      (show (Deed.merge 2 1).Fits (sharing.copy 0) from ⟨by cbv, by cbv⟩)
  refine ⟨⟨reached_family, by cbv, circleFree_family, _, runs_family, fun hunchanged => ?_⟩,
    reached_sharing, by cbv, hfree, fun n hn hbelow => ?_, ?_, ?_, ?_, fun hunchanged => ?_⟩
  · have hsame := hunchanged.lookups [] 1 .here _ Contents.variableIds ["a", "x"]
    have hbefore : (family.copy 1).hierarchy.resolve Contents.variableIds 1 ["a", "x"] =
        some "n" := by cbv
    have hafter : ((Deed.move 2 (some 0)).apply ((Deed.put 2 (.value "x" "m")).apply
        (family.copy 1))).hierarchy.resolve Contents.variableIds 1 ["a", "x"] = some "m" := by cbv
    rw [hbefore, hafter] at hsame
    simp at hsame
  · have heq := hbelow.eq_of_childless (by cbv)
    simp [heq] at hn
  · exact ⟨by cbv, by cbv⟩
  · have hparts : (((sharing.copy 0).merge 2 1).shelves.store.recordAt 3).parts = [0, 1] := by cbv
    have hgiven := hmerged.sound.owned.given_parts 3
    rw [hparts] at hgiven
    exact ⟨by cbv, by cbv, hgiven⟩
  · have htable : (((sharing.copy 0).merge 2 1).shelves.holdings[2]?).map
        (fun holding => holding.tables .vertices) = some 21 := by cbv
    obtain ⟨holding, hfind, hslot⟩ := Option.map_eq_some_iff.mp htable
    have hkept : ((sharing.copy 0).merge 2 1).Leads (.member 2) (.record 21) :=
      .kept ⟨holding, hfind, Or.inr ⟨_, hslot⟩⟩
    have hparts : (((sharing.copy 0).merge 2 1).shelves.store.recordAt 21).parts = [3] := by cbv
    exact .tail (.single hkept) (.part (hparts ▸ List.mem_singleton_self 3))
  · have hsame := congrArg (Option.map fun member => member.contents.vertices.values.map Vertex.name)
      (hunchanged.members [] 0 .here)
    have hbefore : ((sharing.copy 0).hierarchy.get? 0).map
        (fun member => member.contents.vertices.values.map Vertex.name) = some [""] := by cbv
    have hafter : ((((sharing.copy 0).merge 2 1).overwrite 3
        (.vertex "v" "w" 0 1)).hierarchy.get? 0).map
          (fun member => member.contents.vertices.values.map Vertex.name) = some ["w"] := by cbv
    rw [hbefore, hafter] at hsame
    simp at hsame

end Fixed

end Archive

end RecipeGraph.Graph
