import RecipeGraph.Proofs.Endurance
import RecipeGraph.Proofs.Notes
import RecipeGraph.Proofs.Surroundings

/-!
A package that does not come is reported where it is asked for, and its location is noted there.
Apart from that nothing is different: whatever is remembered of the attempt, all packages come or
fail to come as they would have without it, and no id is used up.
-/
namespace RecipeGraph.Compile

open RecipeGraph.Graph Recipe Package

/-- The package could not be fetched when it was asked for, or was not asked for and cannot be
fetched. -/
def Barred (library : Library) (location : String) (fault : Fault) (world : World) : Prop :=
  world.cache.get? location = some (.loaded (.error fault)) ∨
    world.cache.get? location = none ∧ library.fetch location = .error fault

/-- Why a package does not come. -/
inductive Fails (library : Library) (chain : List String) (world : World) (location : String) :
    Prop
  | circular (h : location ∈ chain)
  | extension (h : location.endsWith fileExtension = false)
  | barred (fault : Fault) (h : Barred library location fault world)

/-- Worlds that only differ in what they remember of a package that does not come. -/
structure Spared (library : Library) (location : String) (fault : Fault) (world world' : World) :
    Prop where
  issued : world'.issued = world.issued
  elsewhere : ∀ there ≠ location, world'.cache.get? there = world.cache.get? there
  barred : Barred library location fault world
  barred' : Barred library location fault world'

section Spared

variable {idOf : Nat → String} {library : Library} {location : String} {fault : Fault}
  {world world' : World}

theorem get?_record (world : World) (there other : String) (entry : Entry) :
    (world.record there entry).cache.get? other =
      if there = other then some entry else world.cache.get? other :=
  OrderedMap.get?_insert ..

theorem Barred.record (h : Barred library location fault world) {there : String}
    (hother : there ≠ location) (entry : Entry) :
    Barred library location fault (world.record there entry) := by
  unfold Barred
  rw [get?_record, if_neg hother]
  exact h

theorem Spared.record (h : Spared library location fault world world') {there : String}
    (hother : there ≠ location) (entry : Entry) :
    Spared library location fault (world.record there entry) (world'.record there entry) where
  issued := h.issued
  elsewhere other hne := by
    rw [get?_record, get?_record, h.elsewhere other hne]
  barred := h.barred.record hother entry
  barred' := h.barred'.record hother entry

theorem Spared.noteFetch (h : Spared library location fault world world') (there : String) :
    Spared library location fault (world.noteFetch there) (world'.noteFetch there) :=
  ⟨h.issued, h.elsewhere, h.barred, h.barred'⟩

theorem Spared.trans {middle : World} (h : Spared library location fault world middle)
    (h' : Spared library location fault middle world') :
    Spared library location fault world world' where
  issued := h'.issued.trans h.issued
  elsewhere there hne := (h'.elsewhere there hne).trans (h.elsewhere there hne)
  barred := h.barred
  barred' := h'.barred'

theorem Spared.symm (h : Spared library location fault world world') :
    Spared library location fault world' world where
  issued := h.issued.symm
  elsewhere there hne := (h.elsewhere there hne).symm
  barred := h.barred'
  barred' := h.barred

/-- Whoever asks for the package is told the same, and nothing else is remembered for it. -/
theorem remember_barred (h : Barred library location fault world)
    (compile : String → World → Scope × World) :
    ∃ after, remember location (fetchWith library compile location) world =
        (.error fault, after) ∧ Spared library location fault world after := by
  rcases h with hfound | ⟨hnone, hfetch⟩
  · rw [remember_loaded hfound]
    exact ⟨world, rfl, rfl, fun _ _ => rfl, Or.inl hfound, Or.inl hfound⟩
  · rw [remember_unfetched hnone hfetch]
    refine ⟨_, rfl, rfl, fun there hne => ?_, Or.inr ⟨hnone, hfetch⟩, Or.inl ?_⟩
    · rw [get?_record, if_neg (Ne.symm hne)]
      exact (get?_record ..).trans (if_neg (Ne.symm hne))
    · rw [get?_record, if_pos rfl]

variable (library location fault) in
/-- The same comes on worlds that only differ in what they remember of the package. -/
def Indifferent (loader : Loader) : Prop :=
  ∀ {world world' : World}, Spared library location fault world world' → ∀ there chain,
    ∃ result after after', loader there chain world = (result, after) ∧
      loader there chain world' = (result, after') ∧ Spared library location fault after after'

theorem Indifferent.lawful {loader : Loader} (h : Indifferent library location fault loader)
    (idOf : Nat → String) (chain : List String) :
    Tandem.Lawful
      ⟨⟨idOf, chain, some loader⟩, Spared library location fault, Eq, [], []⟩ where
  issued h := h.issued
  issue h := ⟨congrArg (· + 1) h.issued, h.elsewhere, h.barred, h.barred'⟩
  load _ heq _ _ hspared there := Option.some.inj heq ▸ h hspared there chain
  harmless := Scope.harmless_eq

theorem Indifferent.packageScope {loader : Loader} (h : Indifferent library location fault loader)
    (hspared : Spared library location fault world world') (idOf : Nat → String)
    (there text : String) (chain : List String) :
    (packageScope idOf loader there text chain world').1 =
        (packageScope idOf loader there text chain world).1 ∧
      Spared library location fault (packageScope idOf loader there text chain world).2
        (packageScope idOf loader there text chain world').2 := by
  rw [packageScope_eq, packageScope_eq]
  generalize (Recipe.ofText text there).recipe.statements = statements
  have hlawful := h.lawful idOf chain
  have hlowered := (Tandem.statements hlawful).all statements .nil
    (Tandem.abreast_opening hlawful hspared rfl rfl)
  exact ⟨hlowered.scope.symm, hlowered.world⟩

/-- By induction over the depth to which packages nest. -/
theorem loadWithin_indifferent (depth : Nat) :
    Indifferent library location fault (loadWithin idOf library depth) := by
  induction depth with
  | zero =>
    intro world world' h there chain
    exact ⟨_, _, _, rfl, rfl, h⟩
  | succ depth ih =>
    intro world world' h there chain
    cases hrefusal : refusal? there chain with
    | some refusal =>
      rw [loadWithin_refused hrefusal, loadWithin_refused hrefusal]
      exact ⟨_, _, _, rfl, rfl, h⟩
    | none =>
      rw [loadWithin_admitted hrefusal, loadWithin_admitted hrefusal]
      by_cases hthere : there = location
      · subst hthere
        obtain ⟨after, hload, hafter⟩ := remember_barred h.barred
          fun text => packageScope idOf (loadWithin idOf library depth) there text (there :: chain)
        obtain ⟨after', hload', hafter'⟩ := remember_barred h.barred'
          fun text => packageScope idOf (loadWithin idOf library depth) there text (there :: chain)
        exact ⟨_, _, _, hload, hload', hafter.symm.trans (h.trans hafter')⟩
      · have hsame := h.elsewhere there hthere
        have hbegun : Spared library location fault (beginLoading there world)
            (beginLoading there world') := (h.record hthere .loading).noteFetch there
        generalize hrecalled : remember there _ world = recalled
        cases recalled_of_eq hrecalled with
        | loaded hfound =>
          rw [remember_loaded (hsame.trans hfound)]
          exact ⟨_, _, _, rfl, rfl, h⟩
        | loading hfound =>
          rw [remember_loading (hsame.trans hfound)]
          exact ⟨_, _, _, rfl, rfl, h⟩
        | unfetched hnone hfetch =>
          rw [remember_unfetched (hsame.trans hnone) hfetch]
          exact ⟨_, _, _, rfl, rfl, hbegun.record hthere _⟩
        | compiled hnone hfetch =>
          obtain ⟨hscope, hafter⟩ := ih.packageScope hbegun idOf there _ (there :: chain)
          rw [remember_compiled (hsame.trans hnone) hfetch, hscope]
          exact ⟨_, _, _, rfl, rfl, hafter.record hthere _⟩

end Spared

section Asking

/-- What is known of the worlds when a package is missed: all others come alike, and it does not
come. -/
structure Misses (compiler : Compiler) (chain : List String) (location : String)
    (agree : World → World → Prop) : Prop where
  lawful : Tandem.Lawful ⟨compiler.setting chain, agree, Eq, [], []⟩
  missed : ∀ {world}, agree world world → ∃ fault after,
    compiler.loader location chain world = (.error fault, after) ∧ agree after world

variable {compiler : Compiler} {chain : List String} {location : String} {world : World}

theorem misses_refused {refusal : Fault} (h : refusal? location chain = some refusal) :
    Misses compiler chain location Eq where
  lawful :=
    { issued := fun h => h ▸ rfl
      issue := fun h => h ▸ rfl
      load := fun _ _ _ _ h _ => h ▸ ⟨_, _, _, rfl, rfl, rfl⟩
      harmless := Scope.harmless_eq }
  missed {world} _ := by
    unfold Compiler.loader
    cases compiler.library.depth with
    | zero => exact ⟨_, world, rfl, rfl⟩
    | succ depth => exact ⟨refusal, world, loadWithin_refused h _ _ _ _, rfl⟩

theorem misses_barred (fault : Fault) :
    Misses compiler chain location (Spared compiler.library location fault) where
  lawful :=
    Indifferent.lawful (loadWithin_indifferent compiler.library.depth) compiler.idOf chain
  missed {world} h := by
    unfold Compiler.loader
    cases compiler.library.depth with
    | zero => exact ⟨_, world, rfl, h⟩
    | succ depth =>
      cases hrefusal : refusal? location chain with
      | some refusal => exact ⟨refusal, world, loadWithin_refused hrefusal _ _ _ _, h⟩
      | none =>
        rw [loadWithin_admitted hrefusal]
        obtain ⟨after, hload, hafter⟩ := remember_barred h.barred fun text =>
          packageScope compiler.idOf (loadWithin compiler.idOf compiler.library depth) location
            text (location :: chain)
        exact ⟨fault, after, hload, hafter.symm⟩

theorem Fails.misses (h : Fails compiler.library chain world location) :
    ∃ agree, Misses compiler chain location agree ∧ agree world world := by
  cases h with
  | circular h =>
    have hrefusal : refusal? location chain = some (.circular location) := if_pos h
    exact ⟨Eq, misses_refused hrefusal, rfl⟩
  | extension h =>
    obtain ⟨refusal, hrefusal⟩ : ∃ refusal, refusal? location chain = some refusal := by
      unfold refusal?
      rw [h]
      split
      · exact ⟨_, rfl⟩
      · exact ⟨_, rfl⟩
    exact ⟨Eq, misses_refused hrefusal, rfl⟩
  | barred fault h => exact ⟨_, misses_barred fault, rfl, fun _ _ => rfl, h, h⟩

/-- The work when the package was asked for and did not come. -/
def Work.without (work : Work) (location : String) (extent : Option Span) (fault : Fault)
    (after : World) : Work :=
  ({ work.update (·.addPackage location) with world := after }).report (extent.getD .origin)
    (.importFailed location fault.message)

theorem Work.noted_without (work : Work) (location : String) (extent : Option Span)
    (fault : Fault) (after : World) :
    location ∈ (work.without location extent fault after).scope.contents.packages := by
  change location ∈ (work.scope.mapContents (·.addPackage location)).contents.packages
  rw [Scope.contents_mapContents]
  exact Contents.mem_addPackage.mpr (Or.inr rfl)

section Missing

variable {work : Work} {fault : Fault} {after : World}
  (h : compiler.loader location chain work.world = (.error fault, after))

include h

theorem bringIn_missing (extent : Option Span) :
    bringIn (compiler.setting chain) location extent work =
      (none, work.without location extent fault after) :=
  bringIn_failed rfl h extent

theorem attachPackage_missing (label : Option String) (extent : Option Span) :
    attachPackage (compiler.setting chain) location label extent work =
      (none, work.without location extent fault after) :=
  attachPackage_absent (bringIn_missing h extent) label

theorem lowerPackage_missing (label : Option String) (extent : Option Span) :
    lowerPackage (compiler.setting chain) location label extent work =
      work.without location extent fault after := by
  cases label with
  | none => exact lowerPackage_absent (bringIn_missing h extent)
  | some name => exact congrArg Prod.snd (attachPackage_missing h (some name) extent)

/-- Without a package nothing is bound. -/
theorem assignment_missing (outer : List Scope) (targets : List Node) (label : Option String)
    (extent place : Option Span) :
    (lower (compiler.setting chain) outer
        (.assignment targets (some (.package location label extent)) place) work).scope =
      work.scope.mapContents (·.addPackage location) := by
  have hquiet := quiet_prepareTargets outer targets place work
  have hprepared : compiler.loader location chain (prepareTargets outer targets place work).world =
      (.error fault, after) := by
    rw [hquiet.world]
    exact h
  have hattached : lowerValue (compiler.setting chain) outer (.package location label extent)
      (prepareTargets outer targets place work) =
        (none, (prepareTargets outer targets place work).without location extent fault after) :=
    attachPackage_missing hprepared label extent
  rw [lower_assigned _ _ _ _ _ rfl]
  dsimp only
  rw [hattached]
  change (prepareTargets outer targets place work).scope.mapContents _ = _
  rw [hquiet.scope]

end Missing

end Asking

/-- What becomes of a recipe with a package that does not come, compared to the recipe without the
package. It was asked for when the work had reached the point given. -/
structure Isolated (location : String) (extent : Option Span) (reached plain imported : Work) :
    Prop where
  /-- The only difference between the scopes is that the location is noted where it was asked
  for. -/
  scope : imported.scope.shown = (plain.scope.noting reached.scope.id location).shown
  noted : imported.scope.NotedIn reached.scope.id location
  issued : imported.world.issued = plain.world.issued
  reports : ∃ (fault : Fault) (later : List Diagnostic),
    plain.diagnostics = reached.diagnostics ++ later ∧
      imported.diagnostics = reached.diagnostics ++
        ⟨extent.getD .origin, .importFailed location fault.message⟩ :: later

theorem Isolated.document {location : String} {extent : Option Span}
    {reached plain imported : Work} (h : Isolated location extent reached plain imported) :
    imported.scope.toJson = (plain.scope.noting reached.scope.id location).toJson := by
  unfold Scope.toJson
  rw [← Scope.jsonAt_shown, h.scope, Scope.jsonAt_shown]

section Recipes

variable {compiler : Compiler} {chain : List String} {location : String} {world : World}

/-- Two sides of which the first has missed a package that the second has not asked for. -/
def aside (setting : Setting) (agree : World → World → Prop) (reached : Work)
    (location : String) (report : Diagnostic) : Tandem :=
  ⟨setting, agree, Scope.SameNoting reached.scope.id location, reached.diagnostics ++ [report],
    reached.diagnostics⟩

theorem abreast_missing {agree : World → World → Prop} {fault : Fault} {after : World}
    {reached : Work} (hafter : agree after reached.world) (extent : Option Span) :
    (aside (compiler.setting chain) agree reached location
        ⟨extent.getD .origin, .importFailed location fault.message⟩).Abreast
      (reached.without location extent fault after) reached :=
  ⟨hafter, Scope.sameNoting_note location reached.scope, [], (List.append_nil _).symm,
    (List.append_nil _).symm⟩

section Missing

variable {agree : World → World → Prop} (hmisses : Misses compiler chain location agree)

include hmisses

/-- What is reached by the same statements on both sides is known to agree with itself. -/
theorem Misses.reached (h : agree world world) (enclosures : List Enclosure)
    (first : List Node) :
    let setting := compiler.setting chain
    let place := arrive setting enclosures [] (opening setting world)
    let reached := lowerAll setting place.1 first place.2
    agree reached.world reached.world := by
  have harrived := (Tandem.abreast_opening hmisses.lawful h rfl rfl).arrive hmisses.lawful
    enclosures .nil
  exact ((Tandem.statements hmisses.lawful).all first (hmisses.lawful.same_around _)
    harrived).world

theorem Misses.lawful_aside (reached : Work) (report : Diagnostic) :
    (aside (compiler.setting chain) agree reached location report).Lawful :=
  { hmisses.lawful with harmless := Scope.harmless_noting reached.scope.id location }

/-- The package is missed, and from there on the recipes with and without it are done alike. -/
theorem Misses.alike (h : agree world world) (enclosures : List Enclosure)
    (first second : List Node) (label : Option String) (extent : Option Span) :
    let setting := compiler.setting chain
    let place := arrive setting enclosures [] (opening setting world)
    let reached := lowerAll setting place.1 first place.2
    ∃ fault after, compiler.loader location chain reached.world = (.error fault, after) ∧
      (aside setting agree reached location
          ⟨extent.getD .origin, .importFailed location fault.message⟩).Abreast
        (lowerRecipe setting
          (surround enclosures (first ++ .package location label extent :: second)) world)
        (lowerRecipe setting (surround enclosures (first ++ second)) world) := by
  intro setting place reached
  obtain ⟨fault, after, hload, hafter⟩ := hmisses.missed (hmisses.reached h enclosures first)
  refine ⟨fault, after, hload, ?_⟩
  have hmissing : lowerAll setting place.1 (.package location label extent :: second) reached =
      lowerAll setting place.1 second (reached.without location extent fault after) := by
    rw [lowerAll, lower_package]
    exact congrArg (lowerAll setting place.1 second) (lowerPackage_missing hload label extent)
  have hlawful := hmisses.lawful_aside reached
    ⟨extent.getD .origin, .importFailed location fault.message⟩
  have hstatements := (Tandem.statements hlawful).all second (hlawful.same_around place.1)
    (abreast_missing hafter extent)
  rw [lowerRecipe_surround, lowerRecipe_surround]
  dsimp only
  rw [hmissing]
  exact hstatements.depart hlawful enclosures

end Missing

/-- A scope of the recipe is there at the end, with all that it held at any moment. -/
theorem scope_lasts {idOf : Nat → String} (hinj : Function.Injective idOf)
    (hne : ∀ n, idOf n ≠ "") (hworld : History idOf world) (library : Library)
    (chain : List String) (enclosures : List Enclosure) (first second : List Node) :
    let setting := (Compiler.mk idOf library).setting chain
    let place := arrive setting enclosures [] (opening setting world)
    let reached := lowerAll setting place.1 first place.2
    let whole := lowerRecipe setting (surround enclosures (first ++ second)) world
    ∃ part ∈ whole.scope.all, reached.scope.contents.Extends part.contents ∧
      ∀ other ∈ whole.scope.all, other.id = part.id → other.contents = part.contents := by
  intro setting place reached whole
  have hloader := setting_moves hne library chain
  obtain ⟨shelf, hstocked, hreachable⟩ := hworld.opens hne
  let begun := Stage.start idOf world.issued shelf
  have hwhole : whole = depart setting enclosures [] (opening setting world)
      (lowerAll setting place.1 second reached) :=
    lowerRecipe_surround setting enclosures first second world
  have hopened : Stocked begun.shelf (opening setting world).world := hstocked
  have houter : begun.outerScopes = [] := rfl
  obtain ⟨inner, hinner, hcallers, hinside, harrive, hdepart⟩ :=
    surroundings_run hne hloader enclosures houter hopened
  have hstatements := statements_reach hne hloader
  obtain ⟨shelf', hfirst, hshelf', hid⟩ :=
    hstatements.all first place.1 inner place.2 hinner hinside
  obtain ⟨shelf'', hsecond, hshelf'', hid'⟩ := hstatements.all second place.1
    { inner with shelf := shelf' } reached hinner hshelf'
  obtain ⟨last, hrest, -, -⟩ := hdepart shelf'' _ hshelf'' (hid'.trans hid)
  rw [← hwhole] at hrest
  have hreached := hreachable.run (harrive.trans hfirst)
  have hrun := hsecond.trans hrest
  have hhere : reached.scope ∈
      ({ inner with shelf := shelf' }.showing reached [] : Stage).own := by
    unfold Stage.own Stage.showing
    rw [hcallers]
    exact List.mem_cons_self ..
  obtain ⟨scope, hscope, part, hpart, hextends⟩ :=
    Stage.keeps_run hinj hreached hrun (.of_mem hhere (Scope.self_mem_all _))
  obtain rfl := List.mem_singleton.mp hscope
  refine ⟨part, hpart, hextends, fun other hother hsame => ?_⟩
  exact Stage.contents_eq_of_id hinj (hreached.run hrun) (List.mem_cons_self ..) hother hpart hsame

/-- Once a location is noted in a scope, it is noted in every scope of that id at the end. -/
theorem note_lasts {idOf : Nat → String} (hinj : Function.Injective idOf)
    (hne : ∀ n, idOf n ≠ "") (hworld : History idOf world) (library : Library)
    (chain : List String) (enclosures : List Enclosure) (first second : List Node)
    (location : String) :
    let setting := (Compiler.mk idOf library).setting chain
    let place := arrive setting enclosures [] (opening setting world)
    let reached := lowerAll setting place.1 first place.2
    let whole := lowerRecipe setting (surround enclosures (first ++ second)) world
    location ∈ reached.scope.contents.packages →
      whole.scope.NotedIn reached.scope.id location := by
  intro setting place reached whole hin
  obtain ⟨part, hpart, hextends, halike⟩ :=
    scope_lasts hinj hne hworld library chain enclosures first second
  have hid : part.id = reached.scope.id := hextends.id
  have hnoted : location ∈ part.contents.packages := hextends.packages.subset hin
  exact ⟨⟨part, hpart, hid, hnoted⟩,
    fun other hother hsame => halike other hother (hsame.trans hid.symm) ▸ hnoted⟩

theorem missing_noted {idOf : Nat → String} (hinj : Function.Injective idOf)
    (hne : ∀ n, idOf n ≠ "") (hworld : History idOf world) {library : Library}
    {enclosures : List Enclosure} {first : List Node} {fault : Fault} {after : World} :
    let setting := (Compiler.mk idOf library).setting chain
    let place := arrive setting enclosures [] (opening setting world)
    let reached := lowerAll setting place.1 first place.2
    (Compiler.mk idOf library).loader location chain reached.world = (.error fault, after) →
      ∀ second label extent,
        (lowerRecipe setting (surround enclosures
            (first ++ .package location label extent :: second)) world).scope.NotedIn
          reached.scope.id location := by
  intro setting place reached hload second label extent
  let missing := reached.without location extent fault after
  have hmissing : lowerAll setting place.1 (first ++ [.package location label extent]) place.2 =
      missing := by
    rw [lowerAll_append, lowerAll, lowerAll, lower_package]
    exact lowerPackage_missing hload label extent
  have hid : missing.scope.id = reached.scope.id :=
    (congrArg Contents.id (Scope.contents_mapContents ..)).trans
      (Contents.addPackage_id reached.scope.contents location)
  have hlasts := note_lasts hinj hne hworld library chain enclosures
    (first ++ [.package location label extent]) second location
  dsimp only at hlasts
  rw [List.append_assoc, hmissing, hid] at hlasts
  exact hlasts (Work.noted_without reached location extent fault after)

/-- Whether it is asked for at the root or in nested scopes, a package that does not come makes
no difference but a note of its location and one report. On the right of an assignment it binds
nothing. -/
theorem failed_import_isolated {idOf : Nat → String} (hinj : Function.Injective idOf)
    (hne : ∀ n, idOf n ≠ "") (hworld : History idOf world) (library : Library)
    (hfails : Fails library chain world location) (enclosures : List Enclosure)
    (first second : List Node) (label : Option String) (extent : Option Span) :
    let setting := (Compiler.mk idOf library).setting chain
    let place := arrive setting enclosures [] (opening setting world)
    let reached := lowerAll setting place.1 first place.2
    let plain := lowerRecipe setting (surround enclosures (first ++ second)) world
    let imported := lowerRecipe setting
      (surround enclosures (first ++ .package location label extent :: second)) world
    Isolated location extent reached plain imported ∧
      ∀ targets span,
        (lower setting place.1 (.assignment targets (some (.package location label extent)) span)
            reached).scope =
          reached.scope.mapContents (·.addPackage location) := by
  intro setting place reached plain imported
  obtain ⟨agree, hmisses, hagree⟩ : ∃ agree, Misses ⟨idOf, library⟩ chain location agree ∧
      agree world world := Fails.misses hfails
  obtain ⟨fault, after, hload, habreast⟩ :=
    hmisses.alike hagree enclosures first second label extent
  obtain ⟨later, himported', hplain'⟩ := habreast.reports
  have hnoted : imported.scope.NotedIn reached.scope.id location :=
    missing_noted hinj hne hworld hload second label extent
  refine ⟨⟨?_, hnoted, ?_, fault, later, hplain', ?_⟩, ?_⟩
  · rw [← hnoted.noting_eq]
    exact habreast.scope
  · exact (hmisses.lawful.issued habreast.world).symm
  · rw [himported']
    exact List.append_assoc ..
  · exact fun targets span => assignment_missing hload place.1 targets label extent span

/-- A package that comes, and one in it that does not. -/
def brokenInside : Library :=
  .ofStored ⟨[("lib.fiz", .text "@\"bad.fiz\"\nx = f()"), ("bad.fiz", .broken "no answer")]⟩

/-- The package was asked for before, out of the one that came. -/
theorem failed_import_isolated_inside :
    let setting := (Compiler.mk tally brokenInside).setting []
    let enclosures : List Enclosure := [⟨[], none, "room", none, [], none, none, none, []⟩]
    let first := (Recipe.ofText "p @ \"lib.fiz\"" "main.fiz").recipe.statements
    let second := (Recipe.ofText "k(p.x)" "main.fiz").recipe.statements
    let place := arrive setting enclosures [] (opening setting {})
    let reached := lowerAll setting place.1 first place.2
    let plain := lowerRecipe setting (surround enclosures (first ++ second)) {}
    let imported := lowerRecipe setting
      (surround enclosures (first ++ .package "bad.fiz" none none :: second)) {}
    Isolated "bad.fiz" none reached plain imported ∧
      (plain.diagnostics.length, imported.diagnostics.length) = (0, 1) ∧
      ∃ part ∈ plain.scope.all, part.name = "room" ∧ part.contents.packages = ["lib.fiz"] := by
  have hfails : Fails brokenInside [] {} "bad.fiz" := .barred _ (Or.inr ⟨rfl, rfl⟩)
  exact ⟨(failed_import_isolated tally_injective tally_ne_empty .begin brokenInside hfails
    _ _ _ none none).1, by decide +kernel, by decide +kernel⟩

end Recipes

end RecipeGraph.Compile
