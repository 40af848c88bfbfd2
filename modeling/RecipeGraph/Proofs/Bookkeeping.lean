import RecipeGraph.Proofs.ComparedLowering

/-!
All loading keeps the books: whatever the packages are and whoever asks for them, there is a ledger
that is up to date when it is done. So the packages that are not tangled are always there as they
are meant.
-/
namespace RecipeGraph.Compile

open RecipeGraph.Graph Recipe Package

namespace Comparison

variable {comparison : Comparison} {ledger : Ledger} {world world' : World}

/-- Both sides open a new scope, for an owner who has nothing yet. -/
theorem tracks_begin (hlawful : comparison.Lawful)
    (hcurrent : comparison.current ledger world world') (hissued : world'.issued = 0)
    (hpresent : Present world comparison.owner) (hnone : ∀ n j, ledger n ≠ (comparison.owner, j)) :
    comparison.Reaches ledger [] [] ⟨world, [], .ofContents { id := "" }⟩
      (enter comparison.setting [] none "" none ⟨world, [], .ofContents { id := "" }⟩)
      (enter comparison.second [] none "" none ⟨world', [], .ofContents { id := "" }⟩) := by
  have hplaces : ∀ n j, ledger n = (comparison.owner, j) → j < 0 :=
    fun n j hentry => absurd hentry (hnone n j)
  have hone : (enter comparison.setting [] none "" none
      ⟨world, [], .ofContents { id := "" }⟩).world.issued = world.issued + 1 := rfl
  have hone' : (enter comparison.second [] none "" none
      ⟨world', [], .ofContents { id := "" }⟩).world.issued = 0 + 1 := congrArg Nat.succ hissued
  have hcache' : (enter comparison.second [] none "" none
      ⟨world', [], .ofContents { id := "" }⟩).world.cache = world'.cache := rfl
  obtain ⟨hopened, hextends⟩ := hlawful.assign hcurrent hpresent hplaces hone rfl hcache'
  have hid := since_next comparison.idOf (Nat.zero_le world.issued)
  have hnew : Ledger.rename (ledger.assign comparison.owner world.issued 0 1) comparison.idOf
      (comparison.idOf world.issued) = comparison.second.idOf world'.issued := by
    rw [Ledger.rename_idOf hlawful.injective, hlawful.own, hissued]
    exact congrArg ownId (Ledger.assign_at Nat.one_pos)
  refine ⟨_, hextends, hopened, hpresent.mono hextends.cached, ?_,
    ⟨Nat.zero_le _, List.nodup_singleton _, ?_⟩, ?_, rfl, rfl⟩
  · intro n j hentry
    rw [hone']
    exact Ledger.assign_places hplaces hentry
  · intro part hpart
    rw [List.mem_singleton.mp hpart]
    exact Scope.within_ofContents (Contents.within_new hid)
  · change Scope.ofContents { id := comparison.second.idOf world'.issued } =
      (Scope.ofContents { id := comparison.idOf world.issued }).rename _
    rw [← hnew]
    rfl

/-- A whole text, if what it asks for is supplied. -/
theorem tracks_recipe (hlawful : comparison.Lawful) {loader loader' : Loader}
    (hloader : comparison.setting.loader = some loader)
    (hloader' : comparison.second.loader = some loader') {statements : List Node}
    (hsupplies : ∀ location ∈ Node.locationsOfAll statements,
      comparison.Supplies loader loader' location)
    (hcurrent : comparison.current ledger world world') (hissued : world'.issued = 0)
    (hpresent : Present world comparison.owner) (hnone : ∀ n j, ledger n ≠ (comparison.owner, j)) :
    comparison.Reaches ledger [] [] ⟨world, [], .ofContents { id := "" }⟩
      (lowerRecipe comparison.setting statements world)
      (lowerRecipe comparison.second statements world') := by
  refine (tracks_begin hlawful hcurrent hissued hpresent hnone).trans fun ledger' htracks => ?_
  exact (statements_tracked hlawful hloader hloader' (· ∈ Node.locationsOfAll statements)
    hsupplies).all statements (fun _ hin => hin) ledger' [] [] _ _ htracks

end Comparison

section Loading

/-- What is up to date with regard to the packages in memory. -/
def Booked (idOf : Nat → String) (packages : OrderedMap Stored) (chain : List String)
    (ledger : Ledger) (world : World) : Prop :=
  UpToDate idOf (meaning packages) (Library.ofStored packages).Untangled chain ledger world

/-- Loading keeps the books, and what is not tangled comes as it is meant. -/
def Loads (idOf : Nat → String) (packages : OrderedMap Stored) (chain : List String)
    (loader : Loader) (location : String) : Prop :=
  ∀ ledger world, Booked idOf packages chain ledger world →
    ∃ ledger', Booked idOf packages chain ledger' (loader location chain world).2 ∧
      Extends .nobody ledger ledger' world (loader location chain world).2 ∧
      ((Library.ofStored packages).Untangled location →
        Reads idOf ledger' (loader location chain world).2.issued (loader location chain world).1
          (answer (meaning packages) chain location))

variable {idOf : Nat → String} {packages : OrderedMap Stored} {chain : List String}
  {ledger : Ledger} {world : World} {loader : Loader} {location text : String}

/-- As long as no packages come in, what holds of a ledger goes on to hold of it, if it does not
depend on the ids that are given out to nobody. -/
theorem growth_ledger (current : Ledger → World → Prop)
    (hissue : ∀ {ledger world after}, current ledger world → world.issued ≤ after.issued →
      after.cache = world.cache → current ledger after) :
    Growth fun work after => ∀ ledger, current ledger work.world →
      ∃ ledger', current ledger' after.world ∧
        Extends .nobody ledger ledger' work.world after.world where
  trans h h' ledger hcurrent := by
    obtain ⟨middle, hmiddle, hextends⟩ := h ledger hcurrent
    obtain ⟨ledger', hafter, hextends'⟩ := h' middle hmiddle
    exact ⟨ledger', hafter, hextends.trans hextends'⟩
  quiet h ledger hcurrent := by
    rw [h.world]
    exact ⟨ledger, hcurrent, .refl _ _ _⟩
  report _ _ _ ledger hcurrent := ⟨ledger, hcurrent, .refl _ _ _⟩
  scope _ _ ledger hcurrent := ⟨ledger, hcurrent, .refl _ _ _⟩
  freshId _ _ ledger hcurrent :=
    ⟨ledger, hissue hcurrent (Nat.le_succ _) rfl, .same _ _ (Nat.le_succ _) fun _ h => h⟩

/-- Whatever a text is, the books are kept. -/
theorem booked_recipe (hinj : Function.Injective idOf) {statements : List Node}
    (hloads : ∀ asked ∈ Node.locationsOfAll statements, Loads idOf packages chain loader asked)
    (hbooked : Booked idOf packages chain ledger world) :
    ∃ ledger',
      Booked idOf packages chain ledger'
        (lowerRecipe ⟨idOf, chain, some loader⟩ statements world).world ∧
      Extends .nobody ledger ledger' world
        (lowerRecipe ⟨idOf, chain, some loader⟩ statements world).world := by
  have hgrowth := growth_ledger (Booked idOf packages chain) fun h => UpToDate.issue hinj h
  refine hgrowth.recipe ⟨idOf, chain, some loader⟩ statements ?_ world ledger hbooked
  intro asked hasked other hother work ledger hbooked
  cases hother
  obtain ⟨ledger', hafter, hextends, -⟩ := hloads asked hasked ledger work.world hbooked
  exact ⟨ledger', hafter, hextends⟩

/-- The text of a package among other things, and when all that it asks for is as it is meant. -/
noncomputable def asMeant (idOf : Nat → String) (packages : OrderedMap Stored)
    (chain : List String) (loader : Loader) (location : String) : Comparison where
  setting := ⟨idOf, chain, some loader⟩
  owner := .package location
  second := alone (.package location) (answerInside packages location)
  current ledger world _ := Booked idOf packages chain ledger world

theorem lawful_asMeant (hinj : Function.Injective idOf) (hgiven : ∀ n, idOf n ≠ "") :
    (asMeant idOf packages chain loader location).Lawful where
  injective := hinj
  given := hgiven
  own _ := rfl
  one h := h.injective
  assign h hpresent _ _ hplaces _ _ hissued hcache _ :=
    UpToDate.assign hinj h hpresent hplaces hissued hcache

variable (hinj : Function.Injective idOf) (hgiven : ∀ n, idOf n ≠ "")

include hinj hgiven

/-- The text of a package, with its own packages loaded. -/
theorem loads_text (hextension : location.endsWith fileExtension = true)
    (hfetch : (Library.ofStored packages).fetch location = .ok text)
    (hleads : ∀ other ∈ chain, (Library.ofStored packages).Leads other location)
    (hloads : ∀ asked ∈ (Library.ofStored packages).asks location,
      Loads idOf packages (location :: chain) loader asked)
    (hbooked : Booked idOf packages (location :: chain) ledger world)
    (hpresent : Present world (.package location))
    (hnone : ∀ n j, ledger n ≠ (.package location, j)) :
    ∃ ledger',
      Booked idOf packages (location :: chain) ledger'
        (packageScope idOf loader location text (location :: chain) world).2 ∧
      Extends (.package location) ledger ledger' world
        (packageScope idOf loader location text (location :: chain) world).2 ∧
      ((Library.ofStored packages).Untangled location →
        Reads idOf ledger'
          (packageScope idOf loader location text (location :: chain) world).2.issued
          (.ok (packageScope idOf loader location text (location :: chain) world).1)
          (meaning packages location)) := by
  rw [Library.asks_eq hextension hfetch] at hloads
  by_cases hclear : (Library.ofStored packages).Untangled location
  · have hsupplies : ∀ asked ∈ Node.locationsOfAll (Recipe.ofText text location).recipe.statements,
        (asMeant idOf packages (location :: chain) loader location).Supplies loader
          (fun asked _ world => (answerInside packages location asked, world)) asked := by
      intro asked hasked ledger world world' hcurrent
      obtain ⟨ledger', hafter, hextends, hreads⟩ := hloads asked hasked ledger world hcurrent
      have hin : asked ∈ (Library.ofStored packages).asks location := by
        rw [Library.asks_eq hextension hfetch]
        exact hasked
      have hread := hreads (hclear.of_leads (.single hin))
      rw [answer_inside hclear hleads hin] at hread
      exact ⟨ledger', hafter, hextends, rfl, hread⟩
    have hcurrent : (asMeant idOf packages (location :: chain) loader location).current ledger
        world {} := hbooked
    obtain ⟨ledger', hextends, htracks⟩ := Comparison.tracks_recipe
      (lawful_asMeant hinj hgiven) rfl rfl hsupplies hcurrent rfl hpresent hnone
    refine ⟨ledger', htracks.current, hextends, fun _ => ⟨?_, ?_⟩⟩
    · rw [meaning_of_ok hfetch]
      exact congrArg Except.ok htracks.scope.symm
    · intro package hpackage
      rw [← Except.ok.inj hpackage]
      exact htracks.placed.here
  · obtain ⟨ledger', hafter, hextends⟩ := booked_recipe hinj hloads hbooked
    exact ⟨ledger', hafter, hextends.weaken _, fun h => absurd h hclear⟩

/-- A package that is not on its way further out, from the cache or else from its text. -/
theorem remember_loads (hrefusal : refusal? location chain = none)
    (hleads : ∀ other ∈ chain, (Library.ofStored packages).Leads other location)
    (hloads : ∀ asked ∈ (Library.ofStored packages).asks location,
      Loads idOf packages (location :: chain) loader asked)
    (hbooked : Booked idOf packages chain ledger world) :
    let remembered := remember location
      (fetchWith (Library.ofStored packages)
        (fun text => packageScope idOf loader location text (location :: chain)) location) world
    ∃ ledger', Booked idOf packages chain ledger' remembered.2 ∧
      Extends .nobody ledger ledger' world remembered.2 ∧
      ((Library.ofStored packages).Untangled location →
        Reads idOf ledger' remembered.2.issued remembered.1 (meaning packages location)) := by
  obtain ⟨hinside, hextension⟩ := package_of_not_refused hrefusal
  have hopened : Booked idOf packages (location :: chain) ledger (beginLoading location world) :=
    (UpToDate.open hbooked).issue hinj (Nat.le_refl _) rfl
  have hbefore : Extends .nobody ledger ledger world (beginLoading location world) :=
    .same _ _ (Nat.le_refl _) fun _ => cached_record
  generalize hrecalled : remember location _ world = recalled
  cases recalled_of_eq hrecalled with
  | loading hentry => exact absurd (hbooked.loading location hentry) hinside
  | loaded hentry =>
    exact ⟨ledger, hbooked, .refl _ _ _, fun hclear => hbooked.meant location _ hclear hentry⟩
  | @unfetched fault _ hfetch =>
    have hmeant : Reads idOf ledger world.issued (.error fault) (meaning packages location) := by
      rw [meaning_of_error hfetch]
      exact reads_error _ _ _ _
    exact ⟨ledger, hopened.close fun _ => hmeant,
      hbefore.trans (.same _ _ (Nat.le_refl _) fun _ => cached_record), fun _ => hmeant⟩
  | compiled hentry hfetch =>
    have hpresent : Present (beginLoading location world) (.package location) :=
      (present_record world location .loading).mono fun _ h => h
    obtain ⟨ledger', hmade, hextends, hreads⟩ := loads_text hinj hgiven hextension hfetch
      hleads hloads hopened hpresent fun n j hown => hbooked.cached n location j hown hentry
    exact ⟨ledger', hmade.close hreads,
      (hextends.absent hbefore (not_present_of_none hentry)).trans
        (.same _ _ (Nat.le_refl _) fun _ => cached_record), hreads⟩

/-- Loading keeps the books for whoever asks, as long as those further out are packages one inside
another, and as long as the depth is enough for all packages there are. -/
theorem loadWithin_loads {depth : Nat} (hnodup : chain.Nodup)
    (hstored : ∀ other ∈ chain, other ∈ packages.keys)
    (hleads : ∀ other ∈ chain, (Library.ofStored packages).Leads other location)
    (hdepth : packages.size + 1 ≤ depth + chain.length) :
    Loads idOf packages chain (loadWithin idOf (Library.ofStored packages) depth) location := by
  induction depth generalizing chain location with
  | zero =>
    have hlength := length_le_size hnodup hstored
    omega
  | succ depth ih =>
    intro ledger world hbooked
    cases hrefusal : refusal? location chain with
    | some fault =>
      rw [loadWithin_refused hrefusal, answer_refused hrefusal]
      exact ⟨ledger, hbooked, .refl _ _ _, fun _ => reads_error _ _ _ _⟩
    | none =>
      have hinside := (package_of_not_refused hrefusal).1
      have hloads : ∀ asked ∈ (Library.ofStored packages).asks location,
          Loads idOf packages (location :: chain)
            (loadWithin idOf (Library.ofStored packages) depth) asked := by
        intro asked hasked
        refine ih (List.nodup_cons.mpr ⟨hinside, hnodup⟩)
          (List.forall_mem_cons.mpr ⟨mem_keys_of_asked hasked, hstored⟩)
          (List.forall_mem_cons.mpr ⟨.single hasked, fun other hother =>
            (hleads other hother).tail hasked⟩) ?_
        rw [List.length_cons]
        omega
      rw [loadWithin_admitted hrefusal, answer_meant hrefusal]
      exact remember_loads hinj hgiven hrefusal hleads hloads hbooked

end Loading

end RecipeGraph.Compile
