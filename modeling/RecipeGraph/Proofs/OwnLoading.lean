import RecipeGraph.Proofs.Foresight
import RecipeGraph.Proofs.Meaning

/-!
Packages with ids of their own, and what is remembered of them. Nothing that is remembered ever
changes, so what a text was told of its packages can be told from the cache in the end. And what is
in the cache in the end depends on nothing but the packages asked for, in their order.
-/
namespace RecipeGraph.Compile

open RecipeGraph.Graph Recipe Package

/-- All that one cache has the other one has too. -/
def Part (cache whole : OrderedMap Entry) : Prop :=
  ∀ location, cache.get? location ≠ none → cache.get? location = whole.get? location

/-- What the cache tells whoever asks for a location, from what it has of it. -/
def held (location : String) : Option Entry → Except Fault Scope
  | some (.loaded result) => result
  | _ => .error (.loading location)

section Remember

variable {cache middle whole : OrderedMap Entry} {location other : String} {world : World}
  {entry : Entry} {obtain : World → Except Fault Scope × World} {library : Library}
  {compile : String → World → Scope × World}

theorem Part.refl (cache : OrderedMap Entry) : Part cache cache :=
  fun _ _ => rfl

theorem Part.trans (h : Part cache middle) (h' : Part middle whole) : Part cache whole := by
  intro location hfound
  have hsame := h location hfound
  rw [hsame] at hfound ⊢
  exact h' location hfound

theorem get?_record_of_ne (h : location ≠ other) :
    (world.record location entry).cache.get? other = world.cache.get? other :=
  OrderedMap.get?_insert_of_ne _ _ h

theorem remember_present (h : world.cache.get? location ≠ none) :
    (remember location obtain world).2 = world := by
  cases hfound : world.cache.get? location with
  | none => exact absurd hfound h
  | some entry =>
    cases entry with
    | loading => rw [remember_loading hfound]
    | loaded result => rw [remember_loaded hfound]

theorem remember_held (location : String) (obtain : World → Except Fault Scope × World)
    (world : World) :
    (remember location obtain world).2.cache.get? location ≠ none ∧
      (remember location obtain world).1 =
        held location ((remember location obtain world).2.cache.get? location) := by
  cases hfound : world.cache.get? location with
  | some entry =>
    have hpresent : world.cache.get? location ≠ none := by
      rw [hfound]
      exact Option.some_ne_none _
    rw [remember_present hpresent, hfound]
    refine ⟨Option.some_ne_none _, ?_⟩
    cases entry with
    | loading =>
      rw [remember_loading hfound]
      rfl
    | loaded result =>
      rw [remember_loaded hfound]
      rfl
  | none =>
    rw [remember_new hfound]
    unfold World.record
    dsimp only
    rw [OrderedMap.get?_insert_self]
    exact ⟨Option.some_ne_none _, rfl⟩

theorem remember_part
    (hobtain : Part (world.record location .loading).cache
      (obtain (world.record location .loading)).2.cache) :
    Part world.cache (remember location obtain world).2.cache := by
  cases hfound : world.cache.get? location with
  | some entry =>
    rw [remember_present (by rw [hfound]; exact Option.some_ne_none _)]
    exact .refl _
  | none =>
    intro other hother
    have hne : location ≠ other := by
      rintro rfl
      exact hother hfound
    have hbegun : (world.record location .loading).cache.get? other = world.cache.get? other :=
      get?_record_of_ne hne
    have hobtained := hobtain other (hbegun ▸ hother)
    rw [remember_new hfound]
    exact (hbegun.symm.trans hobtained).trans (get?_record_of_ne hne).symm

theorem fetchWith_part
    (hcompile : ∀ text, Part world.cache (compile text (world.noteFetch location)).2.cache) :
    Part world.cache (fetchWith library compile location world).2.cache := by
  cases hfetch : library.fetch location with
  | error fault =>
    rw [fetchWith_error hfetch]
    exact .refl _
  | ok text =>
    rw [fetchWith_ok hfetch]
    exact hcompile text

/-- Of other packages the cache has what it had, if the text leaves them alone. -/
theorem remember_elsewhere (hne : location ≠ other)
    (hcompile : ∀ text, library.fetch location = .ok text → ∀ world : World,
      (compile text world).2.cache.get? other = world.cache.get? other) :
    (remember location (fetchWith library compile location) world).2.cache.get? other =
      world.cache.get? other := by
  generalize hrecalled : remember location _ world = recalled
  cases recalled_of_eq hrecalled with
  | loaded | loading => rfl
  | unfetched => exact (get?_record_of_ne hne).trans (get?_record_of_ne hne)
  | compiled _ hfetch =>
    exact (get?_record_of_ne hne).trans ((hcompile _ hfetch _).trans (get?_record_of_ne hne))

theorem packageScope_elsewhere {idOf : Nat → String} {loader : Loader} {text : String}
    {chain : List String}
    (hloads : ∀ asked ∈ Node.locationsOfAll (Recipe.ofText text location).recipe.statements,
      ∀ world : World, (loader asked chain world).2.cache.get? other = world.cache.get? other)
    (world : World) :
    (packageScope idOf loader location text chain world).2.cache.get? other =
      world.cache.get? other := by
  refine (growth_cache (fun cache after => after.get? other = cache.get? other) (fun _ => rfl)
    fun h h' => h'.trans h).recipe ⟨idOf, chain, some loader⟩
      (Recipe.ofText text location).recipe.statements ?_ world
  intro asked hasked other hother work
  cases hother
  exact hloads asked hasked work.world

end Remember

section LoadOwn

variable {packages : OrderedMap Stored} {depth : Nat} {location other : String}
  {chain : List String} {world : World} {whole : OrderedMap Entry}

theorem loadOwn_issued (packages : OrderedMap Stored) (depth : Nat) (location : String)
    (chain : List String) (world : World) :
    (loadOwn packages depth location chain world).2.issued = world.issued := by
  cases depth with
  | zero => rfl
  | succ depth =>
    by_cases hclear : (Library.ofStored packages).Untangled location
    · rw [loadOwn_untangled hclear]
    · rw [loadOwn_tangled hclear]
      cases refusal? location chain <;> rfl

/-- What is remembered stays as it is. -/
theorem loadOwn_part (packages : OrderedMap Stored) (depth : Nat) (location : String)
    (chain : List String) (world : World) :
    Part world.cache (loadOwn packages depth location chain world).2.cache := by
  induction depth generalizing location chain world with
  | zero => exact .refl _
  | succ depth ih =>
    by_cases hclear : (Library.ofStored packages).Untangled location
    · rw [loadOwn_untangled hclear]
      exact .refl _
    · rw [loadOwn_tangled hclear]
      cases refusal? location chain with
      | some fault => exact .refl _
      | none =>
        change Part ({ cache := world.cache } : World).cache _
        refine remember_part (fetchWith_part fun text => ?_)
        refine (growth_cache Part .refl .trans).recipe
          ⟨fun n => ownId (.package location, n), location :: chain, some (loadOwn packages depth)⟩
          (Recipe.ofText text location).recipe.statements ?_
          ((World.record { cache := world.cache } location .loading).noteFetch location)
        intro asked _ loader hloader work
        cases hloader
        exact ih asked (location :: chain) work.world

theorem loadOwn_elsewhere (h : ¬ (Library.ofStored packages).Leads location other) :
    (loadOwn packages depth location chain world).2.cache.get? other =
      world.cache.get? other := by
  induction depth generalizing location chain world with
  | zero => rfl
  | succ depth ih =>
    have hne : location ≠ other := by
      rintro rfl
      exact h .refl
    by_cases hclear : (Library.ofStored packages).Untangled location
    · rw [loadOwn_untangled hclear]
    · rw [loadOwn_tangled hclear]
      cases hrefusal : refusal? location chain with
      | some fault => rfl
      | none =>
        obtain ⟨-, hextension⟩ := package_of_not_refused hrefusal
        refine remember_elsewhere hne fun text hfetch => packageScope_elsewhere ?_
        intro asked hasked world
        rw [← Library.asks_eq hextension hfetch] at hasked
        exact ih fun hleads => h ((Relation.ReflTransGen.single hasked).trans hleads)

theorem loadOwn_absent (h : ¬ (Library.ofStored packages).Untangled location)
    (hrefusal : refusal? location chain = none) :
    (loadOwn packages (depth + 1) location chain world).2.cache.get? location ≠ none := by
  rw [loadOwn_tangled h, hrefusal]
  exact (remember_held location _ _).1

theorem loadOwn_present (h : world.cache.get? location ≠ none) :
    (loadOwn packages depth location chain world).2.cache = world.cache := by
  cases depth with
  | zero => rfl
  | succ depth =>
    by_cases hclear : (Library.ofStored packages).Untangled location
    · rw [loadOwn_untangled hclear]
    · rw [loadOwn_tangled hclear]
      cases refusal? location chain with
      | some fault => rfl
      | none =>
        dsimp only
        rw [remember_present]
        exact h

/-- What the loader brings in can be told from what is remembered of it later. -/
theorem loadOwn_foreseen
    (h : ¬ (Library.ofStored packages).Untangled location → refusal? location chain = none →
      (loadOwn packages depth location chain world).2.cache.get? location ≠ none →
      (loadOwn packages depth location chain world).2.cache.get? location =
        whole.get? location) :
    (loadOwn packages depth location chain { cache := whole }).1 =
      (loadOwn packages depth location chain world).1 := by
  cases depth with
  | zero => rfl
  | succ depth =>
    by_cases hclear : (Library.ofStored packages).Untangled location
    · rw [loadOwn_untangled hclear, loadOwn_untangled hclear]
    · rw [loadOwn_tangled hclear] at h ⊢
      rw [loadOwn_tangled hclear]
      cases hrefusal : refusal? location chain with
      | some fault => rfl
      | none =>
        have hkept := h hclear hrefusal
        rw [hrefusal] at hkept
        obtain ⟨hpresent, hheld⟩ := remember_held location
          (fetchWith (Library.ofStored packages)
            (fun text => packageScope (fun n => ownId (.package location, n))
              (loadOwn packages depth) location text (location :: chain)) location)
          { cache := world.cache }
        have hsame := hkept hpresent
        have hagain : ({ cache := whole } : World).cache.get? location ≠ none := hsame ▸ hpresent
        refine (remember_held location _ { cache := whole }).2.trans (.trans ?_ hheld.symm)
        rw [remember_present hagain]
        exact congrArg (held location) hsame.symm

end LoadOwn

/-- The cache when one more package has been asked for. -/
noncomputable def bring (packages : OrderedMap Stored) (depth : Nat) (chain : List String)
    (cache : OrderedMap Entry) (location : String) : OrderedMap Entry :=
  (loadOwn packages depth location chain { cache := cache }).2.cache

noncomputable def bringAll (packages : OrderedMap Stored) (depth : Nat) (chain : List String)
    (cache : OrderedMap Entry) (locations : List String) : OrderedMap Entry :=
  locations.foldl (bring packages depth chain) cache

/-- What is told of a package once some packages have been asked for. -/
noncomputable def told (packages : OrderedMap Stored) (depth : Nat) (chain : List String)
    (cache : OrderedMap Entry) (locations : List String) (location : String) :
    Except Fault Scope :=
  (loadOwn packages depth location chain
    { cache := bringAll packages depth chain cache locations }).1

section BringAll

variable {packages : OrderedMap Stored} {depth : Nat} {chain : List String}
  {cache : OrderedMap Entry} {location : String} {locations : List String}

theorem cache_loadOwn (packages : OrderedMap Stored) (depth : Nat) (chain : List String)
    (location : String) (world : World) :
    (loadOwn packages depth location chain world).2.cache =
      bring packages depth chain world.cache location := by
  unfold bring
  cases depth with
  | zero => rfl
  | succ depth =>
    by_cases hclear : (Library.ofStored packages).Untangled location
    · rw [loadOwn_untangled hclear, loadOwn_untangled hclear]
    · rw [loadOwn_tangled hclear, loadOwn_tangled hclear]
      cases refusal? location chain <;> rfl

theorem bringAll_append (packages : OrderedMap Stored) (depth : Nat) (chain : List String)
    (cache : OrderedMap Entry) (locations further : List String) :
    bringAll packages depth chain cache (locations ++ further) =
      bringAll packages depth chain (bringAll packages depth chain cache locations) further :=
  List.foldl_append

theorem bringAll_part (packages : OrderedMap Stored) (depth : Nat) (chain : List String)
    (cache : OrderedMap Entry) (locations : List String) :
    Part cache (bringAll packages depth chain cache locations) := by
  induction locations generalizing cache with
  | nil => exact .refl cache
  | cons location rest ih =>
    exact (loadOwn_part packages depth location chain { cache := cache }).trans (ih _)

/-- To ask for what is there makes no difference. -/
theorem bring_again
    (h : ¬ (Library.ofStored packages).Untangled location → refusal? location chain = none →
      cache.get? location ≠ none) :
    bring packages (depth + 1) chain cache location = cache := by
  unfold bring
  by_cases hclear : (Library.ofStored packages).Untangled location
  · rw [loadOwn_untangled hclear]
  · rw [loadOwn_tangled hclear]
    cases hrefusal : refusal? location chain with
    | some fault => rfl
    | none =>
      dsimp only
      rw [remember_present]
      exact h hclear hrefusal

theorem bringAll_present (h : ¬ (Library.ofStored packages).Untangled location)
    (hrefusal : refusal? location chain = none) (hin : location ∈ locations) :
    (bringAll packages (depth + 1) chain cache locations).get? location ≠ none := by
  induction locations generalizing cache with
  | nil => cases hin
  | cons first rest ih =>
    rcases List.mem_cons.mp hin with rfl | hrest
    · have hpresent : (bring packages (depth + 1) chain cache location).get? location ≠ none :=
        loadOwn_absent h hrefusal
      rw [bringAll_part packages (depth + 1) chain _ rest location hpresent] at hpresent
      exact hpresent
    · exact ih hrest

theorem bringAll_again (packages : OrderedMap Stored) (depth : Nat) (chain : List String)
    (cache : OrderedMap Entry) (locations : List String) :
    bringAll packages (depth + 1) chain (bringAll packages (depth + 1) chain cache locations)
      locations = bringAll packages (depth + 1) chain cache locations := by
  have hfixed : ∀ location ∈ locations,
      bring packages (depth + 1) chain (bringAll packages (depth + 1) chain cache locations)
        location = bringAll packages (depth + 1) chain cache locations :=
    fun location hin => bring_again fun htangled hrefusal =>
      bringAll_present htangled hrefusal hin
  generalize bringAll packages (depth + 1) chain cache locations = whole at hfixed ⊢
  induction locations with
  | nil => rfl
  | cons location rest ih =>
    obtain ⟨hfirst, hrest⟩ := List.forall_mem_cons.mp hfixed
    change bringAll packages (depth + 1) chain (bring packages (depth + 1) chain whole location)
      rest = whole
    rw [hfirst]
    exact ih hrest

end BringAll

/-- A text whose packages have ids of their own, and so has the text. -/
noncomputable def ownSetting (packages : OrderedMap Stored) (owner : Owner) (depth : Nat)
    (chain : List String) : Setting :=
  ⟨fun n => ownId (owner, n), chain, some (loadOwn packages depth)⟩

section OwnText

variable {packages : OrderedMap Stored} {owner : Owner} {depth : Nat} {chain : List String}
  {statements : List Node} {world world' : World} {whole : OrderedMap Entry} {location : String}
  {answers : String → Except Fault Scope}

theorem tour_own (packages : OrderedMap Stored) (depth : Nat) (chain : List String) :
    Tour fun asked work after =>
      after.world.cache = bringAll packages depth chain work.world.cache asked where
  still := growth_cache (fun cache after => after = cache) (fun _ => rfl)
    fun h h' => h'.trans h
  join h h' := by
    rw [bringAll_append, ← h]
    exact h'

/-- What is remembered in the end depends on nothing but the packages asked for. -/
theorem cache_own (packages : OrderedMap Stored) (owner : Owner) (depth : Nat)
    (chain : List String) (statements : List Node) (world : World) :
    (lowerRecipe (ownSetting packages owner depth chain) statements world).world.cache =
      bringAll packages depth chain world.cache (Node.locationsOfAll statements) :=
  (tour_own packages depth chain).recipe (ownSetting packages owner depth chain) statements
    (fun location _ work => cache_loadOwn packages depth chain location work.world) world

theorem foreseen_own
    (h : answers location = (loadOwn packages depth location chain { cache := whole }).1) :
    Foreseen (ownSetting packages owner depth chain) (loadOwn packages depth) answers
      (fun world => Part world.cache whole) location where
  issued world := loadOwn_issued packages depth location chain world
  back world hending := (loadOwn_part packages depth location chain world).trans hending
  result world hending := by
    rw [h]
    exact (loadOwn_foreseen fun _ _ => hending location).symm

/-- The text with its packages brought in is the text with their results foretold. -/
theorem own_foretold (hissued : world.issued = 0)
    (h : ∀ location ∈ Node.locationsOfAll statements, answers location =
      told packages depth chain world.cache (Node.locationsOfAll statements) location) :
    lowerRecipe ((ownSetting packages owner depth chain).foretold answers) statements {} =
      (lowerRecipe (ownSetting packages owner depth chain) statements world).beside {} := by
  refine recipe_foretold rfl ?_ (fun location hin => foreseen_own (h location hin)) {} hissued ?_
  · exact growth_cache (fun cache after => Part after _ → Part cache _) (fun _ => id)
      fun h h' => h ∘ h'
  · rw [cache_own]
    exact .refl _

/-- The same comes of a text in two worlds if the same is told of its packages in the end. -/
theorem own_alike (hissued : world.issued = 0) (hissued' : world'.issued = 0)
    (h : ∀ location ∈ Node.locationsOfAll statements,
      told packages depth chain world.cache (Node.locationsOfAll statements) location =
        told packages depth chain world'.cache (Node.locationsOfAll statements) location) :
    let work := lowerRecipe (ownSetting packages owner depth chain) statements world
    let work' := lowerRecipe (ownSetting packages owner depth chain) statements world'
    work.scope = work'.scope ∧ work.diagnostics = work'.diagnostics := by
  intro work work'
  let answers := told packages depth chain world.cache (Node.locationsOfAll statements)
  have hfirst : lowerRecipe ((ownSetting packages owner depth chain).foretold answers)
      statements {} = work.beside {} :=
    own_foretold hissued fun _ _ => rfl
  have hsecond : lowerRecipe ((ownSetting packages owner depth chain).foretold answers)
      statements {} = work'.beside {} :=
    own_foretold hissued' h
  have hbeside : work.beside {} = work'.beside {} := hfirst.symm.trans hsecond
  have hscope := congrArg Work.scope hbeside
  have hdiagnostics := congrArg Work.diagnostics hbeside
  exact ⟨hscope, hdiagnostics⟩

end OwnText

end RecipeGraph.Compile
