import RecipeGraph.Proofs.Loading
import RecipeGraph.Proofs.OwnLoading

/-!
Between two moments at which the cache is cleared every package is fetched and compiled once. All
who ask for it get what came of it the first time, whatever has become of its text since then, and
nobody gets what is not finished. For what is being made is known to whoever asks from within.
-/
namespace RecipeGraph.Compile

open RecipeGraph.Graph Recipe Package

/-- What is remembered is what was fetched since some time. What is being made is in the chain, and
nobody was told that something is being made. -/
structure Tidy (base chain : List String) (world : World) : Prop where
  fetched : world.fetched = base ++ world.cache.keys
  distinct : world.cache.Distinct
  pending : ∀ location, world.cache.get? location = some .loading → location ∈ chain
  settled : ∀ location result, world.cache.get? location = some (.loaded result) →
    ∀ other, result ≠ .error (.loading other)

/-- What is remembered stays as it is, and nothing is left unfinished. -/
structure Onward (world after : World) : Prop where
  part : Part world.cache after.cache
  pending : ∀ location, after.cache.get? location = some .loading →
    world.cache.get? location = some .loading

/-- What was loaded is remembered. -/
def Lasting (world after : World) : Prop :=
  ∀ location result, world.cache.get? location = some (.loaded result) →
    after.cache.get? location = some (.loaded result)

section Worlds

variable {base chain : List String} {world middle after : World} {location : String}
  {result : Except Fault Scope}

theorem Tidy.still (h : Tidy base chain world) (hstill : Still world after) :
    Tidy base chain after := by
  obtain ⟨-, hcache, hfetched⟩ := hstill
  refine ⟨?_, ?_, ?_, ?_⟩
  · rw [hfetched, hcache]
    exact h.fetched
  · rw [hcache]
    exact h.distinct
  · rw [hcache]
    exact h.pending
  · rw [hcache]
    exact h.settled

theorem Tidy.mono (h : Tidy base chain world) {wider : List String} (hsubset : chain ⊆ wider) :
    Tidy base wider world :=
  { h with pending := fun location hloading => hsubset (h.pending location hloading) }

theorem Onward.of_still (h : Still world after) : Onward world after := by
  refine ⟨?_, ?_⟩
  · rw [h.cache]
    exact .refl _
  · rw [h.cache]
    exact fun _ => id

theorem Onward.trans (h : Onward world middle) (h' : Onward middle after) : Onward world after :=
  ⟨h.part.trans h'.part, fun location hloading => h.pending location (h'.pending location hloading)⟩

theorem Onward.lasting (h : Onward world after) : Lasting world after := by
  intro location result hloaded
  have hkept := h.part location (by simp [hloaded])
  rw [← hkept, hloaded]

theorem Lasting.trans (h : Lasting world middle) (h' : Lasting middle after) :
    Lasting world after :=
  fun location result hloaded => h' location result (h location result hloaded)

/-- A package that was not there before is fetched once, and then it is being made. -/
theorem Tidy.beginLoading (h : Tidy base chain world)
    (hfound : world.cache.get? location = none) :
    Tidy base (location :: chain) (beginLoading location world) where
  fetched := by
    have hnew : location ∉ world.cache.keys := OrderedMap.get?_eq_none.mp hfound
    unfold Compile.beginLoading World.noteFetch World.record
    dsimp only
    rw [OrderedMap.keys_insert, if_neg hnew, h.fetched, List.append_assoc]
  distinct := h.distinct.insert location .loading
  pending other hloading := by
    by_cases hsame : location = other
    · simp [hsame]
    · have hbefore : world.cache.get? other = some .loading :=
        (get?_record_of_ne hsame).symm.trans hloading
      exact List.mem_cons_of_mem _ (h.pending other hbefore)
  settled other result hloaded := by
    by_cases hsame : location = other
    · subst hsame
      have hmade : some Entry.loading = some (.loaded result) :=
        (OrderedMap.get?_insert_self _ _ _).symm.trans hloaded
      cases hmade
    · exact h.settled other result ((get?_record_of_ne hsame).symm.trans hloaded)

/-- Once made, the package is remembered, and only those further out are still being made. -/
theorem Tidy.finish (h : Tidy base (location :: chain) world)
    (hfound : world.cache.get? location ≠ none)
    (hresult : ∀ other, result ≠ .error (.loading other)) :
    Tidy base chain (world.record location (.loaded result)) where
  fetched := by
    have hold : location ∈ world.cache.keys := by
      by_contra hnew
      exact hfound (OrderedMap.get?_of_not_mem_keys hnew)
    unfold World.record
    dsimp only
    rw [OrderedMap.keys_insert, if_pos hold]
    exact h.fetched
  distinct := h.distinct.insert location (.loaded result)
  pending other hloading := by
    by_cases hsame : location = other
    · subst hsame
      have hmade : some (Entry.loaded result) = some .loading :=
        (OrderedMap.get?_insert_self _ _ _).symm.trans hloading
      cases hmade
    · have hin := h.pending other ((get?_record_of_ne hsame).symm.trans hloading)
      simpa [Ne.symm hsame] using hin
  settled other result' hloaded := by
    by_cases hsame : location = other
    · subst hsame
      have hmade : some (Entry.loaded result) = some (.loaded result') :=
        (OrderedMap.get?_insert_self _ _ _).symm.trans hloaded
      cases hmade
      exact hresult
    · exact h.settled other result' ((get?_record_of_ne hsame).symm.trans hloaded)

/-- Whatever goes on while a package is being made, the cache says so until the end. -/
theorem Onward.unfinished (h : Onward (Compile.beginLoading location world) after) :
    after.cache.get? location = some .loading := by
  have hbegun : (Compile.beginLoading location world).cache.get? location = some .loading :=
    OrderedMap.get?_insert_self _ _ _
  rw [← h.part location (by simp [hbegun]), hbegun]

theorem lasting_record (h : world.cache.get? location = some .loading) {entry : Entry} :
    Lasting world (world.record location entry) := by
  intro other result hloaded
  have hother : location ≠ other := by
    rintro rfl
    simp [h] at hloaded
  exact (get?_record_of_ne hother).trans hloaded

/-- For all others it makes no difference that a package was not there before and was made. -/
theorem Onward.finish (hfound : world.cache.get? location = none)
    (h : Onward (Compile.beginLoading location world) after) :
    Onward world (after.record location (.loaded result)) where
  part other hpresent := by
    have hother : location ≠ other := by
      rintro rfl
      exact hpresent hfound
    have hbegun : (Compile.beginLoading location world).cache.get? other =
        world.cache.get? other := get?_record_of_ne hother
    have hkept := h.part other (by rw [hbegun]; exact hpresent)
    exact (hbegun.symm.trans hkept).trans (get?_record_of_ne hother).symm
  pending other hloading := by
    by_cases hsame : location = other
    · subst hsame
      have hmade : some (Entry.loaded result) = some .loading :=
        (OrderedMap.get?_insert_self _ _ _).symm.trans hloading
      cases hmade
    · have hafter := h.pending other ((get?_record_of_ne hsame).symm.trans hloading)
      exact (get?_record_of_ne hsame).symm.trans hafter

end Worlds

/-- What becomes of a request. -/
structure Served (base chain : List String) (location : String) (world : World)
    (result : Except Fault Scope) (after : World) : Prop where
  tidy : Tidy base chain after
  onward : Onward world after
  remembered : refusal? location chain = none →
    after.cache.get? location = some (.loaded result)
  settled : ∀ other, result ≠ .error (.loading other)

section Served

variable {idOf : Nat → String} {packages : OrderedMap Stored} {base chain : List String}
  {location : String} {world after : World} {result : Except Fault Scope}
  {statements : List Node} {next : Loader}

theorem refusal_settled {fault : Fault} (h : refusal? location chain = some fault)
    (other : String) : fault ≠ .loading other := by
  unfold refusal? at h
  split at h
  · simp only [Option.some.injEq] at h
    simp [← h]
  · split at h
    · simp at h
    · simp only [Option.some.injEq] at h
      simp [← h]

theorem fetch_settled {fault : Fault}
    (h : (Library.ofStored packages).fetch location = .error fault) (other : String) :
    fault ≠ .loading other := by
  unfold Library.ofStored at h
  dsimp only at h
  split at h
  · simp at h
  · simp only [Except.error.injEq] at h
    simp [← h]
  · simp only [Except.error.injEq] at h
    simp [← h]

/-- If all requests of a text are served, so is the text, and every request is made when things are
tidy. -/
theorem statements_served (htidy : Tidy base chain world)
    (h : ∀ request ∈ askingRecipe ⟨idOf, chain, some next⟩ statements world,
      Tidy base chain request.2 →
      Served base chain request.1 request.2 (next request.1 chain request.2).1
        (next request.1 chain request.2).2) :
    let last := (lowerRecipe ⟨idOf, chain, some next⟩ statements world).world
    Tidy base chain last ∧ Onward world last ∧
      ∀ request ∈ askingRecipe ⟨idOf, chain, some next⟩ statements world,
        Tidy base chain request.2 ∧ Onward (next request.1 chain request.2).2 last := by
  let keeps (world after : World) : Prop :=
    Tidy base chain world → Tidy base chain after ∧ Onward world after
  have hstill : ∀ {world after}, Still world after → keeps world after :=
    fun hstill htidy => ⟨htidy.still hstill, .of_still hstill⟩
  have htrans : ∀ {world middle after}, keeps world middle → keeps middle after →
      keeps world after := by
    intro world middle after hfirst hsecond htidy
    obtain ⟨hmiddle, honward⟩ := hfirst htidy
    obtain ⟨hafter, hfurther⟩ := hsecond hmiddle
    exact ⟨hafter, honward.trans hfurther⟩
  have hasks : ∀ request ∈ askingRecipe ⟨idOf, chain, some next⟩ statements world,
      keeps request.2 (Setting.ask ⟨idOf, chain, some next⟩ request.1 request.2) :=
    fun request hin hbefore => ⟨(h request hin hbefore).tidy, (h request hin hbefore).onward⟩
  obtain ⟨hend, haround⟩ := (recipe_threaded ⟨idOf, chain, some next⟩ statements world).around
    hstill htrans hasks
  obtain ⟨hlast, honward⟩ := hend htidy
  refine ⟨hlast, honward, fun request hin => ?_⟩
  obtain ⟨hbefore, hafter⟩ := haround request hin
  have hmade := (hbefore htidy).1
  exact ⟨hmade, (hafter (h request hin hmade).tidy).2⟩

/-- Whoever asks when things are tidy is served. -/
theorem Obtains.served (h : Obtains idOf (.ofStored packages) location chain world result after)
    (htidy : Tidy base chain world) : Served base chain location world result after := by
  induction h with
  | refused hrefusal =>
    refine ⟨htidy, .of_still (.refl _), by simp [hrefusal], fun other heq => ?_⟩
    cases heq
    exact refusal_settled hrefusal other rfl
  | present hrefusal hfound =>
    exact ⟨htidy, .of_still (.refl _), fun _ => hfound, htidy.settled _ _ hfound⟩
  -- What is being loaded is in the chain, so whoever asks for it is refused.
  | pending hrefusal hfound =>
    obtain ⟨hnew, -⟩ := package_of_not_refused hrefusal
    exact absurd (htidy.pending _ hfound) hnew
  | unfetched hrefusal hfound hfetch =>
    have hsettled := fetch_settled hfetch
    refine ⟨(htidy.beginLoading hfound).finish ?_ ?_,
      .finish hfound (.of_still (.refl _)), ?_, ?_⟩
    · simp [beginLoading, World.record, World.noteFetch]
    · simpa using hsettled
    · simp [World.record]
    · simpa using hsettled
  | compiled hrefusal hfound hfetch next hnext hwork ih =>
    obtain ⟨hlast, honward, -⟩ := statements_served (htidy.beginLoading hfound) ih
    rw [← hwork] at hlast honward
    refine ⟨hlast.finish ?_ (by simp), .finish hfound honward, ?_, by simp⟩
    · simp [honward.unfinished]
    · simp [World.record]

end Served

/-- A request as it was made and answered. -/
structure Request where
  location : String
  chain : List String
  before : World
  result : Except Fault Scope
  after : World

/-- The request for a location in a world, answered by the loader. -/
def Request.of (loader : Loader) (chain : List String) (asked : String × World) : Request where
  location := asked.1
  chain := chain
  before := asked.2
  result := (loader asked.1 chain asked.2).1
  after := (loader asked.1 chain asked.2).2

/-- The requests made while statements are lowered, be it by themselves or by the packages that are
compiled for them. -/
inductive Made (idOf : Nat → String) (library : Library) :
    Nat → List String → List Node → World → Request → Prop
  | here {depth : Nat} {chain : List String} {statements : List Node} {world : World}
      {asked : String × World}
      (hasked : asked ∈ askingRecipe ⟨idOf, chain, some (loadWithin idOf library depth)⟩
        statements world) :
      Made idOf library depth chain statements world
        (.of (loadWithin idOf library depth) chain asked)
  | inside {depth : Nat} {chain : List String} {statements : List Node} {world : World}
      {asked : String × World} {text : String} {request : Request}
      (hasked : asked ∈ askingRecipe ⟨idOf, chain, some (loadWithin idOf library (depth + 1))⟩
        statements world)
      (hrefusal : refusal? asked.1 chain = none) (hfound : asked.2.cache.get? asked.1 = none)
      (hfetch : library.fetch asked.1 = .ok text)
      (hmade : Made idOf library depth (asked.1 :: chain) (statementsOf text asked.1)
        (beginLoading asked.1 asked.2) request) :
      Made idOf library (depth + 1) chain statements world request

section Made

variable {idOf : Nat → String} {library : Library} {packages : OrderedMap Stored} {depth : Nat}
  {base chain : List String} {location text : String} {statements : List Node} {world : World}
  {request : Request}

/-- A text that is compiled for a request is lowered with less depth. -/
theorem loadWithin_compiled (hrefusal : refusal? location chain = none)
    (hfound : world.cache.get? location = none) (hfetch : library.fetch location = .ok text) :
    let work := lowerRecipe ⟨idOf, location :: chain, some (loadWithin idOf library depth)⟩
      (statementsOf text location) (beginLoading location world)
    loadWithin idOf library (depth + 1) location chain world =
      (.ok work.scope, work.world.record location (.loaded (.ok work.scope))) := by
  intro work
  rw [loadWithin_admitted hrefusal, remember_compiled hfound hfetch]
  rfl

theorem lowered_served (idOf : Nat → String) (statements : List Node)
    (hroom : Room packages depth chain) (htidy : Tidy base chain world) :
    let loader := loadWithin idOf (.ofStored packages) depth
    let last := (lowerRecipe ⟨idOf, chain, some loader⟩ statements world).world
    Tidy base chain last ∧ Onward world last ∧
      ∀ asked ∈ askingRecipe ⟨idOf, chain, some loader⟩ statements world,
        Tidy base chain asked.2 ∧ Onward (loader asked.1 chain asked.2).2 last :=
  statements_served htidy fun asked _ hbefore =>
    (loadWithin_obtains hroom asked.1 asked.2).served hbefore

/-- All requests are served, however deep, and what comes of them lasts. -/
theorem Made.served (h : Made idOf (.ofStored packages) depth chain statements world request)
    (hroom : Room packages depth chain) (htidy : Tidy base chain world) :
    Tidy base request.chain request.before ∧
      Served base request.chain request.location request.before request.result request.after ∧
      Lasting request.after
        (lowerRecipe ⟨idOf, chain, some (loadWithin idOf (.ofStored packages) depth)⟩
          statements world).world := by
  induction h with
  | here hasked =>
    obtain ⟨-, -, hrequests⟩ := lowered_served _ _ hroom htidy
    obtain ⟨hbefore, hafter⟩ := hrequests _ hasked
    exact ⟨hbefore, (loadWithin_obtains hroom _ _).served hbefore, hafter.lasting⟩
  | inside hasked hrefusal hfound hfetch _ ih =>
    obtain ⟨-, -, hrequests⟩ := lowered_served _ _ hroom htidy
    obtain ⟨hbefore, hafter⟩ := hrequests _ hasked
    have hinside := hroom.inside hrefusal hfetch
    have hbegun := hbefore.beginLoading hfound
    obtain ⟨htidied, hserved, hlasting⟩ := ih hinside hbegun
    obtain ⟨-, honward, -⟩ := lowered_served _ _ hinside hbegun
    refine ⟨htidied, hserved, hlasting.trans (.trans ?_ hafter.lasting)⟩
    rw [loadWithin_compiled hrefusal hfound hfetch]
    exact lasting_record honward.unfinished

end Made

/-- Packages in memory and the world in which texts are compiled with them. -/
structure Desk where
  packages : OrderedMap Stored
  world : World := {}

/-- A text is compiled, the packages are exchanged for others, or the cache is cleared. -/
inductive Step
  | compile (source filename : String) (chain : List String)
  | restock (packages : OrderedMap Stored)
  | clear

namespace Desk

variable (idOf : Nat → String)

def perform (desk : Desk) : Step → Desk
  | .compile source filename chain =>
      { desk with
        world := ((Compiler.mk idOf (.ofStored desk.packages)).compile source filename chain
          desk.world).2 }
  | .restock packages => { desk with packages := packages }
  | .clear => { desk with world := desk.world.clear }

def performAll (desk : Desk) (steps : List Step) : Desk :=
  steps.foldl (perform idOf) desk

/-- The requests that are made in a step. -/
def AsksNow (desk : Desk) : Step → Request → Prop
  | .compile source filename chain, request =>
      Made idOf (.ofStored desk.packages) (Library.ofStored desk.packages).depth chain
        (statementsOf source filename) desk.world request
  | _, _ => False

/-- The requests that are made in some steps, one after the other. -/
def Asks (desk : Desk) : List Step → Request → Prop
  | [], _ => False
  | step :: rest, request =>
      desk.AsksNow idOf step request ∨ Asks (desk.perform idOf step) rest request

end Desk

section Steps

variable {idOf : Nat → String} {base : List String} {desk : Desk} {step : Step}
  {steps : List Step} {request : Request}

/-- A request was made when things were tidy, was served, and is remembered in the end. -/
structure Remembered (base : List String) (request : Request) (last : World) : Prop where
  before : Tidy base request.chain request.before
  served : Served base request.chain request.location request.before request.result request.after
  lasting : Lasting request.after last

theorem Remembered.found {last : World} (h : Remembered base request last)
    (hrefusal : refusal? request.location request.chain = none) :
    last.cache.get? request.location = some (.loaded request.result) :=
  h.lasting _ _ (h.served.remembered hrefusal)

theorem tidy_cleared (world : World) : Tidy world.fetched [] world.clear where
  fetched := (List.append_nil _).symm
  distinct := OrderedMap.distinct_empty
  pending _ hnone := nomatch hnone
  settled _ _ hnone := nomatch hnone

/-- Every step but clearing leaves things tidy, and nothing unfinished. -/
theorem Desk.perform_tidy (idOf : Nat → String) (h : Tidy base [] desk.world)
    (hstep : step ≠ .clear) :
    Tidy base [] (desk.perform idOf step).world ∧
      Lasting desk.world (desk.perform idOf step).world ∧
      ∀ request, desk.AsksNow idOf step request →
        Remembered base request (desk.perform idOf step).world := by
  cases step with
  | compile source filename chain =>
    have hroom := room_begin desk.packages chain
    have hwider := h.mono (List.nil_subset chain)
    obtain ⟨hlast, honward, -⟩ := lowered_served idOf (statementsOf source filename)
      hroom hwider
    refine ⟨{ hlast with pending := ?_ }, honward.lasting, fun request hmade => ?_⟩
    · exact fun location hloading => h.pending location (honward.pending location hloading)
    · obtain ⟨hbefore, hserved, hlasting⟩ := Made.served hmade hroom hwider
      exact ⟨hbefore, hserved, hlasting⟩
  | restock packages => exact ⟨h, fun _ _ => id, fun _ hnone => hnone.elim⟩
  | clear => exact absurd rfl hstep

theorem Desk.performAll_tidy (idOf : Nat → String) (h : Tidy base [] desk.world)
    (hsteps : .clear ∉ steps) :
    Tidy base [] (desk.performAll idOf steps).world ∧
      Lasting desk.world (desk.performAll idOf steps).world ∧
      ∀ request, desk.Asks idOf steps request →
        Remembered base request (desk.performAll idOf steps).world := by
  induction steps generalizing desk with
  | nil => exact ⟨h, fun _ _ => id, fun _ hnone => hnone.elim⟩
  | cons step rest ih =>
    simp only [List.mem_cons, not_or] at hsteps
    obtain ⟨hstep, hrest⟩ := hsteps
    obtain ⟨hmiddle, hlasting, hnow⟩ := Desk.perform_tidy idOf h (Ne.symm hstep)
    obtain ⟨hlast, hfurther, hlater⟩ := ih hmiddle hrest
    refine ⟨hlast, hlasting.trans hfurther, fun request hasked => ?_⟩
    rcases hasked with hasked | hasked
    · exact { hnow request hasked with lasting := (hnow request hasked).lasting.trans hfurther }
    · exact hlater request hasked

/-- Since the cache was cleared, at the beginning or later, no package has been fetched twice, and
as many are remembered as were fetched. Whoever asked for one without being refused got the same,
even if the packages have been exchanged meanwhile. Nobody got what was not finished, since it was
being made for whoever asked. -/
theorem fetched_once (idOf : Nat → String) (packages : OrderedMap Stored)
    (before since : List Step) (hkept : .clear ∉ since) :
    let start := (Desk.performAll idOf ⟨packages, {}⟩ before).perform idOf .clear
    let last := start.performAll idOf since
    (∃ fetched, last.world.fetched = start.world.fetched ++ fetched ∧ fetched.Nodup ∧
        last.world.cache.size = fetched.length) ∧
      (∀ request other, start.Asks idOf since request → start.Asks idOf since other →
        refusal? request.location request.chain = none →
        refusal? other.location other.chain = none →
        request.location = other.location → request.result = other.result) ∧
      ∀ request, start.Asks idOf since request →
        (∀ location, request.result ≠ .error (.loading location)) ∧
        ∀ location, request.before.cache.get? location = some .loading →
          location ∈ request.chain := by
  intro start last
  have hstart : Tidy start.world.fetched [] start.world := tidy_cleared _
  obtain ⟨hlast, -, hasked⟩ := Desk.performAll_tidy idOf hstart hkept
  refine ⟨⟨last.world.cache.keys, hlast.fetched, hlast.distinct, ?_⟩, ?_, ?_⟩
  · simp [OrderedMap.size, OrderedMap.keys]
  · intro request other hrequest hother hrefusal hrefusal' hlocation
    have hfound := (hasked request hrequest).found hrefusal
    have hfound' := (hasked other hother).found hrefusal'
    rw [hlocation, hfound'] at hfound
    simpa using hfound.symm
  · intro request hrequest
    exact ⟨(hasked request hrequest).served.settled, (hasked request hrequest).before.pending⟩

/-- Two packages that ask for each other are fetched once, even if they are gone when they are asked
for again. -/
theorem fetched_once_restocked :
    let packages : OrderedMap Stored :=
      ⟨[("a.fiz", .text "@\"b.fiz\"\nf()"), ("b.fiz", .text "@\"a.fiz\"\ng()")]⟩
    let since : List Step := [.compile "@\"a.fiz\"" "first.fiz" [], .restock {},
      .compile "@\"a.fiz\"\n@\"b.fiz\"" "second.fiz" ["c.fiz"]]
    let start := (Desk.performAll toString ⟨packages, {}⟩
      [.compile "@\"b.fiz\"" "before.fiz" []]).perform toString .clear
    let last := start.performAll toString since
    last.world.fetched = ["b.fiz", "a.fiz"] ++ ["a.fiz", "b.fiz"] ∧ last.world.cache.size = 2 ∧
      ∀ request other, start.Asks toString since request → start.Asks toString since other →
        refusal? request.location request.chain = none →
        refusal? other.location other.chain = none →
        request.location = other.location → request.result = other.result := by
  intro packages since start last
  exact ⟨by decide +kernel, by decide +kernel,
    (fetched_once toString packages _ since (by simp [since])).2.1⟩

end Steps

end RecipeGraph.Compile
