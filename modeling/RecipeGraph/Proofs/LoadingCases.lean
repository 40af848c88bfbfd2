import RecipeGraph.Compile.Load

/-!
The cases of loading. A loader that follows packages to a depth refuses a request or goes on with
it. What is remembered for a location is told again, be it that the package is still in the
making; for a new location the text is fetched, and it comes or not.
-/
namespace RecipeGraph.Compile

open RecipeGraph.Graph Package

/-- The world when a package has been fetched and nothing has come of it yet. -/
def beginLoading (location : String) (world : World) : World :=
  (world.record location .loading).noteFetch location

section Remember

variable {library : Library} {compile : String → World → Scope × World} {location text : String}
  {world : World} {fault : Fault} {result : Except Fault Scope}

theorem remember_loaded (hfound : world.cache.get? location = some (.loaded result))
    (obtain : World → Except Fault Scope × World) :
    remember location obtain world = (result, world) := by
  unfold remember
  rw [hfound]

theorem remember_loading (hfound : world.cache.get? location = some .loading)
    (obtain : World → Except Fault Scope × World) :
    remember location obtain world = (.error (.loading location), world) := by
  unfold remember
  rw [hfound]

theorem remember_new (hfound : world.cache.get? location = none)
    (obtain : World → Except Fault Scope × World) :
    remember location obtain world =
      ((obtain (world.record location .loading)).1,
        (obtain (world.record location .loading)).2.record location
          (.loaded (obtain (world.record location .loading)).1)) := by
  unfold remember
  rw [hfound]

theorem fetchWith_error (hfetch : library.fetch location = .error fault)
    (compile : String → World → Scope × World) (world : World) :
    fetchWith library compile location world = (.error fault, world.noteFetch location) := by
  unfold fetchWith
  rw [hfetch]

theorem fetchWith_ok (hfetch : library.fetch location = .ok text)
    (compile : String → World → Scope × World) (world : World) :
    fetchWith library compile location world =
      (.ok (compile text (world.noteFetch location)).1,
        (compile text (world.noteFetch location)).2) := by
  unfold fetchWith
  rw [hfetch]

theorem remember_unfetched (hfound : world.cache.get? location = none)
    (hfetch : library.fetch location = .error fault)
    (compile : String → World → Scope × World) :
    remember location (fetchWith library compile location) world =
      (.error fault, (beginLoading location world).record location (.loaded (.error fault))) := by
  rw [remember_new hfound, fetchWith_error hfetch]
  rfl

theorem remember_compiled (hfound : world.cache.get? location = none)
    (hfetch : library.fetch location = .ok text) (compile : String → World → Scope × World) :
    remember location (fetchWith library compile location) world =
      (.ok (compile text (beginLoading location world)).1,
        (compile text (beginLoading location world)).2.record location
          (.loaded (.ok (compile text (beginLoading location world)).1))) := by
  rw [remember_new hfound, fetchWith_ok hfetch]
  rfl

/-- What comes of asking for a package, and the world it leaves behind. -/
inductive Recalled (library : Library) (compile : String → World → Scope × World)
    (location : String) (world : World) : Except Fault Scope × World → Prop
  | loaded {result : Except Fault Scope}
      (hfound : world.cache.get? location = some (.loaded result)) :
      Recalled library compile location world (result, world)
  | loading (hfound : world.cache.get? location = some .loading) :
      Recalled library compile location world (.error (.loading location), world)
  | unfetched {fault : Fault} (hfound : world.cache.get? location = none)
      (hfetch : library.fetch location = .error fault) :
      Recalled library compile location world
        (.error fault, (beginLoading location world).record location (.loaded (.error fault)))
  | compiled {text : String} (hfound : world.cache.get? location = none)
      (hfetch : library.fetch location = .ok text) :
      Recalled library compile location world
        (.ok (compile text (beginLoading location world)).1,
          (compile text (beginLoading location world)).2.record location
            (.loaded (.ok (compile text (beginLoading location world)).1)))

theorem recalled_of_eq {recalled : Except Fault Scope × World}
    (h : remember location (fetchWith library compile location) world = recalled) :
    Recalled library compile location world recalled := by
  subst h
  cases hfound : world.cache.get? location with
  | some entry =>
    cases entry with
    | loading =>
      rw [remember_loading hfound]
      exact .loading hfound
    | loaded result =>
      rw [remember_loaded hfound]
      exact .loaded hfound
  | none =>
    cases hfetch : library.fetch location with
    | error fault =>
      rw [remember_unfetched hfound hfetch]
      exact .unfetched hfound hfetch
    | ok text =>
      rw [remember_compiled hfound hfetch]
      exact .compiled hfound hfetch

end Remember

section Load

variable {library : Library} {location : String} {chain : List String}

theorem loadWithin_refused {fault : Fault} (hrefusal : refusal? location chain = some fault)
    (idOf : Nat → String) (library : Library) (depth : Nat) (world : World) :
    loadWithin idOf library (depth + 1) location chain world = (.error fault, world) := by
  rw [loadWithin, hrefusal]

theorem loadWithin_admitted (hrefusal : refusal? location chain = none) (idOf : Nat → String)
    (library : Library) (depth : Nat) (world : World) :
    loadWithin idOf library (depth + 1) location chain world =
      remember location
        (fetchWith library
          (fun text => packageScope idOf (loadWithin idOf library depth) location text
            (location :: chain)) location)
        world := by
  rw [loadWithin, hrefusal]

end Load

end RecipeGraph.Compile
