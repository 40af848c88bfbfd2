import RecipeGraph.Compile.Lower
import RecipeGraph.Recipe.OfText

/-!
Bringing in packages. A location is fetched and compiled once; whoever asks again gets the same
result, be it a scope or a fault. A package is compiled inside the chain of those that asked for
it, and its own diagnostics are nobody else's concern.
-/
namespace RecipeGraph.Compile

open RecipeGraph.Graph Package

/-- The scope of a package text, with packages of its own brought in by the loader. -/
def packageScope (idOf : Nat → String) (loader : Loader) (location text : String)
    (chain : List String) (world : World) : Scope × World :=
  let built := Recipe.ofText text location
  let work := lowerRecipe ⟨idOf, chain, some loader⟩ built.recipe.statements world
  (work.scope, work.world)

/-- Fetches a package and compiles its text with the given function. -/
def fetchWith (library : Library) (compile : String → World → Scope × World) (location : String)
    (world : World) : Except Fault Scope × World :=
  let world := world.noteFetch location
  match library.fetch location with
  | .error fault => (.error fault, world)
  | .ok text =>
      let (scope, world) := compile text world
      (.ok scope, world)

/-- The result for a location, from the cache or else by the given function, which is then
remembered. -/
def remember (location : String) (obtain : World → Except Fault Scope × World) (world : World) :
    Except Fault Scope × World :=
  match world.cache.get? location with
  | some (.loaded result) => (result, world)
  | some .loading => (.error (.loading location), world)
  | none =>
      let (result, world) := obtain (world.record location .loading)
      (result, world.record location (.loaded result))

/-- Brings in packages that nest to a depth below the given one. -/
def loadWithin (idOf : Nat → String) (library : Library) : Nat → Loader
  | 0, location, _, world => (.error (.loading location), world)
  | depth + 1, location, chain, world =>
      match refusal? location chain with
      | some fault => (.error fault, world)
      | none =>
          remember location
            (fetchWith library
              (fun text => packageScope idOf (loadWithin idOf library depth) location text
                (location :: chain))
              location)
            world

/-- A supply of ids and a library: all that compiling depends on, besides the world. -/
structure Compiler where
  idOf : Nat → String
  library : Library

def Compiler.loader (compiler : Compiler) : Loader :=
  loadWithin compiler.idOf compiler.library compiler.library.depth

def Compiler.setting (compiler : Compiler) (chain : List String) : Setting :=
  ⟨compiler.idOf, chain, some compiler.loader⟩

/-- What comes of a text: its recipe, its scope, and all that is wrong with it. -/
structure Compilation where
  source : String
  recipe : Recipe
  scope : Scope
  diagnostics : List Diagnostic

def Compiler.compile (compiler : Compiler) (source filename : String) (chain : List String)
    (world : World) : Compilation × World :=
  let built := Recipe.ofText source filename
  let work := lowerRecipe (compiler.setting chain) built.recipe.statements world
  (⟨source, built.recipe, work.scope, built.diagnostics ++ work.diagnostics⟩, work.world)

end RecipeGraph.Compile
