import RecipeGraph.Graph.Scope
import RecipeGraph.Package.Fault

/-!
What outlasts the compilation of one text: how many ids were given out, the packages asked for
so far with what came of them, and the locations fetched, in order. A package that failed stays
failed until the cache is cleared.
-/
namespace RecipeGraph.Package

inductive Entry
  | loading
  | loaded (result : Except Fault Graph.Scope)

structure World where
  issued : Nat := 0
  cache : OrderedMap Entry := {}
  fetched : List String := []

/-- A way to bring in the package at a location for someone inside the given chain of
packages. -/
abbrev Loader := String → List String → World → Except Fault Graph.Scope × World

/-- Where the texts of packages come from. Nested packages are followed to the given depth; more
than there are packages with a text is never needed. -/
structure Library where
  fetch : String → Except Fault String
  depth : Nat

namespace World

def clear (world : World) : World :=
  { world with cache := {} }

def record (world : World) (location : String) (entry : Entry) : World :=
  { world with cache := world.cache.insert location entry }

def noteFetch (world : World) (location : String) : World :=
  { world with fetched := world.fetched ++ [location] }

end World

/-- A package in memory: its text, or a breakdown when it is fetched. -/
inductive Stored
  | text (text : String)
  | broken (text : String)

/-- The library of packages in memory. -/
def Library.ofStored (packages : OrderedMap Stored) : Library where
  fetch location :=
    match packages.get? location with
    | some (.text text) => .ok text
    | some (.broken text) => .error (.broken text)
    | none => .error (.unfetched location "Not Found")
  depth := packages.size + 1

end RecipeGraph.Package
