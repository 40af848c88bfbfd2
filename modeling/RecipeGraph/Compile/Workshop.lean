import RecipeGraph.Compile.Load
import RecipeGraph.Package.Orders

/-!
Working on orders by compiling. An order is done in one turn, in which the packages it needs are
brought in as well.
-/
namespace RecipeGraph.Compile

open RecipeGraph.Graph Package

def Compiler.turn (compiler : Compiler) (order : Order Scope) (counts : Bool) (world : World) :
    Progress Scope × World :=
  let obtain := fetchWith compiler.library
    (fun text => packageScope compiler.idOf compiler.loader order.location text order.chain)
    order.location
  let (result, world) :=
    if counts then remember order.location obtain world else obtain world
  (.done result, world)

/-- What the cache holds by location. -/
def loadedEntries (world : World) : List (String × Except Fault Scope) :=
  world.cache.entries.filterMap fun entry =>
    match entry.2 with
    | .loaded result => some (entry.1, result)
    | .loading => none

def Compiler.workshop (compiler : Compiler) : Workshop Scope World :=
  ⟨compiler.turn, 1, loadedEntries⟩

end RecipeGraph.Compile
