import RecipeGraph.Compile.Export
import RecipeGraph.Compile.InPlace

/-!
Texts compiled in place, and their documents. All members from the top down are surveyed, each once
however it is come by, and counted; the document of the top holds those of the members below it.
-/
namespace RecipeGraph.Compile

open RecipeGraph.Graph

namespace InPlace

def Yard.clear (yard : Yard) : Yard :=
  { yard with cache := {} }

/-- What comes of a text in place: the member that it was lowered into, among all that there are,
and all that is wrong with it. -/
structure Product where
  hierarchy : Hierarchy
  top : Nat
  diagnostics : List Diagnostic

namespace Product

/-- The numbers of the members that belong to the product. -/
def surveyed (product : Product) : List Nat :=
  product.hierarchy.below product.top

def totals (product : Product) : Totals :=
  let members := product.surveyed.filterMap product.hierarchy.get?
  ⟨totalOf (·.contents.vertices.size) members, totalOf (·.contents.edges.size) members,
   members.length⟩

def toJson (product : Product) (time : String) : Json :=
  product.totals.document (product.hierarchy.toJson product.top) product.diagnostics time

end Product

def compile (compiler : Compiler) (source filename : String) (chain : List String)
    (yard : Yard) : Product × Yard :=
  let built := Recipe.ofText source filename
  let job := lowerInto ⟨compiler.idOf, chain, some compiler.supplier⟩ none none "" none
    built.recipe.statements yard
  (⟨job.yard.hierarchy, yard.size, built.diagnostics ++ job.diagnostics⟩, job.yard)

end InPlace

end RecipeGraph.Compile
