import RecipeGraph.Compile.Load
import RecipeGraph.Total

/-!
A compilation as a JSON document: when and by which version it was written, what it counts to,
the tree of scopes and the diagnostics.
-/
namespace RecipeGraph.Compile

open RecipeGraph.Graph

def version : String := "0.3.0"

def formatVersion : String := "1.0"

/-- Totals over a scope and all scopes in it. -/
structure Totals where
  vertices : Nat
  edges : Nat
  scopes : Nat

def totals (scope : Scope) : Totals :=
  let scopes := scope.all
  ⟨totalOf (·.contents.vertices.size) scopes, totalOf (·.contents.edges.size) scopes,
   scopes.length⟩

namespace Totals

def counts (totals : Totals) (diagnostics : List Diagnostic) : List (String × Json) :=
  [("compiler_version", .text version),
   ("node_count", .ofNat totals.vertices),
   ("edge_count", .ofNat totals.edges),
   ("dag_count", .ofNat totals.scopes),
   ("error_count", .ofNat diagnostics.length)]

/-- The whole document, given the document of the outermost scope. -/
def document (totals : Totals) (outermost : Json) (diagnostics : List Diagnostic)
    (time : String) : Json :=
  .object
    [("version", .text formatVersion),
     ("export_metadata", .object (("timestamp", .text time) :: totals.counts diagnostics)),
     ("dag", outermost),
     ("errors", .array (diagnostics.map Diagnostic.toJson))]

end Totals

namespace Compilation

def counts (compilation : Compilation) : List (String × Json) :=
  (totals compilation.scope).counts compilation.diagnostics

def toJson (compilation : Compilation) (time : String) : Json :=
  (totals compilation.scope).document compilation.scope.toJson compilation.diagnostics time

end Compilation

end RecipeGraph.Compile
