import RecipeGraph.Recipe.Node
import RecipeGraph.Text.Order

/-!
The packages a recipe names in its statements, on the right of its assignments, and in its
nested scopes.
-/
namespace RecipeGraph.Recipe

namespace Node

mutual

def locations : Node → List String
  | package location _ _ => [location]
  | scope _ body _ _ _ _ _ => locationsOfAll body
  | assignment _ value _ => locationsOfValue value
  | _ => []

/-- Only a package or a nested scope on the right of an assignment counts. -/
def locationsOfValue : Option Node → List String
  | some (package location _ _) => [location]
  | some (scope _ body _ _ _ _ _) => locationsOfAll body
  | _ => []

def locationsOfAll : List Node → List String
  | [] => []
  | node :: rest => locations node ++ locationsOfAll rest

end

end Node

/-- Each location once, in the order of its text. -/
def packages (statements : List Node) : List String :=
  Text.sortedDistinct (Node.locationsOfAll statements)

end RecipeGraph.Recipe
