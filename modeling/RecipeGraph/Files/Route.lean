/-!
Routes to files: the names of the folders to go through, and then the name of the file. A dot
stays where it is and is left out; two dots lead up, but only when the route is walked.
-/
namespace RecipeGraph.Files

structure Route where
  /-- Does the route start at the top of all files? -/
  absolute : Bool
  names : List String
  deriving DecidableEq, Repr

namespace Route

def ofText (text : String) : Route :=
  ⟨text.startsWith "/", (text.splitOn "/").filter fun name => name ≠ "" ∧ name ≠ "."⟩

def render (route : Route) : String :=
  let names := "/".intercalate route.names
  if route.absolute then "/" ++ names else if route.names.isEmpty then "." else names

/-- The route of the folder that a file lies in. -/
def parent (route : Route) : Route :=
  { route with names := route.names.dropLast }

/-- The route as seen by someone in the given folder. -/
def under (route folder : Route) : Route :=
  if route.absolute then route else ⟨folder.absolute, folder.names ++ route.names⟩

end Route

end RecipeGraph.Files
