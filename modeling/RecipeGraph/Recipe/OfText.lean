import RecipeGraph.Recipe.OfTree
import RecipeGraph.Source.Parse

/-!
The recipe that a text stands for. A text that is no recipe counts as one without statements,
with the fault as its only diagnostic.
-/
namespace RecipeGraph.Recipe

def malformed (fault : Source.Fault) (source : String) : Built :=
  ⟨⟨[], some ⟨0, source.length⟩⟩, [⟨fault.extent, .malformedSource fault.message⟩]⟩

def ofText (source filename : String) : Built :=
  match Source.parse source filename with
  | .ok tree => ofTree tree source
  | .error fault => malformed fault source

end RecipeGraph.Recipe
