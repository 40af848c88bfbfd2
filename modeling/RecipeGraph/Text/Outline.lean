/-!
A text of lines with depths, each depth shown as one more tab.
-/
namespace RecipeGraph.Text

abbrev Outline := List (Nat × String)

def indent (depth : Nat) : String :=
  String.ofList (List.replicate depth '\t')

def Outline.render (outline : Outline) : String :=
  String.join (outline.map fun entry => indent entry.1 ++ entry.2 ++ "\n")

end RecipeGraph.Text
