/-!
Texts in the order of their code points, each once.
-/
namespace RecipeGraph.Text

def insertSorted (text : String) : List String → List String
  | [] => [text]
  | first :: rest =>
      if text = first then first :: rest
      else if text < first then text :: first :: rest
      else first :: insertSorted text rest

def sortedDistinct (texts : List String) : List String :=
  texts.foldr insertSorted []

end RecipeGraph.Text
