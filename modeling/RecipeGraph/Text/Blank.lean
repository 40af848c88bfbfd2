import RecipeGraph.Text.CharClass

/-!
Blanks around a text, which are any white space at its two ends.
-/
namespace RecipeGraph.Text

def stripBlanks (text : String) : String :=
  String.ofList
    ((text.toList.dropWhile isSpace).reverse.dropWhile isSpace).reverse

end RecipeGraph.Text
