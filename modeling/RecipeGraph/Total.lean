/-!
Sums over the items of a list.
-/
namespace RecipeGraph

def totalOf {α : Type} (count : α → Nat) : List α → Nat
  | [] => 0
  | item :: rest => count item + totalOf count rest

end RecipeGraph
