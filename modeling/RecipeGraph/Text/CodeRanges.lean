/-!
A set of characters as an ascending list of closed ranges of code points. Membership stops at
the first range that lies above the code point, so the common low ones are decided at once.
-/
namespace RecipeGraph.Text

abbrev CodeRanges := List (Nat × Nat)

def CodeRanges.contains : CodeRanges → Nat → Bool
  | [], _ => false
  | (low, high) :: rest, code => low ≤ code && (code ≤ high || contains rest code)

end RecipeGraph.Text
