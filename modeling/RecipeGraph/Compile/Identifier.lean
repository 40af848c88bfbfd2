/-!
Ids in the form of random identifiers: 32 hexadecimal digits in groups of 8, 4, 4, 4 and 12, of
which one digit and two bits are fixed. Numbers below two to the power 122 give different ids.
-/
namespace RecipeGraph.Compile

/-- The last digits of a number, as many as asked for, to base sixteen. -/
def lowDigits : Nat → Nat → List Char
  | 0, _ => []
  | count + 1, n => lowDigits count (n / 16) ++ [Nat.digitChar (n % 16)]

def hexText (count n : Nat) : String :=
  String.ofList (lowDigits count n)

def identifier (n : Nat) : String :=
  "-".intercalate
    [hexText 8 (n >>> 90), hexText 4 (n >>> 74), "4" ++ hexText 3 (n >>> 62),
     hexText 1 (8 + (n >>> 60) % 4) ++ hexText 3 (n >>> 48), hexText 12 n]

/-- An odd number, so that its multiples are all different when only the last bits are kept. -/
def identifierStride : Nat := 0x9e3779b97f4a7c15f39cc0605cedc835

/-- Ids one after the other, scattered from a start on. -/
def identifiersFrom (start n : Nat) : String :=
  identifier (start + n * identifierStride)

end RecipeGraph.Compile
