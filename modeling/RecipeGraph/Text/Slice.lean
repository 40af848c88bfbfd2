/-!
Cutting a stretch out of a list by two offsets that may lie outside it. An offset below zero
counts from the back; what lies outside the list is not there to be cut out.
-/
namespace RecipeGraph.Text

/-- The place in a list that an offset denotes, which may be beyond its end. -/
def placeOf {α : Type} (items : List α) (offset : Int) : Nat :=
  if offset < 0 then (offset + items.length).toNat else offset.toNat

def slice {α : Type} (items : List α) (start stop : Int) : List α :=
  let first := placeOf items start
  (items.drop first).take (placeOf items stop - first)

end RecipeGraph.Text
