/-!
A stretch of a text, given by the offset of its first character and the offset after its last.
-/
namespace RecipeGraph

structure Span where
  start : Int
  stop : Int
  deriving DecidableEq, Repr

namespace Span

/-- What is reported where no place is known. -/
def origin : Span := ⟨0, 0⟩

instance : Inhabited Span := ⟨origin⟩

def render (span : Span) : String :=
  s!"{span.start}-{span.stop}"

end Span

end RecipeGraph
