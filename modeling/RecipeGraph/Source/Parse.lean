import RecipeGraph.Source.Advice
import RecipeGraph.Source.Reader
import RecipeGraph.Source.Tree

/-!
From a text to its syntax tree, or to the fault that stops it: a message with advice, the
stretch that is to blame, and the names of what could have stood there.
-/
namespace RecipeGraph.Source

open Grammar

structure Fault where
  message : String
  extent : Span
  expected : Option (List String)

namespace Rejection

def complaint : Rejection → Complaint
  | word token expected =>
      .word ⟨token.kind.name, token.text, token.line, token.column⟩ (expected.map (·.name))
  | character char _ line column => .character char line column

def extent (rejection : Rejection) (source : String) : Span :=
  match rejection with
  | word token _ => ⟨token.start, max token.stop token.start⟩
  | character _ offset _ _ => ⟨offset, min (offset + 1) source.length⟩

def expectedNames : Rejection → Option (List String)
  | word _ [] => none
  | word _ expected => some (Text.sortedDistinct (expected.map (·.name)))
  | character .. => none

def fault (rejection : Rejection) (source filename : String) : Fault :=
  ⟨rejection.complaint.message source filename, rejection.extent source,
   rejection.expectedNames⟩

end Rejection

/-- The name under which a text without a file is spoken of. -/
def unnamed : String := "<string>"

def parse (source filename : String) : Except Fault Tree :=
  match derive source with
  | .error rejection => .error (rejection.fault source filename)
  | .ok derivation =>
      match derivation.trees with
      | tree :: _ => .ok tree
      | [] => .ok (.branch Rule.recipe.name [] none)

end RecipeGraph.Source
