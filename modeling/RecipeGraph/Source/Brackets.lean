import RecipeGraph.Grammar.Terminal

/-!
Which line breaks separate statements. The open brackets are kept innermost first; a line break
inside round brackets or braces means nothing, one inside square brackets separates statements.
-/
namespace RecipeGraph.Source

open Grammar

abbrev Brackets := List Terminal

namespace Brackets

def closerOf? : Terminal → Option Terminal
  | .leftParen => some .rightParen
  | .leftBrace => some .rightBrace
  | .leftBracket => some .rightBracket
  | _ => none

def hidesBreaks : Brackets → Bool
  | .leftParen :: _ | .leftBrace :: _ => true
  | _ => false

/-- A closer takes away only the innermost bracket, and only one of its own sort. -/
def pass (brackets : Brackets) (kind : Terminal) : Brackets :=
  if (closerOf? kind).isSome then kind :: brackets
  else
    match brackets with
    | [] => []
    | opener :: outer => if closerOf? opener = some kind then outer else opener :: outer

def drops (brackets : Brackets) (kind : Terminal) : Bool :=
  kind = .newline && hidesBreaks brackets

end Brackets

end RecipeGraph.Source
