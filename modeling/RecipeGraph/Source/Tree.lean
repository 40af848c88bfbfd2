import RecipeGraph.Grammar.Derivation
import RecipeGraph.Span

/-!
Syntax trees: what is left of a derivation once marks and line breaks are gone and every helper
has given its children to its parent. The extent of a rule still counts all its words, so it may
begin or end with a mark; a rule without words has none.
-/
namespace RecipeGraph

namespace Source

structure Leaf where
  kind : String
  text : String
  extent : Option Span
  line : Nat
  column : Nat
  deriving DecidableEq, Repr

inductive Tree
  | leaf (leaf : Leaf)
  | branch (rule : String) (children : List Tree) (extent : Option Span)

def Leaf.ofToken (token : Grammar.Token) : Leaf :=
  ⟨token.kind.name, token.text, some ⟨token.start, token.stop⟩, token.line, token.column⟩

end Source

namespace Grammar.Derivation

open Source

/-- From the start of the first word to the end of the last. -/
def spanOf (words : List Token) : Option Span :=
  match words.head?, words.getLast? with
  | some first, some last => some ⟨first.start, last.stop⟩
  | _, _ => none

def extent (derivation : Derivation) : Option Span :=
  spanOf derivation.tokens

mutual

/-- The trees that a derivation hands to its parent. -/
def trees : Derivation → List Tree
  | leaf token => if token.kind.isKept then [.leaf (.ofToken token)] else []
  | node (.rule rule) children =>
      [.branch rule.name (treesOfAll children) (spanOf (tokensOfAll children))]
  | node _ children => treesOfAll children

def treesOfAll : List Derivation → List Tree
  | [] => []
  | child :: rest => trees child ++ treesOfAll rest

end

end Grammar.Derivation

end RecipeGraph
