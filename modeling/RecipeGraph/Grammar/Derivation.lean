import RecipeGraph.Grammar.Rule

/-!
Derivations of the grammar over the words of a text. A derivation keeps every word; the syntax
tree is read off it by leaving out the words that only mark structure.
-/
namespace RecipeGraph.Grammar

/-- A word of the text: its terminal, its characters and where it stands. Lines and columns
count from one. -/
structure Token where
  kind : Terminal
  text : String
  start : Nat
  stop : Nat
  line : Nat
  column : Nat
  deriving DecidableEq, Repr

inductive Derivation
  | leaf (token : Token)
  | node (head : Nonterminal) (children : List Derivation)

namespace Derivation

def symbol : Derivation → Symbol
  | leaf token => .terminal token.kind
  | node head _ => .nonterminal head

mutual

/-- The words of a derivation, from left to right. -/
def tokens : Derivation → List Token
  | leaf token => [token]
  | node _ children => tokensOfAll children

def tokensOfAll : List Derivation → List Token
  | [] => []
  | child :: rest => tokens child ++ tokensOfAll rest

end

mutual

/-- A derivation whose every node uses a production of the grammar. -/
def Wellformed : Derivation → Prop
  | leaf _ => True
  | node head children => children.map symbol ∈ bodies head ∧ AllWellformed children

def AllWellformed : List Derivation → Prop
  | [] => True
  | child :: rest => Wellformed child ∧ AllWellformed rest

end

end Derivation

end RecipeGraph.Grammar
