import RecipeGraph.Recipe.Node
import RecipeGraph.Source.Tree
import RecipeGraph.Text.Literal
import RecipeGraph.Text.Slice

/-!
What a subtree contributes to the rule above it. A part goes with its literal, which says how it
reads where a word should stand: written out in full, with all that it was made of.
-/
namespace RecipeGraph.Recipe

open Source Text

inductive Part
  | node (node : Node)
  | word (leaf : Leaf)
  | path (path : Path)
  | property (name content : String)
  | value (text : String)
  | description (text : String)
  | tags (tags : List Node)
  /-- What a rule that nobody knows leaves. -/
  | gap

namespace Part

def node? : Part → Option Node
  | .node made => some made
  | _ => none

def style? : Part → Option Node
  | .node (.style properties referred extent) => some (.style properties referred extent)
  | _ => none

def styleTag? : Part → Option Node
  | .node (.styleTag referred extent) => some (.styleTag referred extent)
  | _ => none

def target? : Part → Option Node
  | .node (.target name styling extent) => some (.target name styling extent)
  | _ => none

/-- What may stand on the right of an assignment. -/
def rightSide? : Part → Option Node
  | .node made =>
      match made with
      | .call .. | .variable .. | .scope .. | .package .. => some made
      | _ => none
  | _ => none

def values? : Part → Option (List Node × Option Span)
  | .node (.valueList values extent) => some (values, extent)
  | _ => none

def statements? : Part → Option (List Node × Option Span)
  | .node (.statementList statements extent) => some (statements, extent)
  | _ => none

def word? : Part → Option Leaf
  | .word leaf => some leaf
  | _ => none

def tags? : Part → Option (List Node)
  | .tags made => some made
  | _ => none

def description? : Part → Option String
  | .description text => some text
  | _ => none

/-- A pair counts as a property, also when it is a path of two segments. -/
def property? : Part → Option (String × String)
  | .property name content => some (name, content)
  | .path [name, content] => some (name, content)
  | _ => none

def isGap : Part → Bool
  | gap => true
  | _ => false

def valueText : Part → String
  | .word leaf => leaf.text
  | .value text => text
  | _ => ""

end Part

/-- The text of a word: what stands at its extent, or its own text if there is no source. -/
def wordText (source : List Char) (leaf : Leaf) : String :=
  match leaf.extent with
  | some extent =>
      if source.isEmpty then leaf.text
      else String.ofList (Text.slice source extent.start extent.stop)
  | none => leaf.text

structure Piece where
  part : Part
  literal : Literal

namespace Piece

open RecipeGraph.Recipe.Part

/-- A part that is no word is named by its literal. -/
def name (source : List Char) (piece : Piece) : String :=
  match piece.part with
  | word leaf => wordText source leaf
  | _ => piece.literal.shown

/-- Whatever falls into items can stand in the place of a path. -/
def segments (piece : Piece) : Path :=
  match piece.part with
  | path names => names
  | _ => piece.literal.items.map Literal.shown

def literals {α : Type} (pick : Part → Option α) (pieces : List Piece) : List Literal :=
  (pieces.filter fun piece => (pick piece.part).isSome).map (·.literal)

def presentLiterals (pieces : List Piece) : List Literal :=
  (pieces.filter fun piece => !piece.part.isGap).map (·.literal)

def placeLiteral : Option Span → Literal
  | some extent => .record "Position" [("start", .number extent.start), ("end", .number extent.stop)]
  | none => .absent

def placed (kind : String) (extent : Option Span) (fields : List (String × Literal)) : Literal :=
  .record kind (("position", placeLiteral extent) :: fields)

def itemsOf (literal : Option Literal) : Literal :=
  .list ((literal.map Literal.items).getD [])

/-- The fields of a node, from the pieces that it was made of. -/
def nodeFields (pieces : List Piece) (made : Node) : List (String × Literal) :=
  let rest := pieces.drop 1
  let segments := .tuple ((pieces.head?.map fun piece => piece.literal.items).getD [])
  match made with
  | .call name .. =>
      [("name", .text name), ("args", itemsOf (literals values? rest).getLast?),
       ("styling", .orAbsent (literals style? rest).getLast?)]
  | .variable .. | .styleTag .. => [("path", segments)]
  | .assignment .. =>
      [("lhs", .list (literals target? pieces)),
       ("rhs", .orAbsent (literals rightSide? pieces).getLast?)]
  | .scope name .. =>
      [("name", .text name),
       ("statement_list", (literals statements? pieces).getLast?.getD
         (placed "StatementList" none [("statements", .list [])])),
       ("arg_list", (literals values? pieces).getLast?.getD
         (placed "ValueList" none [("values", .list [])])),
       ("styling", .orAbsent (literals style? pieces).getLast?)]
  | .package location label _ =>
      [("location", .text location), ("alias", .orAbsent (label.map .text))]
  | .namedStyle name .. =>
      [("name", .text name),
       ("style", (literals style? rest).head?.getD
         (placed "Style" none [("properties", .table []), ("style_tags", .list [])]))]
  | .styleBinding keyword .. =>
      [("keyword", .text keyword), ("style_tags", itemsOf (literals tags? rest).getLast?)]
  | .target name .. =>
      [("name", .text name), ("styling", .orAbsent (literals style? rest).head?)]
  | .style properties .. =>
      [("properties", .table properties.entries),
       ("style_tags", .list (literals styleTag? pieces))]
  | .valueList .. => [("values", .list (presentLiterals pieces))]
  | .statementList .. | .recipe .. => [("statements", .list (presentLiterals pieces))]

/-- The literal of a part, given the pieces that it was made of. -/
def literalOf (pieces : List Piece) : Part → Literal
  | node made => placed made.kind made.extent (nodeFields pieces made)
  | word leaf => .word leaf.kind leaf.text
  | path names => .ofTexts names
  | property name content => .ofTexts [name, content]
  | value text => .text text
  | description text => .record "_Description" [("text", .text text)]
  | tags _ => .list (literals styleTag? pieces)
  | gap => .absent

def of (pieces : List Piece) (part : Part) : Piece :=
  ⟨part, literalOf pieces part⟩

end Piece

end RecipeGraph.Recipe
