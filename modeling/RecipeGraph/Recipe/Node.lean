import RecipeGraph.Diagnostic

/-!
Recipes as statements: calls, assignments, nested scopes, packages and styles, each with the
stretch of text it came from, if it came from one. A node of any kind may stand anywhere; what
makes no sense where it stands is found out later.
-/
namespace RecipeGraph

namespace Recipe

inductive Node
  | call (name : String) (args : List Node) (styling : Option Node) (extent : Option Span)
  /-- A variable that is referred to. -/
  | variable (path : Path) (extent : Option Span)
  | assignment (targets : List Node) (value : Option Node) (extent : Option Span)
  /-- A nested scope: its statements, and the values that flow into it. -/
  | scope (name : String) (body : List Node) (bodyExtent : Option Span)
      (args : List Node) (argsExtent : Option Span) (styling : Option Node)
      (extent : Option Span)
  /-- A package brought in, under a name of its own or merged into the scope. -/
  | package (location : String) (label : Option String) (extent : Option Span)
  | namedStyle (name : String) (style : Node) (extent : Option Span)
  | styleBinding (keyword : String) (tags : List Node) (extent : Option Span)
  /-- A variable that an assignment binds. -/
  | target (name : String) (styling : Option Node) (extent : Option Span)
  | style (properties : OrderedMap String) (tags : List Node) (extent : Option Span)
  | styleTag (path : Path) (extent : Option Span)
  | valueList (values : List Node) (extent : Option Span)
  | statementList (statements : List Node) (extent : Option Span)
  | recipe (statements : List Node) (extent : Option Span)
  deriving Inhabited

namespace Node

def kind : Node → String
  | call .. => "Call"
  | .variable .. => "QualifiedVariable"
  | assignment .. => "Assignment"
  | scope .. => "Namespace"
  | package .. => "Import"
  | namedStyle .. => "NamedStyle"
  | styleBinding .. => "StyleBinding"
  | target .. => "LocalVariable"
  | style .. => "Style"
  | styleTag .. => "StyleTag"
  | valueList .. => "ValueList"
  | statementList .. => "StatementList"
  | recipe .. => "Recipe"

def extent : Node → Option Span
  | call _ _ _ extent => extent
  | .variable _ extent => extent
  | assignment _ _ extent => extent
  | scope _ _ _ _ _ _ extent => extent
  | package _ _ extent => extent
  | namedStyle _ _ extent => extent
  | styleBinding _ _ extent => extent
  | target _ _ extent => extent
  | style _ _ extent => extent
  | styleTag _ extent => extent
  | valueList _ extent => extent
  | statementList _ extent => extent
  | recipe _ extent => extent

/-- The place to report a node at. -/
def place (node : Node) : Span :=
  node.extent.getD .origin

/-- The name of what can be bound, called or entered. -/
def name : Node → String
  | call name _ _ _ => name
  | scope name _ _ _ _ _ _ => name
  | target name _ _ => name
  | _ => ""

/-- The path of a reference, be it to a variable or to a style. -/
def path : Node → Path
  | .variable path _ => path
  | styleTag path _ => path
  | _ => []

def styling : Node → Option Node
  | call _ _ styling _ => styling
  | scope _ _ _ _ _ styling _ => styling
  | target _ styling _ => styling
  | _ => none

def properties : Node → OrderedMap String
  | style properties _ _ => properties
  | _ => {}

/-- The styles that a style or a binding refers to. -/
def tags : Node → List Node
  | style _ tags _ => tags
  | styleBinding _ tags _ => tags
  | _ => []

def tagPaths (node : Node) : List Path :=
  node.tags.map path

def statements : Node → List Node
  | recipe statements _ => statements
  | statementList statements _ => statements
  | scope _ body _ _ _ _ _ => body
  | _ => []

def isAlias : Node → Bool
  | assignment _ (some (.variable ..)) _ => true
  | _ => false

/-- An empty list in the place of a value or a styling counts as none when it is shown. -/
def isEmptyList : Node → Bool
  | valueList [] _ | statementList [] _ => true
  | _ => false

def shown (node : Option Node) : Option Node :=
  node.filter fun node => !node.isEmptyList

def children : Node → List Node
  | call _ args styling _ => args ++ (shown styling).toList
  | .variable .. | package .. | styleTag .. => []
  | assignment targets value _ => targets ++ (shown value).toList
  | scope _ body bodyExtent args argsExtent styling _ =>
      [statementList body bodyExtent, valueList args argsExtent] ++ (shown styling).toList
  | namedStyle _ named _ => [named]
  | styleBinding _ tags _ => tags
  | target _ styling _ => (shown styling).toList
  | style _ tags _ => tags
  | valueList nodes _ | statementList nodes _ | recipe nodes _ => nodes

/-- An empty name for a package counts as none. -/
def packageNamed (location : String) (label : Option String) (extent : Option Span) : Node :=
  package location (label.filter (· ≠ "")) extent

end Node

def lastSegment (path : Path) : String :=
  path.getLast?.getD ""

end Recipe

/-- A whole recipe. -/
structure Recipe where
  statements : List Recipe.Node := []
  extent : Option Span := none

def Recipe.toNode (recipe : Recipe) : Recipe.Node :=
  .recipe recipe.statements recipe.extent

end RecipeGraph
