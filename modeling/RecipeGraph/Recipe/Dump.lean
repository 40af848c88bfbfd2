import RecipeGraph.Recipe.Node
import RecipeGraph.Text.Outline

/-!
A recipe shown as an indented tree, a line for each node, and as a JSON document.
-/
namespace RecipeGraph.Recipe

open Text

/-- The names of the styles that nodes refer to. -/
def tagNames (tags : List Node) : String :=
  ", ".intercalate (tags.map fun tag => tag.path.render)

namespace Node

def line : Node → String
  | call name _ _ _ => "Call: " ++ name
  | .variable path _ => "QualifiedVariable: " ++ path.render
  | assignment _ (some (.variable ..)) _ => "Alias:"
  | assignment .. => "Assignment:"
  | scope name _ _ _ _ _ _ => "Namespace: " ++ name
  | package location none _ => "Import: " ++ location
  | package location (some label) _ => "Import: " ++ label ++ " " ++ location
  | namedStyle name _ _ => "StyleName: " ++ name
  | styleBinding keyword tags _ =>
      "StyleBinding: " ++ keyword ++ " StyleTagList: [" ++ tagNames tags ++ "]"
  | target name _ _ => "LocalVariable: " ++ name
  | style properties tags _ =>
      "StyleTagList: [" ++ tagNames tags ++ "] StyleKeyValueMap: " ++ properties.renderAscii
  | styleTag path _ => "StyleTag: " ++ path.render
  | valueList .. => "ValueList:"
  | statementList .. => "StatementList:"
  | recipe .. => "Recipe:"

mutual

def linesAt (depth : Nat) (node : Node) : Outline :=
  (depth, node.line) ::
    match node with
    | call _ args styling _ => allLinesAt (depth + 1) args ++ shownLinesAt (depth + 1) styling
    | .variable .. | package .. | styleTag .. => []
    | assignment targets value _ =>
        allLinesAt (depth + 1) targets ++ shownLinesAt (depth + 1) value
    | scope _ body _ args _ styling _ =>
        (depth + 1, "StatementList:") :: allLinesAt (depth + 2) body ++
          (depth + 1, "ValueList:") :: allLinesAt (depth + 2) args ++
            shownLinesAt (depth + 1) styling
    | namedStyle _ own _ => linesAt (depth + 1) own
    | styleBinding _ tags _ => allLinesAt (depth + 1) tags
    | target _ styling _ => shownLinesAt (depth + 1) styling
    | style _ tags _ => allLinesAt (depth + 1) tags
    | valueList nodes _ | statementList nodes _ | recipe nodes _ => allLinesAt (depth + 1) nodes

def shownLinesAt (depth : Nat) : Option Node → Outline
  | none => []
  | some node => if node.isEmptyList then [] else linesAt depth node

def allLinesAt (depth : Nat) : List Node → Outline
  | [] => []
  | node :: rest => linesAt depth node ++ allLinesAt depth rest

end

def dump (node : Node) : String :=
  (node.linesAt 0).render

def groupJson (kind : String) (children : List Json) (extent : Option Span) : Json :=
  .object [("type", .text kind), ("children", .array children), ("position", Span.orNull extent)]

mutual

def toJson : Node → Json
  | call name args styling extent =>
      .object
        [("type", .text "Call"), ("name", .text name), ("args", .array (allToJson args)),
         ("styling", shownToJson styling), ("position", Span.orNull extent)]
  | .variable path extent =>
      .object
        [("type", .text "QualifiedVariable"), ("path", .texts path),
         ("position", Span.orNull extent)]
  | assignment targets value extent =>
      .object
        [("type", .text "Assignment"), ("lhs", .array (allToJson targets)),
         ("rhs", shownToJson value), ("position", Span.orNull extent)]
  | scope name body _ args _ styling extent =>
      .object
        [("type", .text "Namespace"), ("name", .text name), ("statements", .array (allToJson body)),
         ("args", .array (allToJson args)), ("styling", shownToJson styling),
         ("position", Span.orNull extent)]
  | package location label extent =>
      .object
        [("type", .text "Import"), ("location", .text location), ("alias", .textOrNull label),
         ("position", Span.orNull extent)]
  | namedStyle name own extent =>
      .object
        [("type", .text "NamedStyle"), ("name", .text name), ("style", toJson own),
         ("position", Span.orNull extent)]
  | styleBinding keyword tags extent =>
      .object
        [("type", .text "StyleBinding"), ("keyword", .text keyword),
         ("style_tags", .array (allToJson tags)), ("position", Span.orNull extent)]
  | target name styling extent =>
      .object
        [("type", .text "LocalVariable"), ("name", .text name), ("styling", shownToJson styling),
         ("position", Span.orNull extent)]
  | style properties tags extent =>
      .object
        [("type", .text "Style"), ("properties", .ofTexts properties),
         ("style_tags", .array (allToJson tags)), ("position", Span.orNull extent)]
  | styleTag path extent =>
      .object
        [("type", .text "StyleTag"), ("path", .texts path), ("position", Span.orNull extent)]
  | valueList nodes extent => groupJson "ValueList" (allToJson nodes) extent
  | statementList nodes extent => groupJson "StatementList" (allToJson nodes) extent
  | recipe nodes extent => groupJson "Recipe" (allToJson nodes) extent

def shownToJson : Option Node → Json
  | none => .null
  | some node => if node.isEmptyList then .null else toJson node

def allToJson : List Node → List Json
  | [] => []
  | node :: rest => toJson node :: allToJson rest

end

end Node

end RecipeGraph.Recipe
