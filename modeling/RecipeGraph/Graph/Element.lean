import RecipeGraph.Json
import RecipeGraph.Recipe.Node

/-!
The elements of a graph: vertices for calls, and edges for the values that flow between them.
Each carries the style it was given, as references to named styles and as properties of its own.
-/
namespace RecipeGraph.Graph

abbrev Properties := OrderedMap String

structure Look where
  tags : List Path := []
  properties : Properties := {}
  deriving Repr

structure Vertex where
  id : String
  name : String
  look : Look := {}
  deriving Repr

structure Edge where
  id : String
  name : String
  source : String
  target : String
  look : Look := {}
  deriving Repr

def Look.ofStyle (style : Recipe.Node) : Look :=
  ⟨style.tagPaths, style.properties⟩

def tagsJson (tags : List Path) : Json :=
  .array (tags.map Json.texts)

def Look.fields (look : Look) : List (String × Json) :=
  [("style_tags", tagsJson look.tags), ("style_properties", .ofTexts look.properties)]

def Look.toJson (look : Look) : Json :=
  .object look.fields

def Vertex.toJson (vertex : Vertex) : Json :=
  .object ([("id", .text vertex.id), ("name", .text vertex.name)] ++ vertex.look.fields)

def Edge.toJson (edge : Edge) : Json :=
  .object
    ([("id", .text edge.id), ("name", .text edge.name), ("src_node_id", .text edge.source),
      ("dest_node_id", .text edge.target)] ++ edge.look.fields)

end RecipeGraph.Graph
