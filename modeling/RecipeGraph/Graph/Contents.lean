import RecipeGraph.Graph.Element
import RecipeGraph.Text.Order
import RecipeGraph.Text.Outline

/-!
What one scope holds by itself: the graph of its calls and the names bound in it. Every map
keeps the order in which its keys came in, and a later value for a key replaces the earlier one.
-/
namespace RecipeGraph.Graph

structure Contents where
  id : String
  name : String := ""
  look : Look := {}
  vertices : OrderedMap Vertex := {}
  edges : OrderedMap Edge := {}
  /-- The element that each variable stands for. -/
  variableIds : OrderedMap String := {}
  /-- The style of each variable; none was given where it is absent. -/
  variableLooks : OrderedMap (Option Look) := {}
  styles : OrderedMap Properties := {}
  bindings : OrderedMap (List Path) := {}
  /-- The locations asked for in this scope, each once. -/
  packages : List String := []
  deriving Repr

namespace Contents

def addVertex (contents : Contents) (vertex : Vertex) : Contents :=
  { contents with vertices := contents.vertices.insert vertex.id vertex }

def addEdge (contents : Contents) (edge : Edge) : Contents :=
  { contents with edges := contents.edges.insert edge.id edge }

def bindVariable (contents : Contents) (name id : String) : Contents :=
  { contents with variableIds := contents.variableIds.insert name id }

def setVariableLook (contents : Contents) (name : String) (look : Option Look) : Contents :=
  { contents with variableLooks := contents.variableLooks.insert name look }

def setStyle (contents : Contents) (name : String) (properties : Properties) : Contents :=
  { contents with styles := contents.styles.insert name properties }

def bindStyle (contents : Contents) (keyword : String) (tags : List Path) : Contents :=
  { contents with bindings := contents.bindings.insert keyword tags }

def addPackage (contents : Contents) (location : String) : Contents :=
  if location ∈ contents.packages then contents
  else { contents with packages := contents.packages ++ [location] }

/-- Takes over all that the other holds; where both have a key, the other's value holds. Id,
name and style stay. -/
def merge (contents other : Contents) : Contents :=
  let added := other.vertices.values.foldl addVertex contents
  let added := other.edges.values.foldl addEdge added
  { added with
    styles := added.styles.merge other.styles
    bindings := added.bindings.merge other.bindings
    variableIds := added.variableIds.merge other.variableIds
    variableLooks := added.variableLooks.merge other.variableLooks
    packages := (other.packages.foldl addPackage added).packages }

def asVertex (contents : Contents) : Vertex :=
  ⟨contents.id, contents.name, contents.look⟩

/-- The name of a vertex of this scope; anything else goes by its id. -/
def nameOf (contents : Contents) (id : String) : String :=
  match contents.vertices.get? id with
  | some vertex => vertex.name
  | none => id

def tagLines (depth : Nat) (tags : List Path) : Text.Outline :=
  if tags.isEmpty then []
  else [(depth, "StyleTags: [" ++ ", ".intercalate (tags.map Path.render) ++ "]")]

def propertyLines (depth : Nat) (properties : Properties) : Text.Outline :=
  if properties.isEmpty then []
  else [(depth, "StyleProperties: " ++ properties.renderAscii)]

def lookLines (depth : Nat) (look : Look) : Text.Outline :=
  tagLines depth look.tags ++ propertyLines depth look.properties

def edgeLine (contents : Contents) (edge : Edge) : String :=
  "Edge: " ++ contents.nameOf edge.source ++ " -(" ++ edge.name ++ ")-> " ++
    contents.nameOf edge.target

/-- The lines of a scope without those of the scopes in it. -/
def outline (depth : Nat) (contents : Contents) : Text.Outline :=
  [(depth, "Dag: " ++ contents.name)] ++
    (Text.sortedDistinct contents.packages).map (fun location =>
      (depth + 1, "Import: " ++ location)) ++
    contents.vertices.values.flatMap (fun vertex =>
      (depth + 1, "Node: " ++ vertex.name) :: lookLines (depth + 2) vertex.look) ++
    contents.edges.values.flatMap (fun edge =>
      (depth + 1, contents.edgeLine edge) :: lookLines (depth + 2) edge.look) ++
    contents.styles.entries.flatMap (fun entry =>
      (depth + 1, "Style: " ++ entry.1) :: propertyLines (depth + 2) entry.2) ++
    contents.bindings.entries.flatMap (fun entry =>
      (depth + 1, "StyleBinding: " ++ entry.1) :: tagLines (depth + 2) entry.2)

/-- The document of a scope, given its paths from the root and the documents of its children. -/
def toJson (contents : Contents) (lineage outerLineage : String) (children : List Json) : Json :=
  .object
    [("id", .text contents.id),
     ("name", .text contents.name),
     ("lineage_path", .text lineage),
     ("dag_lineage_path", .text outerLineage),
     ("dag_style", contents.look.toJson),
     ("nodes", .array (contents.vertices.values.map Vertex.toJson)),
     ("edges", .array (contents.edges.values.map Edge.toJson)),
     ("styles", .object (contents.styles.entries.map fun entry => (entry.1, .ofTexts entry.2))),
     ("style_bindings",
       .object (contents.bindings.entries.map fun entry => (entry.1, tagsJson entry.2))),
     ("variables", .ofTexts contents.variableIds),
     ("used_imports", .texts (Text.sortedDistinct contents.packages)),
     ("children", .array children)]

end Contents

end RecipeGraph.Graph
