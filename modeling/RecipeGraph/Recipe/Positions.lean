import RecipeGraph.Recipe.Node

/-!
Recipes apart from where their nodes came from: clearing every extent, and comparing recipes
node by node. Properties of a style are compared as a map, in any order.
-/
namespace RecipeGraph.Recipe.Node

mutual

def cleared : Node → Node
  | call name args styling _ => call name (allCleared args) (shownCleared styling) none
  | .variable path _ => .variable path none
  | assignment targets value _ => assignment (allCleared targets) (shownCleared value) none
  | scope name body _ args _ styling _ =>
      scope name (allCleared body) none (allCleared args) none (shownCleared styling) none
  | package location label _ => package location label none
  | namedStyle name own _ => namedStyle name (cleared own) none
  | styleBinding keyword tags _ => styleBinding keyword (allCleared tags) none
  | target name styling _ => target name (shownCleared styling) none
  | style properties tags _ => style properties (allCleared tags) none
  | styleTag path _ => styleTag path none
  | valueList nodes _ => valueList (allCleared nodes) none
  | statementList nodes _ => statementList (allCleared nodes) none
  | recipe nodes _ => recipe (allCleared nodes) none

/-- An empty list in the place of a value or a styling is no child and keeps its extent. -/
def shownCleared : Option Node → Option Node
  | none => none
  | some node => some (if node.isEmptyList then node else cleared node)

def allCleared : List Node → List Node
  | [] => []
  | node :: rest => cleared node :: allCleared rest

end

mutual

def same : Node → Node → Bool
  | call name args styling extent, call name' args' styling' extent' =>
      name = name' && allSame args args' && bothSame styling styling' && extent = extent'
  | .variable path extent, .variable path' extent' => path = path' && extent = extent'
  | assignment targets value extent, assignment targets' value' extent' =>
      allSame targets targets' && bothSame value value' && extent = extent'
  | scope name body bodyExtent args argsExtent styling extent,
    scope name' body' bodyExtent' args' argsExtent' styling' extent' =>
      name = name' && allSame body body' && bodyExtent = bodyExtent' && allSame args args' &&
        argsExtent = argsExtent' && bothSame styling styling' && extent = extent'
  | package location label extent, package location' label' extent' =>
      location = location' && label = label' && extent = extent'
  | namedStyle name own extent, namedStyle name' own' extent' =>
      name = name' && same own own' && extent = extent'
  | styleBinding keyword tags extent, styleBinding keyword' tags' extent' =>
      keyword = keyword' && allSame tags tags' && extent = extent'
  | target name styling extent, target name' styling' extent' =>
      name = name' && bothSame styling styling' && extent = extent'
  | style properties tags extent, style properties' tags' extent' =>
      properties.agrees properties' && allSame tags tags' && extent = extent'
  | styleTag path extent, styleTag path' extent' => path = path' && extent = extent'
  | valueList nodes extent, valueList nodes' extent' => allSame nodes nodes' && extent = extent'
  | statementList nodes extent, statementList nodes' extent' =>
      allSame nodes nodes' && extent = extent'
  | recipe nodes extent, recipe nodes' extent' => allSame nodes nodes' && extent = extent'
  | _, _ => false

def bothSame : Option Node → Option Node → Bool
  | none, none => true
  | some node, some node' => same node node'
  | _, _ => false

def allSame : List Node → List Node → Bool
  | [], [] => true
  | node :: rest, node' :: rest' => same node node' && allSame rest rest'
  | _, _ => false

end

end RecipeGraph.Recipe.Node
