import RecipeGraph.Package.World

/-!
The state of lowering statements into a scope, and its single steps: giving out ids, reporting,
looking names up, adding to the scope. The scopes around are not part of the state, since what
happens inside a scope never changes them.
-/
namespace RecipeGraph.Compile

open RecipeGraph.Graph Recipe Package

/-- What stays fixed during one compilation: the supply of ids, the chain of packages that led
here, and the loader, if packages can be brought in at all. -/
structure Setting where
  idOf : Nat → String
  chain : List String
  loader : Option Loader

structure Work where
  world : World
  diagnostics : List Diagnostic
  scope : Scope

/-- A value on its way into a vertex or a nested scope. -/
structure Inflow where
  source : String
  name : String
  look : Option Look

namespace Work

def freshId (setting : Setting) (work : Work) : String × Work :=
  (setting.idOf work.world.issued,
   { work with world := { work.world with issued := work.world.issued + 1 } })

def report (work : Work) (extent : Span) (problem : Problem) : Work :=
  { work with diagnostics := work.diagnostics ++ [⟨extent, problem⟩] }

def update (work : Work) (f : Contents → Contents) : Work :=
  { work with scope := work.scope.mapContents f }

def attach (work : Work) (child : Scope) : Work :=
  { work with scope := work.scope.attach child }

def elementOf? (work : Work) (outer : List Scope) (path : Path) : Option String :=
  (work.scope.resolve Contents.variableIds outer path).filter (· ≠ "")

/-- The style of the nearest variable of that name, which may be none. -/
def variableLook? (work : Work) (outer : List Scope) (path : Path) : Option Look :=
  (work.scope.resolve Contents.variableLooks outer path).join

def style? (work : Work) (outer : List Scope) (path : Path) : Option Properties :=
  work.scope.resolve Contents.styles outer path

def reportUnknown (work : Work) (node : Node) : Work :=
  work.report node.place (.unknownNodeKind node.kind)

def checkTag (outer : List Scope) (work : Work) (tag : Node) : Work :=
  if (work.style? outer tag.path).isSome then work
  else work.report tag.place (.undefinedStyleTag tag.path)

def checkTags (outer : List Scope) (styling : Option Node) (work : Work) : Work :=
  match styling with
  | none => work
  | some style => style.tags.foldl (checkTag outer) work

def addInflow (setting : Setting) (target : String) (work : Work) (inflow : Inflow) : Work :=
  let (id, work) := work.freshId setting
  work.update (·.addEdge ⟨id, inflow.name, inflow.source, target, inflow.look.getD {}⟩)

def addInflows (setting : Setting) (target : String) (inflows : List Inflow) (work : Work) :
    Work :=
  inflows.foldl (addInflow setting target) work

def bindTarget (id : String) (look : Node → Option Look) (work : Work) (target : Node) : Work :=
  work.update fun contents =>
    (contents.bindVariable target.name id).setVariableLook target.name (look target)

end Work

end RecipeGraph.Compile
