import RecipeGraph.Compile.Work

/-!
Statements become graph: a call becomes a vertex with an edge for each value that flows in, an
assignment binds its variables to what stands on its right, a nested scope becomes a child. The
statements are taken strictly in order, and what goes wrong in one is reported and left out.
-/
namespace RecipeGraph.Compile

open RecipeGraph.Graph Recipe Package

def lookOf (styling : Option Node) : Option Look :=
  styling.map Look.ofStyle

mutual

/-- The value of an argument: the vertex of a call, or what a variable stands for. -/
def lowerArg (setting : Setting) (outer : List Scope) : Node → Work → Option Inflow × Work
  | .call name args styling _, work =>
      let (id, work) := work.freshId setting
      let work := work.checkTags outer styling
      let work := work.update (·.addVertex ⟨id, name, (lookOf styling).getD {}⟩)
      let (inflows, work) := lowerArgs setting outer args work
      (some ⟨id, "", none⟩, work.addInflows setting id inflows)
  | .variable path extent, work =>
      match work.elementOf? outer path with
      | some id => (some ⟨id, lastSegment path, work.variableLook? outer path⟩, work)
      | none => (none, work.report (extent.getD .origin) (.undefinedVariable path))
  | other, work => (none, work.reportUnknown other)

def lowerArgs (setting : Setting) (outer : List Scope) : List Node → Work → List Inflow × Work
  | [], work => ([], work)
  | arg :: rest, work =>
      let (inflow, work) := lowerArg setting outer arg work
      let (inflows, work) := lowerArgs setting outer rest work
      (inflow.toList ++ inflows, work)

end

/-- A new scope inside the current one, ready for its statements. An empty id counts as none. -/
def enter (setting : Setting) (outer : List Scope) (given : Option String) (name : String)
    (styling : Option Node) (work : Work) : Work :=
  let (id, work) :=
    match given.filter (· ≠ "") with
    | some id => (id, work)
    | none => work.freshId setting
  Work.checkTags outer styling
    { work with scope := .ofContents { id := id, name := name, look := (lookOf styling).getD {} } }

/-- Back in the current scope, with the finished scope as a child and its values flowing in. -/
def leave (setting : Setting) (outer : List Scope) (around : Scope) (id : String)
    (args : List Node) (inside : Work) : Work :=
  let work := { inside with scope := around.attach inside.scope }
  let (inflows, work) := lowerArgs setting outer args work
  work.addInflows setting id inflows

/-- The package at a location, noted as asked for whether or not it comes. -/
def bringIn (setting : Setting) (location : String) (extent : Option Span) (work : Work) :
    Option Scope × Work :=
  let work := work.update (·.addPackage location)
  let failed (work : Work) (reason : String) : Option Scope × Work :=
    (none, work.report (extent.getD .origin) (.importFailed location reason))
  match setting.loader with
  | none => failed work "no import cache configured"
  | some loader =>
      match loader location setting.chain work.world with
      | (.ok package, world) => (some package.copy, { work with world := world })
      | (.error fault, world) => failed { work with world := world } fault.message

/-- Brings in a package as a child with a new id, under its alias if it has one. -/
def attachPackage (setting : Setting) (location : String) (label : Option String)
    (extent : Option Span) (work : Work) : Option String × Work :=
  match bringIn setting location extent work with
  | (none, work) => (none, work)
  | (some package, work) =>
      let (id, work) := work.freshId setting
      let child := package.mapContents fun contents =>
        { contents with id := id, name := label.getD "" }
      (some id, work.attach child)

def lowerPackage (setting : Setting) (location : String) (label : Option String)
    (extent : Option Span) (work : Work) : Work :=
  match label with
  | some _ => (attachPackage setting location label extent work).2
  | none =>
      match bringIn setting location extent work with
      | (none, work) => work
      | (some package, work) => { work with scope := work.scope.merge package }

/-- The properties of the styles referred to, the later over the earlier, under its own ones. -/
def flatten (outer : List Scope) (style : Node) (work : Work) : Properties × Work :=
  let (flat, work) := style.tags.foldl
    (fun (state : Properties × Work) tag =>
      match state.2.style? outer tag.path with
      | some referred => (state.1.merge referred, state.2)
      | none => (state.1, state.2.report tag.place (.undefinedStyleTag tag.path)))
    ({}, work)
  (flat.merge style.properties, work)

def lowerNamedStyle (outer : List Scope) (name : String) (style : Node) (work : Work) : Work :=
  let (properties, work) := flatten outer style work
  work.update (·.setStyle name properties)

def targetNames (targets : List Node) : String :=
  ", ".intercalate (targets.map (·.name))

/-- Binds variables to what another variable stands for. Its style comes along, unless a target
has one of its own. -/
def lowerAlias (outer : List Scope) (targets : List Node) (path : Path) (extent : Option Span)
    (work : Work) : Work :=
  match work.elementOf? outer path with
  | none =>
      work.report (extent.getD .origin) (.undefinedAliasTarget path (targetNames targets))
  | some id =>
      let inherited := work.variableLook? outer path
      targets.foldl (Work.bindTarget id fun target => (lookOf target.styling).or inherited) work

/-- Binds variables to what stands on the right, if that gave anything. -/
def bindTargets (targets : List Node) (value : Option String) (work : Work) : Work :=
  match value with
  | none => work
  | some id => targets.foldl (Work.bindTarget id fun target => lookOf target.styling) work

def checkTargets (outer : List Scope) (targets : List Node) (work : Work) : Work :=
  targets.foldl (fun work target => work.checkTags outer target.styling) work

def checkLeft (targets : List Node) (extent : Option Span) (work : Work) : Work :=
  if targets.isEmpty then work.report (extent.getD .origin) (.incompleteAssignment "left")
  else work

mutual

def lower (setting : Setting) (outer : List Scope) : Node → Work → Work
  | .call name args styling extent, work =>
      (lowerArg setting outer (.call name args styling extent) work).2
  | .variable .., work => work
  | .assignment targets none extent, work =>
      (checkLeft targets extent work).report (extent.getD .origin) (.incompleteAssignment "right")
  | .assignment targets (some value) extent, work =>
      let work := checkTargets outer targets (checkLeft targets extent work)
      match value with
      | .variable path place => lowerAlias outer targets path place work
      | .call name args styling place =>
          let (inflow, work) := lowerArg setting outer (.call name args styling place) work
          bindTargets targets (inflow.map (·.source)) work
      | .scope name body _ args _ styling _ =>
          let (id, work) := work.freshId setting
          let around := work.scope
          let inside := enter setting (around :: outer) (some id) name styling work
          let inside := lowerAll setting (around :: outer) body inside
          bindTargets targets (some id) (leave setting outer around id args inside)
      | .package location label place =>
          let (id, work) := attachPackage setting location label place work
          bindTargets targets id work
      | other => work.reportUnknown other
  | .scope name body _ args _ styling _, work =>
      let (id, work) := work.freshId setting
      let around := work.scope
      let inside := enter setting (around :: outer) (some id) name styling work
      let inside := lowerAll setting (around :: outer) body inside
      leave setting outer around id args inside
  | .package location label extent, work => lowerPackage setting location label extent work
  | .namedStyle name style _, work => lowerNamedStyle outer name style work
  | .styleBinding keyword tags _, work => work.update (·.bindStyle keyword (tags.map Node.path))
  | other, work => work.reportUnknown other

def lowerAll (setting : Setting) (outer : List Scope) : List Node → Work → Work
  | [], work => work
  | node :: rest, work => lowerAll setting outer rest (lower setting outer node work)

end

/-- Lowers statements into a new scope inside the scopes around. -/
def lowerInto (setting : Setting) (outer : List Scope) (given : Option String) (name : String)
    (styling : Option Node) (statements : List Node) (world : World) : Work :=
  let start : Work := ⟨world, [], .ofContents { id := "" }⟩
  lowerAll setting outer statements (enter setting outer given name styling start)

/-- The scope of a whole recipe: it has no name and nothing around it. -/
def lowerRecipe (setting : Setting) (statements : List Node) (world : World) : Work :=
  lowerInto setting [] none "" none statements world

end RecipeGraph.Compile
