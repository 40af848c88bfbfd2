import RecipeGraph.Compile.Load
import RecipeGraph.Graph.Hierarchy

/-!
Lowering in place. All scopes are members of one hierarchy that is changed step by step: a nested
scope is below the scope around it from the start, and is filled there while names are looked up
through both; a package is kept as it was compiled and copied for everyone who asks for it.
-/
namespace RecipeGraph.Compile

open RecipeGraph.Graph Recipe Package

namespace InPlace

/-- What came of asking for a package: the member that it was compiled into, or a fault. -/
inductive Parcel
  | loading
  | loaded (result : Except Fault Nat)

/-- What outlasts the compilation of one text, with all the members that there are. -/
structure Yard where
  hierarchy : Hierarchy := {}
  issued : Nat := 0
  cache : OrderedMap Parcel := {}
  fetched : List String := []

/-- A way to bring in the package at a location for someone inside the given chain of packages. -/
abbrev Supplier := String → List String → Yard → Except Fault Nat × Yard

namespace Yard

def size (yard : Yard) : Nat :=
  yard.hierarchy.members.length

def record (yard : Yard) (location : String) (parcel : Parcel) : Yard :=
  { yard with cache := yard.cache.insert location parcel }

def noteFetch (yard : Yard) (location : String) : Yard :=
  { yard with fetched := yard.fetched ++ [location] }

end Yard

/-- What stays fixed during one compilation. -/
structure Outfit where
  idOf : Nat → String
  chain : List String
  supplier : Option Supplier

structure Job where
  yard : Yard
  diagnostics : List Diagnostic

namespace Job

def freshId (outfit : Outfit) (job : Job) : String × Job :=
  (outfit.idOf job.yard.issued,
   { job with yard := { job.yard with issued := job.yard.issued + 1 } })

def report (job : Job) (extent : Span) (problem : Problem) : Job :=
  { job with diagnostics := job.diagnostics ++ [⟨extent, problem⟩] }

def change (job : Job) (f : Hierarchy → Hierarchy) : Job :=
  { job with yard := { job.yard with hierarchy := f job.yard.hierarchy } }

def update (job : Job) (n : Nat) (f : Contents → Contents) : Job :=
  job.change (·.edit n f)

def elementOf? (job : Job) (n : Nat) (path : Path) : Option String :=
  (job.yard.hierarchy.resolve Contents.variableIds n path).filter (· ≠ "")

def variableLook? (job : Job) (n : Nat) (path : Path) : Option Look :=
  (job.yard.hierarchy.resolve Contents.variableLooks n path).join

def style? (job : Job) (n : Nat) (path : Path) : Option Properties :=
  job.yard.hierarchy.resolve Contents.styles n path

def reportUnknown (job : Job) (node : Node) : Job :=
  job.report node.place (.unknownNodeKind node.kind)

def checkTag (n : Nat) (job : Job) (tag : Node) : Job :=
  if (job.style? n tag.path).isSome then job
  else job.report tag.place (.undefinedStyleTag tag.path)

def checkTags (n : Nat) (styling : Option Node) (job : Job) : Job :=
  match styling with
  | none => job
  | some style => style.tags.foldl (checkTag n) job

def addInflow (outfit : Outfit) (n : Nat) (target : String) (job : Job) (inflow : Inflow) : Job :=
  let (id, job) := job.freshId outfit
  job.update n (·.addEdge ⟨id, inflow.name, inflow.source, target, inflow.look.getD {}⟩)

def addInflows (outfit : Outfit) (n : Nat) (target : String) (inflows : List Inflow) (job : Job) :
    Job :=
  inflows.foldl (addInflow outfit n target) job

def bindTarget (n : Nat) (id : String) (look : Node → Option Look) (job : Job) (target : Node) :
    Job :=
  job.update n fun contents =>
    (contents.bindVariable target.name id).setVariableLook target.name (look target)

end Job

mutual

/-- The value of an argument in member `n`: the vertex of a call, or what a variable stands for. -/
def lowerArg (outfit : Outfit) (n : Nat) : Node → Job → Option Inflow × Job
  | .call name args styling _, job =>
      let (id, job) := job.freshId outfit
      let job := job.checkTags n styling
      let job := job.update n (·.addVertex ⟨id, name, (lookOf styling).getD {}⟩)
      let (inflows, job) := lowerArgs outfit n args job
      (some ⟨id, "", none⟩, job.addInflows outfit n id inflows)
  | .variable path extent, job =>
      match job.elementOf? n path with
      | some id => (some ⟨id, lastSegment path, job.variableLook? n path⟩, job)
      | none => (none, job.report (extent.getD .origin) (.undefinedVariable path))
  | other, job => (none, job.reportUnknown other)

def lowerArgs (outfit : Outfit) (n : Nat) : List Node → Job → List Inflow × Job
  | [], job => ([], job)
  | arg :: rest, job =>
      let (inflow, job) := lowerArg outfit n arg job
      let (inflows, job) := lowerArgs outfit n rest job
      (inflow.toList ++ inflows, job)

end

/-- A new member below its parent, ready for its statements. Its number is the number of members
before. -/
def enter (outfit : Outfit) (parent : Option Nat) (given : Option String) (name : String)
    (styling : Option Node) (job : Job) : Job :=
  let (id, job) :=
    match given.filter (· ≠ "") with
    | some id => (id, job)
    | none => job.freshId outfit
  Job.checkTags job.yard.size styling
    (job.change (·.add { id := id, name := name, look := (lookOf styling).getD {} } parent))

/-- Back in member `n`, with values flowing into what has been finished inside. -/
def leave (outfit : Outfit) (n : Nat) (id : String) (args : List Node) (job : Job) : Job :=
  let (inflows, job) := lowerArgs outfit n args job
  job.addInflows outfit n id inflows

/-- A copy of the package at a location, which is noted as asked for whether or not it comes. -/
def bringIn (outfit : Outfit) (n : Nat) (location : String) (extent : Option Span) (job : Job) :
    Option Nat × Job :=
  let job := job.update n (·.addPackage location)
  let failed (job : Job) (reason : String) : Option Nat × Job :=
    (none, job.report (extent.getD .origin) (.importFailed location reason))
  match outfit.supplier with
  | none => failed job "no import cache configured"
  | some supplier =>
      match supplier location outfit.chain job.yard with
      | (.ok package, yard) =>
          (some yard.size, { job with yard := yard }.change (·.copy package))
      | (.error fault, yard) => failed { job with yard := yard } fault.message

def attachPackage (outfit : Outfit) (n : Nat) (location : String) (label : Option String)
    (extent : Option Span) (job : Job) : Option String × Job :=
  match bringIn outfit n location extent job with
  | (none, job) => (none, job)
  | (some package, job) =>
      let (id, job) := job.freshId outfit
      (some id, job.change fun h =>
        ((h.setId package id).setName package (label.getD "")).attach n package)

def lowerPackage (outfit : Outfit) (n : Nat) (location : String) (label : Option String)
    (extent : Option Span) (job : Job) : Job :=
  match label with
  | some _ => (attachPackage outfit n location label extent job).2
  | none =>
      match bringIn outfit n location extent job with
      | (none, job) => job
      | (some package, job) => job.change (·.merge n package)

def flatten (n : Nat) (style : Node) (job : Job) : Properties × Job :=
  let (flat, job) := style.tags.foldl
    (fun (state : Properties × Job) tag =>
      match state.2.style? n tag.path with
      | some referred => (state.1.merge referred, state.2)
      | none => (state.1, state.2.report tag.place (.undefinedStyleTag tag.path)))
    ({}, job)
  (flat.merge style.properties, job)

def lowerNamedStyle (n : Nat) (name : String) (style : Node) (job : Job) : Job :=
  let (properties, job) := flatten n style job
  job.update n (·.setStyle name properties)

def lowerAlias (n : Nat) (targets : List Node) (path : Path) (extent : Option Span) (job : Job) :
    Job :=
  match job.elementOf? n path with
  | none =>
      job.report (extent.getD .origin) (.undefinedAliasTarget path (targetNames targets))
  | some id =>
      let inherited := job.variableLook? n path
      targets.foldl (Job.bindTarget n id fun target => (lookOf target.styling).or inherited) job

def bindTargets (n : Nat) (targets : List Node) (value : Option String) (job : Job) : Job :=
  match value with
  | none => job
  | some id => targets.foldl (Job.bindTarget n id fun target => lookOf target.styling) job

def checkTargets (n : Nat) (targets : List Node) (job : Job) : Job :=
  targets.foldl (fun job target => job.checkTags n target.styling) job

def checkLeft (targets : List Node) (extent : Option Span) (job : Job) : Job :=
  if targets.isEmpty then job.report (extent.getD .origin) (.incompleteAssignment "left")
  else job

mutual

/-- Lowers a statement into member `n`. -/
def lower (outfit : Outfit) (n : Nat) : Node → Job → Job
  | .call name args styling extent, job =>
      (lowerArg outfit n (.call name args styling extent) job).2
  | .variable .., job => job
  | .assignment targets none extent, job =>
      (checkLeft targets extent job).report (extent.getD .origin) (.incompleteAssignment "right")
  | .assignment targets (some value) extent, job =>
      let job := checkTargets n targets (checkLeft targets extent job)
      match value with
      | .variable path place => lowerAlias n targets path place job
      | .call name args styling place =>
          let (inflow, job) := lowerArg outfit n (.call name args styling place) job
          bindTargets n targets (inflow.map (·.source)) job
      | .scope name body _ args _ styling _ =>
          let (id, job) := job.freshId outfit
          let inside := enter outfit (some n) (some id) name styling job
          let inside := lowerAll outfit job.yard.size body inside
          bindTargets n targets (some id) (leave outfit n id args inside)
      | .package location label place =>
          let (id, job) := attachPackage outfit n location label place job
          bindTargets n targets id job
      | other => job.reportUnknown other
  | .scope name body _ args _ styling _, job =>
      let (id, job) := job.freshId outfit
      let inside := enter outfit (some n) (some id) name styling job
      let inside := lowerAll outfit job.yard.size body inside
      leave outfit n id args inside
  | .package location label extent, job => lowerPackage outfit n location label extent job
  | .namedStyle name style _, job => lowerNamedStyle n name style job
  | .styleBinding keyword tags _, job => job.update n (·.bindStyle keyword (tags.map Node.path))
  | other, job => job.reportUnknown other

def lowerAll (outfit : Outfit) (n : Nat) : List Node → Job → Job
  | [], job => job
  | node :: rest, job => lowerAll outfit n rest (lower outfit n node job)

end

/-- Lowers statements into a new member, below its parent if it has one. -/
def lowerInto (outfit : Outfit) (parent : Option Nat) (given : Option String) (name : String)
    (styling : Option Node) (statements : List Node) (yard : Yard) : Job :=
  lowerAll outfit yard.size statements (enter outfit parent given name styling ⟨yard, []⟩)

/-- The member that the text of a package is lowered into. -/
def packageMember (idOf : Nat → String) (supplier : Supplier) (location text : String)
    (chain : List String) (yard : Yard) : Nat × Yard :=
  let built := Recipe.ofText text location
  (yard.size,
    (lowerInto ⟨idOf, chain, some supplier⟩ none none "" none built.recipe.statements yard).yard)

def fetchWith (library : Library) (compile : String → Yard → Nat × Yard) (location : String)
    (yard : Yard) : Except Fault Nat × Yard :=
  let yard := yard.noteFetch location
  match library.fetch location with
  | .error fault => (.error fault, yard)
  | .ok text =>
      let (package, yard) := compile text yard
      (.ok package, yard)

def remember (location : String) (obtain : Yard → Except Fault Nat × Yard) (yard : Yard) :
    Except Fault Nat × Yard :=
  match yard.cache.get? location with
  | some (.loaded result) => (result, yard)
  | some .loading => (.error (.loading location), yard)
  | none =>
      let (result, yard) := obtain (yard.record location .loading)
      (result, yard.record location (.loaded result))

/-- Brings in packages that nest to a depth below the given one. -/
def supplyWithin (idOf : Nat → String) (library : Library) : Nat → Supplier
  | 0, location, _, yard => (.error (.loading location), yard)
  | depth + 1, location, chain, yard =>
      match refusal? location chain with
      | some fault => (.error fault, yard)
      | none =>
          remember location
            (fetchWith library
              (fun text => packageMember idOf (supplyWithin idOf library depth) location text
                (location :: chain))
              location)
            yard

end InPlace

open InPlace

def Compiler.supplier (compiler : Compiler) : Supplier :=
  supplyWithin compiler.idOf compiler.library compiler.library.depth

end RecipeGraph.Compile
