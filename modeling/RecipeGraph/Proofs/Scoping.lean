import RecipeGraph.Graph.Scope
import RecipeGraph.Recipe.Node

/-!
What the variables of a recipe stand for, said of its statements alone. Going through the
statements of a scope, each assignment that comes to a value binds names to it, and each nested
scope is opened under its name. A path is looked up in what happened before it, first in the
innermost scope and then outwards. Elements and edges go by numbers, given one after the other.
-/
namespace RecipeGraph.Scoping

open RecipeGraph.Graph Recipe

/-- What happens in a scope: a name is bound to an element, or a nested scope is opened. -/
inductive Event
  | bound (name : String) (element : Nat)
  | opened (name : String) (inside : List Event)

/-- The element that was last bound to the name. Events are listed from the latest back. -/
def lastBound (name : String) : List Event → Option Nat
  | [] => none
  | .bound other element :: earlier => if other = name then some element else lastBound name earlier
  | .opened _ _ :: earlier => lastBound name earlier

/-- What happened in the nested scope that was last opened under the name. -/
def lastOpened (name : String) : List Event → Option (List Event)
  | [] => none
  | .bound _ _ :: earlier => lastOpened name earlier
  | .opened other inside :: earlier =>
      if other = name ∧ name ≠ "" then some inside else lastOpened name earlier

/-- The element at the end of a path that leads down through nested scopes. -/
def below : Path → List Event → Option Nat
  | [], _ => none
  | [name], events => lastBound name events
  | name :: next :: rest, events => (lastOpened name events).bind (below (next :: rest))

/-- The scopes around, from the inside out: under which name the scope within was opened, and
what had happened before. -/
abbrev Outside := List (String × List Event)

/-- What a path stands for: the first scope outwards in which the path leads to an element
decides. To a scope around, the one within has been opened already. -/
def denoted (path : Path) : List Event → Outside → Option Nat
  | events, [] => below path events
  | events, (name, before) :: further =>
      (below path events).or (denoted path (.opened name events :: before) further)

structure Link (ι : Type) where
  id : ι
  source : ι
  target : ι
  name : String

def Link.map {ι κ : Type} (f : ι → κ) (link : Link ι) : Link κ :=
  ⟨f link.id, f link.source, f link.target, link.name⟩

/-- A scope by its calls, the edges in it and the scopes in it, without styles. -/
inductive Picture (ι : Type)
  | mk (id : ι) (name : String) (calls : List (ι × String)) (links : List (Link ι))
      (inner : List (Picture ι))

namespace Picture

variable {ι κ : Type}

def id : Picture ι → ι
  | mk id _ _ _ _ => id

mutual

def map (f : ι → κ) : Picture ι → Picture κ
  | mk id name calls links inner =>
      mk (f id) name (calls.map fun call => (f call.1, call.2))
        (links.map (Link.map f)) (mapAll f inner)

def mapAll (f : ι → κ) : List (Picture ι) → List (Picture κ)
  | [] => []
  | picture :: rest => map f picture :: mapAll f rest

end

end Picture

def linkOf (edge : Edge) : Link String :=
  ⟨edge.id, edge.source, edge.target, edge.name⟩

mutual

def picture : Scope → Picture String
  | .mk contents _ children =>
      .mk contents.id contents.name
        (contents.vertices.values.map fun vertex => (vertex.id, vertex.name))
        (contents.edges.values.map linkOf) (pictures children)

def pictures : List Scope → List (Picture String)
  | [] => []
  | scope :: rest => picture scope :: pictures rest

end

/-- A scope of which some statements were gone through. -/
structure Draft where
  label : Nat
  name : String
  /-- How many numbers were given so far. -/
  given : Nat
  events : List Event := []
  calls : List (Nat × String) := []
  links : List (Link Nat) := []
  inner : List (Picture Nat) := []
  /-- What is wrong with references. -/
  missing : List Diagnostic := []

namespace Draft

def picture (draft : Draft) : Picture Nat :=
  .mk draft.label draft.name draft.calls draft.links draft.inner

def miss (draft : Draft) (extent : Option Span) (problem : Problem) : Draft :=
  { draft with missing := draft.missing ++ [⟨extent.getD .origin, problem⟩] }

def call (draft : Draft) (name : String) : Draft :=
  { draft with given := draft.given + 1, calls := draft.calls ++ [(draft.given, name)] }

/-- An edge into the target, from an element that goes by the given name there. -/
def link (target : Nat) (draft : Draft) (flow : Nat × String) : Draft :=
  { draft with
    given := draft.given + 1
    links := draft.links ++ [⟨draft.given, flow.1, target, flow.2⟩] }

def bind (element : Nat) (draft : Draft) (target : Node) : Draft :=
  { draft with events := .bound target.name element :: draft.events }

def bindAll (targets : List Node) (element : Option Nat) (draft : Draft) : Draft :=
  match element with
  | some element => targets.foldl (bind element) draft
  | none => draft

/-- The beginning of a nested scope. -/
def enter (draft : Draft) (name : String) : Draft :=
  { label := draft.given, name := name, given := draft.given + 1, missing := draft.missing }

/-- Back from a nested scope. -/
def leave (draft inside : Draft) : Draft :=
  { draft with
    given := inside.given
    events := .opened inside.name inside.events :: draft.events
    inner := draft.inner ++ [inside.picture]
    missing := inside.missing }

end Draft

mutual

/-- An argument: a call stands for itself, a variable for what it denotes. -/
def drawArg (outside : Outside) : Node → Draft → Option (Nat × String) × Draft
  | .call name args _ _, draft =>
      let (flows, drawn) := drawArgs outside args (draft.call name)
      (some (draft.given, ""), flows.foldl (Draft.link draft.given) drawn)
  | .variable path extent, draft =>
      match denoted path draft.events outside with
      | some element => (some (element, lastSegment path), draft)
      | none => (none, draft.miss extent (.undefinedVariable path))
  | _, draft => (none, draft)

def drawArgs (outside : Outside) : List Node → Draft → List (Nat × String) × Draft
  | [], draft => ([], draft)
  | arg :: rest, draft =>
      let (flow, drawn) := drawArg outside arg draft
      let (flows, drawn) := drawArgs outside rest drawn
      (flow.toList ++ flows, drawn)

end

/-- The arguments of an element, and the edges for what flows in. -/
def drawInflows (outside : Outside) (target : Nat) (args : List Node) (draft : Draft) : Draft :=
  (drawArgs outside args draft).1.foldl (Draft.link target) (drawArgs outside args draft).2

/-- Variables for what another variable denotes. -/
def drawAlias (outside : Outside) (targets : List Node) (path : Path) (extent : Option Span)
    (draft : Draft) : Draft :=
  match denoted path draft.events outside with
  | some element => draft.bindAll targets (some element)
  | none =>
      draft.miss extent
        (.undefinedAliasTarget path (", ".intercalate (targets.map Node.name)))

mutual

/-- One statement without packages. A nested scope is opened before its statements and fed
after them; the variables of an assignment are bound at the very end. -/
def draw (outside : Outside) : Node → Draft → Draft
  | .call name args _ _, draft => drawInflows outside draft.given args (draft.call name)
  | .scope name body _ args _ _ _, draft =>
      drawInflows outside draft.given args
        (draft.leave (drawAll ((name, draft.events) :: outside) body (draft.enter name)))
  | .assignment targets (some (.variable path place)) _, draft =>
      drawAlias outside targets path place draft
  | .assignment targets (some (.call name args _ _)) _, draft =>
      (drawInflows outside draft.given args (draft.call name)).bindAll targets (some draft.given)
  | .assignment targets (some (.scope name body _ args _ _ _)) _, draft =>
      (drawInflows outside draft.given args
        (draft.leave (drawAll ((name, draft.events) :: outside) body (draft.enter name)))).bindAll
          targets (some draft.given)
  | _, draft => draft

def drawAll (outside : Outside) : List Node → Draft → Draft
  | [], draft => draft
  | node :: rest, draft => drawAll outside rest (draw outside node draft)

end

/-- A whole recipe. -/
def drawing (statements : List Node) : Draft :=
  drawAll [] statements { label := 0, name := "", given := 1 }

end RecipeGraph.Scoping
