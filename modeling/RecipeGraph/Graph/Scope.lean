import RecipeGraph.Graph.Contents

/-!
Scopes within scopes. A child is found by its id, and by its name through the name map, where
the last child to come in under a name holds it. A child with the id of an earlier one takes
its place.
-/
namespace RecipeGraph.Graph

inductive Scope
  | mk (contents : Contents) (names : OrderedMap String) (children : List Scope)

namespace Scope

def contents : Scope → Contents
  | mk contents _ _ => contents

def names : Scope → OrderedMap String
  | mk _ names _ => names

def children : Scope → List Scope
  | mk _ _ children => children

def id (scope : Scope) : String :=
  scope.contents.id

def name (scope : Scope) : String :=
  scope.contents.name

/-- A scope without children. -/
def ofContents (contents : Contents) : Scope :=
  mk contents {} []

def mapContents (f : Contents → Contents) : Scope → Scope
  | mk contents names children => mk (f contents) names children

def child? (scope : Scope) (id : String) : Option Scope :=
  scope.children.find? (·.id = id)

def placeChild (child : Scope) : List Scope → List Scope
  | [] => [child]
  | first :: rest =>
      if first.id = child.id then child :: rest else first :: placeChild child rest

def attach (parent child : Scope) : Scope :=
  mk parent.contents
    (if child.name = "" then parent.names else parent.names.insert child.name child.id)
    (placeChild child parent.children)

/-- Takes over the contents and the children of the other scope. -/
def merge (scope other : Scope) : Scope :=
  other.children.foldl attach (scope.mapContents (·.merge other.contents))

mutual

/-- A copy whose names are given anew, child by child in their order. -/
def copy : Scope → Scope
  | mk contents _ children => (copyAll children).foldl attach (ofContents contents)

def copyAll : List Scope → List Scope
  | [] => []
  | scope :: rest => copy scope :: copyAll rest

end

/-- The value at the end of a path that leads down from a scope by names of children. -/
def findBelow {α : Type} (member : Contents → OrderedMap α) : Path → Scope → Option α
  | [], _ => none
  | [name], scope => (member scope.contents).get? name
  | name :: next :: rest, scope =>
      match (scope.names.get? name).bind scope.child? with
      | some child => findBelow member (next :: rest) child
      | none => none

/-- The value of a path in a scope or else in the nearest of the scopes around it. The scopes
around are listed from the inside out, each without the child that leads to the scope inside. An
id that comes again ends the search. -/
def resolveFrom {α : Type} (member : Contents → OrderedMap α) (path : Path) (seen : List String)
    (scope : Scope) (outer : List Scope) : Option α :=
  if scope.id ∈ seen then none
  else
    match scope.findBelow member path with
    | some value => some value
    | none =>
        match outer with
        | [] => none
        | around :: further =>
            resolveFrom member path (scope.id :: seen) (around.attach scope) further

def resolve {α : Type} (member : Contents → OrderedMap α) (scope : Scope) (outer : List Scope)
    (path : Path) : Option α :=
  resolveFrom member path [] scope outer

mutual

/-- The scope itself and all scopes in it, each before those in it. -/
def all : Scope → List Scope
  | mk contents names children => mk contents names children :: allOf children

def allOf : List Scope → List Scope
  | [] => []
  | scope :: rest => all scope ++ allOf rest

end

mutual

def outline (depth : Nat) : Scope → Text.Outline
  | mk contents _ children => contents.outline depth ++ outlines (depth + 1) children

def outlines (depth : Nat) : List Scope → Text.Outline
  | [] => []
  | scope :: rest => outline depth scope ++ outlines depth rest

end

def dump (scope : Scope) : String :=
  (scope.outline 0).render

/-- The ids on the way from the root, which is left out. -/
def lineageText (ids : List String) : String :=
  String.join (ids.map ("/" ++ ·))

mutual

def jsonAt (lineage : List String) : Scope → Json
  | mk contents _ children =>
      contents.toJson (lineageText lineage) (lineageText lineage.dropLast)
        (jsonsAt lineage children)

def jsonsAt (lineage : List String) : List Scope → List Json
  | [] => []
  | scope :: rest => jsonAt (lineage ++ [scope.id]) scope :: jsonsAt lineage rest

end

def toJson (scope : Scope) : Json :=
  scope.jsonAt []

end Scope

end RecipeGraph.Graph
