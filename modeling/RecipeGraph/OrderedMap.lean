/-!
A finite map from names to values that remembers the order in which its names first came in.
Writing to a name that is present keeps its place; a name that was erased comes back at the end.
-/
namespace RecipeGraph

structure OrderedMap (α : Type) where
  entries : List (String × α) := []
  deriving Repr

namespace OrderedMap

variable {α β : Type}

def empty : OrderedMap α := ⟨[]⟩

instance : Inhabited (OrderedMap α) := ⟨empty⟩

def lookup (key : String) : List (String × α) → Option α
  | [] => none
  | (k, value) :: rest => if k = key then some value else lookup key rest

def get? (m : OrderedMap α) (key : String) : Option α :=
  lookup key m.entries

def contains (m : OrderedMap α) (key : String) : Bool :=
  (m.get? key).isSome

def write (key : String) (value : α) : List (String × α) → List (String × α)
  | [] => [(key, value)]
  | (k, old) :: rest => if k = key then (k, value) :: rest else (k, old) :: write key value rest

def insert (m : OrderedMap α) (key : String) (value : α) : OrderedMap α :=
  ⟨write key value m.entries⟩

def erase (m : OrderedMap α) (key : String) : OrderedMap α :=
  ⟨m.entries.filter (·.1 ≠ key)⟩

def keys (m : OrderedMap α) : List String :=
  m.entries.map (·.1)

def values (m : OrderedMap α) : List α :=
  m.entries.map (·.2)

def size (m : OrderedMap α) : Nat :=
  m.entries.length

def isEmpty (m : OrderedMap α) : Bool :=
  m.entries.isEmpty

/-- Every entry of the other map is written over this one, in its order. -/
def merge (m other : OrderedMap α) : OrderedMap α :=
  other.entries.foldl (fun acc entry => acc.insert entry.1 entry.2) m

def ofList (entries : List (String × α)) : OrderedMap α :=
  merge empty ⟨entries⟩

def map (f : α → β) (m : OrderedMap α) : OrderedMap β :=
  ⟨m.entries.map fun entry => (entry.1, f entry.2)⟩

/-- The same names with the same values, in any order. -/
def agrees [DecidableEq α] (m other : OrderedMap α) : Bool :=
  m.size = other.size && m.entries.all fun entry => other.get? entry.1 = some entry.2

end OrderedMap

end RecipeGraph
