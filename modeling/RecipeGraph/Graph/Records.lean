import RecipeGraph.Graph.Hierarchy

/-!
Where members keep what they hold. All that can be changed in place is a record with a number of its
own: tag lists, property maps, styles, vertices and edges, and the tables and the set that belong to
a member. Who holds a record knows its number, so that several can hold the same one, and a change of
it is a change for all of them. The contents of a member are what can be read in its records.
-/
namespace RecipeGraph.Graph

inductive Record
  | tags (paths : List Path)
  /-- Properties, or the elements that variables stand for. -/
  | texts (entries : OrderedMap String)
  | locations (items : List String)
  | look (tags properties : Nat)
  | vertex (id name : String) (tags properties : Nat)
  | edge (id name source target : String) (tags properties : Nat)
  | table (entries : OrderedMap Nat)
  | looks (entries : OrderedMap (Option Nat))

namespace Record

inductive Kind
  | tags | texts | locations | look | vertex | edge | table | looks
  deriving DecidableEq

def kind : Record → Kind
  | tags _ => .tags
  | texts _ => .texts
  | locations _ => .locations
  | look .. => .look
  | vertex .. => .vertex
  | edge .. => .edge
  | table _ => .table
  | looks _ => .looks

/-- The records that a record holds. -/
def parts : Record → List Nat
  | look listed mapped => [listed, mapped]
  | vertex _ _ listed mapped => [listed, mapped]
  | edge _ _ _ _ listed mapped => [listed, mapped]
  | table entries => entries.values
  | looks entries => entries.values.reduceOption
  | _ => []

/-- The same with other records for those that it holds. -/
def relocate (f : Nat → Nat) : Record → Record
  | look listed mapped => look (f listed) (f mapped)
  | vertex id name listed mapped => vertex id name (f listed) (f mapped)
  | edge id name source target listed mapped => edge id name source target (f listed) (f mapped)
  | table entries => table (entries.map f)
  | looks entries => looks (entries.map (Option.map f))
  | other => other

def insertRecord (key : String) (r : Nat) : Record → Record
  | table entries => table (entries.insert key r)
  | other => other

def insertText (key text : String) : Record → Record
  | texts entries => texts (entries.insert key text)
  | other => other

def insertLook (key : String) (r : Option Nat) : Record → Record
  | looks entries => looks (entries.insert key r)
  | other => other

def insertLocation (location : String) : Record → Record
  | locations items => locations (if location ∈ items then items else items ++ [location])
  | other => other

end Record

/-- The tables of a member, and the set of the locations asked for. -/
inductive Slot
  | vertices | edges | variableIds | variableLooks | styles | bindings | packages
  deriving DecidableEq

namespace Slot

def all : List Slot :=
  [vertices, edges, variableIds, variableLooks, styles, bindings, packages]

def blank : Slot → Record
  | variableIds => .texts {}
  | variableLooks => .looks {}
  | packages => .locations []
  | _ => .table {}

/-- What is read in a table. -/
def Content : Slot → Type
  | vertices => OrderedMap Vertex
  | edges => OrderedMap Edge
  | variableIds => OrderedMap String
  | variableLooks => OrderedMap (Option Look)
  | styles => OrderedMap Properties
  | bindings => OrderedMap (List Path)
  | packages => List String

end Slot

structure Store where
  records : List Record := []

namespace Store

def size (store : Store) : Nat :=
  store.records.length

def recordAt (store : Store) (r : Nat) : Record :=
  (store.records[r]?).getD (.tags [])

def tagsAt (store : Store) (r : Nat) : List Path :=
  match store.recordAt r with
  | .tags paths => paths
  | _ => []

def textsAt (store : Store) (r : Nat) : OrderedMap String :=
  match store.recordAt r with
  | .texts entries => entries
  | _ => {}

def locationsAt (store : Store) (r : Nat) : List String :=
  match store.recordAt r with
  | .locations items => items
  | _ => []

def lookAt (store : Store) (r : Nat) : Look :=
  match store.recordAt r with
  | .look tags properties => ⟨store.tagsAt tags, store.textsAt properties⟩
  | _ => {}

def vertexAt (store : Store) (r : Nat) : Vertex :=
  match store.recordAt r with
  | .vertex id name tags properties => ⟨id, name, ⟨store.tagsAt tags, store.textsAt properties⟩⟩
  | _ => ⟨"", "", {}⟩

def edgeAt (store : Store) (r : Nat) : Edge :=
  match store.recordAt r with
  | .edge id name source target tags properties =>
      ⟨id, name, source, target, ⟨store.tagsAt tags, store.textsAt properties⟩⟩
  | _ => ⟨"", "", "", "", {}⟩

def tableAt (store : Store) (r : Nat) : OrderedMap Nat :=
  match store.recordAt r with
  | .table entries => entries
  | _ => {}

def looksAt (store : Store) (r : Nat) : OrderedMap (Option Nat) :=
  match store.recordAt r with
  | .looks entries => entries
  | _ => {}

def read (store : Store) (r : Nat) : (slot : Slot) → slot.Content
  | .vertices => (store.tableAt r).map store.vertexAt
  | .edges => (store.tableAt r).map store.edgeAt
  | .variableIds => store.textsAt r
  | .variableLooks => (store.looksAt r).map (Option.map store.lookAt)
  | .styles => (store.tableAt r).map store.textsAt
  | .bindings => (store.tableAt r).map store.tagsAt
  | .packages => store.locationsAt r

def push (store : Store) (records : List Record) : Store :=
  ⟨store.records ++ records⟩

def write (store : Store) (r : Nat) (f : Record → Record) : Store :=
  ⟨store.records.modify r f⟩

/-- The records that the pending ones lead to, each once. -/
def walk (store : Store) (seen : List Nat) : List Nat → List Nat
  | [] => []
  | r :: rest =>
      if _hskip : r ∈ seen ∨ store.records.length ≤ r then walk store seen rest
      else r :: walk store (r :: seen) ((store.recordAt r).parts ++ rest)
termination_by pending =>
  (((List.range store.records.length).filter (· ∉ seen)).length, pending.length)
decreasing_by
  · apply Prod.Lex.right
    simp
  · apply Prod.Lex.left
    obtain ⟨hnew, hbound⟩ := not_or.mp _hskip
    apply length_unseen_lt _ hnew
    simpa using Nat.lt_of_not_le hbound

/-- The number of the copy of a record, when these are copied in this order. -/
def place (store : Store) (live : List Nat) (r : Nat) : Nat :=
  store.size + live.idxOf r

/-- Copies a record with all that it leads to. What is met more than once is copied once. -/
def duplicate (store : Store) (r : Nat) : Nat × Store :=
  let live := store.walk [] [r]
  (store.place live r,
    store.push (live.map fun k => (store.recordAt k).relocate (store.place live)))

/-- Copies one table after the other. -/
def duplicateAll (store : Store) (tables : Slot → Nat) : List Slot → (Slot → Nat) × Store
  | [] => (tables, store)
  | slot :: rest =>
      let copied := store.duplicate (tables slot)
      duplicateAll copied.2 (fun other => if other = slot then copied.1 else tables other) rest

end Store

/-- The records of a member. -/
structure Holding where
  look : Nat
  tables : Slot → Nat

def Store.contents (store : Store) (holding : Holding) (id name : String) : Contents where
  id := id
  name := name
  look := store.lookAt holding.look
  vertices := store.read (holding.tables .vertices) .vertices
  edges := store.read (holding.tables .edges) .edges
  variableIds := store.read (holding.tables .variableIds) .variableIds
  variableLooks := store.read (holding.tables .variableLooks) .variableLooks
  styles := store.read (holding.tables .styles) .styles
  bindings := store.read (holding.tables .bindings) .bindings
  packages := store.read (holding.tables .packages) .packages

/-- What can be put into a member, or given to it. -/
inductive Item
  | vertex (vertex : Vertex)
  | edge (edge : Edge)
  | value (name id : String)
  | valueLook (name : String) (look : Option Look)
  | style (name : String) (properties : Properties)
  | binding (keyword : String) (tags : List Path)
  | package (location : String)
  | look (look : Look)

def Item.put (contents : Contents) : Item → Contents
  | .vertex added => contents.addVertex added
  | .edge added => contents.addEdge added
  | .value name id => contents.bindVariable name id
  | .valueLook name given => contents.setVariableLook name given
  | .style name properties => contents.setStyle name properties
  | .binding keyword tags => contents.bindStyle keyword tags
  | .package location => contents.addPackage location
  | .look given => { contents with look := given }

/-- What is put into a member, by the records that are put in. A list of tags is copied. -/
inductive Gift
  | vertex (r : Nat)
  | edge (r : Nat)
  | value (name id : String)
  | valueLook (name : String) (r : Option Nat)
  | style (name : String) (r : Nat)
  | binding (keyword : String) (tags : List Path)
  | package (location : String)
  | look (r : Nat)

namespace Gift

def records : Gift → List Nat
  | vertex r => [r]
  | edge r => [r]
  | valueLook _ r => r.toList
  | style _ r => [r]
  | look r => [r]
  | _ => []

def item (store : Store) : Gift → Item
  | vertex r => .vertex (store.vertexAt r)
  | edge r => .edge (store.edgeAt r)
  | value name id => .value name id
  | valueLook name r => .valueLook name (r.map store.lookAt)
  | style name r => .style name (store.textsAt r)
  | binding keyword tags => .binding keyword tags
  | package location => .package location
  | look r => .look (store.lookAt r)

end Gift

/-- The records of all members. -/
structure Shelves where
  holdings : List Holding := []
  store : Store := {}

namespace Shelves

def push (shelves : Shelves) (records : List Record) : Shelves :=
  { shelves with store := shelves.store.push records }

/-- Changes a table of a member. -/
def write (shelves : Shelves) (n : Nat) (slot : Slot) (f : Record → Record) : Shelves :=
  match shelves.holdings[n]? with
  | none => shelves
  | some holding => { shelves with store := shelves.store.write (holding.tables slot) f }

def put (shelves : Shelves) (n : Nat) : Gift → Shelves
  | .vertex r => shelves.write n .vertices (.insertRecord (shelves.store.vertexAt r).id r)
  | .edge r => shelves.write n .edges (.insertRecord (shelves.store.edgeAt r).id r)
  | .value name id => shelves.write n .variableIds (.insertText name id)
  | .valueLook name r => shelves.write n .variableLooks (.insertLook name r)
  | .style name r => shelves.write n .styles (.insertRecord name r)
  | .binding keyword tags =>
      (shelves.push [.tags tags]).write n .bindings (.insertRecord keyword shelves.store.size)
  | .package location => shelves.write n .packages (.insertLocation location)
  | .look r => { shelves with holdings := shelves.holdings.modify n ({ · with look := r }) }

/-- All that a member holds, to be put into another one. -/
def gifts (store : Store) (holding : Holding) : List Gift :=
  (store.tableAt (holding.tables .vertices)).values.map .vertex ++
    (store.tableAt (holding.tables .edges)).values.map .edge ++
    (store.tableAt (holding.tables .styles)).entries.map (fun entry => .style entry.1 entry.2) ++
    (store.tableAt (holding.tables .bindings)).entries.map (fun entry =>
      .binding entry.1 (store.tagsAt entry.2)) ++
    (store.textsAt (holding.tables .variableIds)).entries.map (fun entry =>
      .value entry.1 entry.2) ++
    (store.looksAt (holding.tables .variableLooks)).entries.map (fun entry =>
      .valueLook entry.1 entry.2) ++
    (store.locationsAt (holding.tables .packages)).map .package

/-- Puts all that the other member holds into this one. Both hold the same records afterwards. -/
def absorb (shelves : Shelves) (n other : Nat) : Shelves :=
  match shelves.holdings[other]? with
  | none => shelves
  | some given => (gifts shelves.store given).foldl (·.put n ·) shelves

/-- Empty tables for a new member with this style. -/
def add (shelves : Shelves) (look : Nat) : Shelves where
  holdings := shelves.holdings ++
    [⟨look, fun slot => shelves.store.size + Slot.all.idxOf slot⟩]
  store := shelves.store.push (Slot.all.map Slot.blank)

/-- Copies the records of a member for a new one. -/
def duplicate (shelves : Shelves) (n : Nat) : Shelves :=
  match shelves.holdings[n]? with
  | none => shelves
  | some holding =>
      let look := shelves.store.duplicate holding.look
      let tables := look.2.duplicateAll holding.tables Slot.all
      ⟨shelves.holdings ++ [⟨look.1, tables.1⟩], tables.2⟩

/-- Member number `n` with the contents that are in its records. -/
def shown (shelves : Shelves) (n : Nat) (member : Member) : Member :=
  match shelves.holdings[n]? with
  | none => member
  | some holding =>
      { member with contents := shelves.store.contents holding member.id member.name }

end Shelves

/-- Members with their records. -/
structure Archive where
  hierarchy : Hierarchy := {}
  shelves : Shelves := {}

namespace Archive

def size (a : Archive) : Nat :=
  a.hierarchy.members.length

/-- Takes the contents of all members from their records. -/
def reread (a : Archive) : Archive :=
  { a with hierarchy := ⟨a.hierarchy.members.mapIdx a.shelves.shown⟩ }

/-- Changes a record in place. -/
def overwrite (a : Archive) (r : Nat) (record : Record) : Archive :=
  { a with shelves := { a.shelves with store := a.shelves.store.write r fun _ => record } }.reread

/-- Makes a member with a style that is there already. -/
def add (a : Archive) (id name : String) (look : Nat) (parent : Option Nat) : Archive :=
  ⟨a.hierarchy.add { id := id, name := name, look := a.shelves.store.lookAt look } parent,
    a.shelves.add look⟩

def put (a : Archive) (n : Nat) (gift : Gift) : Archive :=
  ⟨a.hierarchy.edit n (gift.item a.shelves.store).put, a.shelves.put n gift⟩

def attach (a : Archive) (parent n : Nat) : Archive :=
  { a with hierarchy := a.hierarchy.attach parent n }

def merge (a : Archive) (n other : Nat) : Archive :=
  ⟨a.hierarchy.merge n other, a.shelves.absorb n other⟩

/-- Copies a member and those below it with all their records. -/
def copyWithin : Nat → Archive → Nat → Archive
  | 0, a, _ => a
  | fuel + 1, a, n =>
      match a.hierarchy.get? n with
      | none => a
      | some member =>
          member.children.values.foldl
            (fun acc child => (copyWithin fuel acc child).attach a.size acc.size)
            ⟨a.hierarchy.add member.contents none, a.shelves.duplicate n⟩

def copy (a : Archive) (n : Nat) : Archive :=
  copyWithin (a.size + 1) a n

end Archive

/-- What can be done to members and records. -/
inductive Deed
  | make (record : Record)
  | overwrite (r : Nat) (record : Record)
  | add (id name : String) (look : Nat) (parent : Option Nat)
  | put (n : Nat) (gift : Gift)
  | setId (n : Nat) (id : String)
  | setName (n : Nat) (name : String)
  | move (n : Nat) (parent : Option Nat)
  | attach (parent n : Nat)
  | merge (n other : Nat)
  | copy (n : Nat)

namespace Deed

def apply (a : Archive) : Deed → Archive
  | make record => { a with shelves := a.shelves.push [record] }
  | overwrite r record => a.overwrite r record
  | add id name look parent => a.add id name look parent
  | put n gift => a.put n gift
  | setId n id => { a with hierarchy := a.hierarchy.setId n id }
  | setName n name => { a with hierarchy := a.hierarchy.setName n name }
  | move n parent => { a with hierarchy := a.hierarchy.move n parent }
  | attach parent n => a.attach parent n
  | merge n other => a.merge n other
  | copy n => a.copy n

/-- The members that something is done to. A copy is made without doing anything to the original. -/
def members : Deed → List Nat
  | make _ | overwrite .. | copy _ => []
  | add _ _ _ parent => parent.toList
  | put n _ | setId n _ | setName n _ => [n]
  | move n parent => n :: parent.toList
  | attach parent n => [parent, n]
  | merge n other => [n, other]

/-- The records that are changed or given. -/
def records : Deed → List Nat
  | make record => record.parts
  | overwrite r record => r :: record.parts
  | add _ _ look _ => [look]
  | put _ gift => gift.records
  | _ => []

end Deed

end RecipeGraph.Graph
