import RecipeGraph.Graph.Scope

/-!
Scopes under edit. Members are numbered in the order of their making and may be renamed, moved
and merged at any time, so that one may come to lie below itself. Every walk therefore remembers
what it has seen. A member keeps its way from the top as it was when it was last refreshed.
-/
namespace RecipeGraph.Graph

structure Member where
  contents : Contents
  parent : Option Nat := none
  /-- The numbers of the children, each under the id it came with. -/
  children : OrderedMap Nat := {}
  /-- The id of the last child to come in under a name. -/
  names : OrderedMap String := {}
  /-- The ids on the way from the top, which is left out, down to the member's own. -/
  lineage : List String := []

namespace Member

def id (member : Member) : String :=
  member.contents.id

def name (member : Member) : String :=
  member.contents.name

/-- Takes child number `n` in. -/
def place (member : Member) (n : Nat) (id name : String) : Member :=
  { member with
    children := member.children.insert id n
    names := if name = "" then member.names else member.names.insert name id }

/-- Lets child number `n` go, unless another holds its id; its name goes if it leads to that
id. -/
def displace (member : Member) (n : Nat) (id name : String) : Member :=
  { member with
    children := if member.children.get? id = some n then member.children.erase id
      else member.children
    names := if name ≠ "" ∧ member.names.get? name = some id then member.names.erase name
      else member.names }

end Member

theorem length_unseen_lt {α : Type} [DecidableEq α] {items seen : List α} {item : α}
    (hmem : item ∈ items) (hnew : item ∉ seen) :
    (items.filter (· ∉ item :: seen)).length < (items.filter (· ∉ seen)).length := by
  have hle : ∀ rest : List α,
      (rest.filter (· ∉ item :: seen)).length ≤ (rest.filter (· ∉ seen)).length := by
    intro rest
    simp only [← List.countP_eq_length_filter]
    exact List.countP_mono_left (by simp +contextual)
  induction items with
  | nil => simp at hmem
  | cons first rest ih =>
    by_cases hfirst : first = item
    · subst hfirst
      have hrest := Nat.lt_succ_of_le (hle rest)
      simpa [hnew] using hrest
    · have hless := ih (by simpa [Ne.symm hfirst] using hmem)
      by_cases hold : first ∈ seen <;> simpa [hfirst, hold] using hless

structure Hierarchy where
  members : List Member := []

namespace Hierarchy

def get? (h : Hierarchy) (n : Nat) : Option Member :=
  h.members[n]?

def update (h : Hierarchy) (n : Nat) (f : Member → Member) : Hierarchy :=
  ⟨h.members.modify n f⟩

/-- Changes what a member holds by itself. -/
def edit (h : Hierarchy) (n : Nat) (f : Contents → Contents) : Hierarchy :=
  h.update n fun member => { member with contents := f member.contents }

def childrenOf (h : Hierarchy) (n : Nat) : List Nat :=
  match h.get? n with
  | some member => member.children.values
  | none => []

/-- The ids from a member upwards. The way ends before a member that it has passed. -/
def idsUp (h : Hierarchy) (seen : List Nat) (n : Nat) : List String :=
  if _hseen : n ∈ seen then []
  else
    match _hn : h.get? n with
    | none => []
    | some member =>
        member.id ::
          match member.parent with
          | none => []
          | some parent => idsUp h (n :: seen) parent
termination_by ((List.range h.members.length).filter (· ∉ seen)).length
decreasing_by
  apply length_unseen_lt _ _hseen
  have hbound : n < h.members.length := by
    simp only [get?] at _hn
    exact (List.getElem?_eq_some_iff.mp _hn).1
  simpa using hbound

def lineageOf (h : Hierarchy) (n : Nat) : List String :=
  (h.idsUp [] n).dropLast.reverse

/-- The members reached downwards from the pending ones, each once and before those below it. -/
def walk (h : Hierarchy) (seen : List Nat) : List Nat → List Nat
  | [] => []
  | n :: rest =>
      if _hskip : n ∈ seen ∨ h.members.length ≤ n then walk h seen rest
      else n :: walk h (n :: seen) (h.childrenOf n ++ rest)
termination_by pending =>
  (((List.range h.members.length).filter (· ∉ seen)).length, pending.length)
decreasing_by
  · apply Prod.Lex.right
    simp
  · apply Prod.Lex.left
    obtain ⟨hnew, hbound⟩ := not_or.mp _hskip
    apply length_unseen_lt _ hnew
    simpa using Nat.lt_of_not_le hbound

def below (h : Hierarchy) (n : Nat) : List Nat :=
  h.walk [] [n]

/-- Takes down anew the way from the top of a member and of all below it. -/
def refresh (h : Hierarchy) (n : Nat) : Hierarchy :=
  (h.below n).foldl
    (fun acc k => acc.update k fun member => { member with lineage := h.lineageOf k }) h

def setParent (h : Hierarchy) (n : Nat) (parent : Option Nat) : Hierarchy :=
  match h.get? n with
  | none => h
  | some member =>
      let freed := match member.parent with
        | none => h
        | some old =>
            if parent = some old then h
            else h.update old (·.displace n member.id member.name)
      (freed.update n fun member => { member with parent := parent }).refresh n

/-- Puts a member under another, which may already hold it. -/
def attach (h : Hierarchy) (parent n : Nat) : Hierarchy :=
  match h.get? n with
  | none => h
  | some member =>
      (h.update parent (·.place n member.id member.name)).setParent n (some parent)

/-- Makes a member without children; its number is the number of members before. -/
def add (h : Hierarchy) (contents : Contents) (parent : Option Nat) : Hierarchy :=
  let made : Hierarchy := ⟨h.members ++ [{ contents := contents }]⟩
  match parent with
  | some parent => made.attach parent h.members.length
  | none => made.refresh h.members.length

/-- Moves a member to another parent, or to the top. -/
def move (h : Hierarchy) (n : Nat) : Option Nat → Hierarchy
  | some parent => h.attach parent n
  | none => h.setParent n none

def setId (h : Hierarchy) (n : Nat) (id : String) : Hierarchy :=
  match h.get? n with
  | none => h
  | some member =>
      let changed := h.edit n ({ · with id := id })
      let known := match member.parent with
        | none => changed
        | some parent =>
            changed.update parent fun around =>
              { around with
                children :=
                  (if around.children.get? member.id = some n then
                    around.children.erase member.id
                  else around.children).insert id n
                names := if member.name = "" then around.names
                  else around.names.insert member.name id }
      known.refresh n

def setName (h : Hierarchy) (n : Nat) (name : String) : Hierarchy :=
  match h.get? n with
  | none => h
  | some member =>
      let changed := h.edit n ({ · with name := name })
      match member.parent with
      | none => changed
      | some parent =>
          changed.update parent fun around =>
            let freed := if member.name ≠ "" ∧ around.names.get? member.name = some member.id
              then around.names.erase member.name else around.names
            { around with names := if name = "" then freed else freed.insert name member.id }

/-- Takes over the contents of another member and moves its children over. -/
def merge (h : Hierarchy) (n other : Nat) : Hierarchy :=
  match h.get? other with
  | none => h
  | some given =>
      given.children.values.foldl (fun acc child => acc.attach n child)
        (h.edit n (·.merge given.contents))

/-- Copies a member and those below it, as deep as the fuel goes. The copy is the first of the
members made. -/
def copyWithin : Nat → Hierarchy → Nat → Hierarchy
  | 0, h, _ => h
  | fuel + 1, h, n =>
      match h.get? n with
      | none => h
      | some member =>
          member.children.values.foldl
            (fun acc child => (copyWithin fuel acc child).attach h.members.length
              acc.members.length)
            (h.add member.contents none)

def copy (h : Hierarchy) (n : Nat) : Hierarchy :=
  copyWithin (h.members.length + 1) h n

/-- The value at the end of a path that leads down from a member by names of children. -/
def findBelow {α : Type} (h : Hierarchy) (field : Contents → OrderedMap α) :
    Path → Nat → Option α
  | [], _ => none
  | [name], n => (h.get? n).bind fun member => (field member.contents).get? name
  | name :: next :: rest, n =>
      match (h.get? n).bind fun member => (member.names.get? name).bind member.children.get? with
      | some child => findBelow h field (next :: rest) child
      | none => none

/-- The value of a path in a member or else in the nearest of those around it. An id that comes
again ends the search. -/
def resolveFrom {α : Type} (h : Hierarchy) (field : Contents → OrderedMap α) (path : Path)
    (seen : List String) (n : Nat) : Option α :=
  match _hn : h.get? n with
  | none => none
  | some member =>
      if _hseen : member.id ∈ seen then none
      else
        match h.findBelow field path n with
        | some value => some value
        | none =>
            match member.parent with
            | none => none
            | some parent => resolveFrom h field path (member.id :: seen) parent
termination_by ((h.members.map Member.id).filter (· ∉ seen)).length
decreasing_by
  exact length_unseen_lt
    (List.mem_map_of_mem (List.mem_of_getElem? (by simpa only [get?] using _hn))) _hseen

def resolve {α : Type} (h : Hierarchy) (field : Contents → OrderedMap α) (n : Nat)
    (path : Path) : Option α :=
  h.resolveFrom field path [] n

/-- A level below zero is shown like level zero. -/
def outlineWithin (h : Hierarchy) : Nat → Int → Nat → Text.Outline
  | 0, _, _ => []
  | fuel + 1, level, n =>
      match h.get? n with
      | none => []
      | some member =>
          member.contents.outline level.toNat ++
            member.children.values.flatMap (outlineWithin h fuel (level + 1))

/-- The lines of a member and of those below it, among which it must not be itself. -/
def dump (h : Hierarchy) (level : Int) (n : Nat) : String :=
  (h.outlineWithin (h.members.length + 1) level n).render

def jsonWithin (h : Hierarchy) : Nat → Nat → Json
  | 0, _ => .null
  | fuel + 1, n =>
      match h.get? n with
      | none => .null
      | some member =>
          member.contents.toJson (Scope.lineageText member.lineage)
            (Scope.lineageText member.lineage.dropLast)
            (member.children.values.map (jsonWithin h fuel))

/-- The document of a member and of those below it, among which it must not be itself. -/
def toJson (h : Hierarchy) (n : Nat) : Json :=
  h.jsonWithin (h.members.length + 1) n

end Hierarchy

end RecipeGraph.Graph
