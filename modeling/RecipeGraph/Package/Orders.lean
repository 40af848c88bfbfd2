import RecipeGraph.OrderedMap
import RecipeGraph.Package.Fault

/-!
Orders for packages that are worked on only while someone waits. A location has one order at a
time, which everybody who asks for it gets; a refused request gets an order of its own that is
done at once. Orders in line take turns in the order in which they were placed.
-/
namespace RecipeGraph.Package

inductive Progress (α : Type)
  | waiting
  /-- The text was fetched. -/
  | begun (text : String)
  | done (result : Except Fault α)

structure Order (α : Type) where
  location : String
  chain : List String
  progress : Progress α := .waiting

def Order.result? {α : Type} (order : Order α) : Option (Except Fault α) :=
  match order.progress with
  | .done result => some result
  | _ => none

/-- Those who work on orders, with a state of their own. -/
structure Workshop (α σ : Type) where
  /-- One turn at an order, of which it is known whether it still counts for its location. -/
  turn : Order α → Bool → σ → Progress α × σ
  /-- No order needs more turns than this. -/
  turns : Nat
  /-- What was brought in, be it on the way to something else. -/
  finished : σ → List (String × Except Fault α)

structure OrderBook (α σ : Type) where
  /-- All orders ever placed; an order is known by its place among them. -/
  orders : List (Order α) := []
  /-- The order that counts for a location. -/
  counting : OrderedMap Nat := {}
  line : List Nat := []
  state : σ

namespace OrderBook

variable {α σ : Type}

def get? (book : OrderBook α σ) (n : Nat) : Option (Order α) :=
  book.orders[n]?

def isDone (book : OrderBook α σ) (n : Nat) : Bool :=
  ((book.get? n).bind Order.result?).isSome

/-- The order for a location, which is placed in line if there is none. Its number comes with
it. -/
def place (book : OrderBook α σ) (location : String) (chain : List String) :
    OrderBook α σ × Nat :=
  let n := book.orders.length
  match refusal? location chain with
  | some fault =>
      ({ book with orders := book.orders ++ [⟨location, chain, .done (.error fault)⟩] }, n)
  | none =>
      match book.counting.get? location with
      | some known => (book, known)
      | none =>
          ({ book with
              orders := book.orders ++ [⟨location, location :: chain, .waiting⟩]
              counting := book.counting.insert location n
              line := book.line ++ [n] }, n)

/-- Enters a package that was brought in without an order. -/
def enter (book : OrderBook α σ) (found : String × Except Fault α) : OrderBook α σ :=
  if book.counting.contains found.1 then book
  else
    { book with
      orders := book.orders ++ [⟨found.1, [found.1], .done found.2⟩]
      counting := book.counting.insert found.1 book.orders.length }

/-- Gives a turn to the first in line, who goes to the end unless it is done. -/
def takeTurn (workshop : Workshop α σ) (book : OrderBook α σ) : OrderBook α σ :=
  match book.line with
  | [] => book
  | n :: rest =>
      match book.get? n with
      | none => { book with line := rest }
      | some order =>
          let counts := book.counting.get? order.location = some n
          let (progress, state) := workshop.turn order counts book.state
          let next := { book with
            orders := book.orders.set n { order with progress := progress }
            line := rest
            state := state }
          let settled := (workshop.finished state).foldl enter next
          if settled.isDone n then settled else { settled with line := settled.line ++ [n] }

def takeTurns (workshop : Workshop α σ) : Nat → OrderBook α σ → OrderBook α σ
  | 0, book => book
  | count + 1, book => takeTurns workshop count (takeTurn workshop book)

/-- Gives turns until an order is done, and then one more to all who are still in line. -/
def awaitWithin (workshop : Workshop α σ) (n : Nat) : Nat → OrderBook α σ → OrderBook α σ
  | 0, book => book
  | fuel + 1, book =>
      let next := takeTurn workshop book
      if next.isDone n then takeTurns workshop next.line.length next
      else awaitWithin workshop n fuel next

/-- Waits for an order. Nobody works for an order that is done. -/
def await (workshop : Workshop α σ) (n : Nat) (book : OrderBook α σ) : OrderBook α σ :=
  if book.isDone n then book
  else awaitWithin workshop n (workshop.turns * book.line.length) book

/-- Forgets which orders count. Those in line stay there. -/
def clear (book : OrderBook α σ) : OrderBook α σ :=
  { book with counting := {} }

end OrderBook

end RecipeGraph.Package
