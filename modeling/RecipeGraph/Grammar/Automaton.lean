import RecipeGraph.Grammar.Derivation
import RecipeGraph.Grammar.Table

/-!
The stack automaton that the parse table drives. It is fed one word at a time: it first completes
the productions that the word shows to be complete, then takes the word in, accepts or refuses it.
A refusal names the state reached by those reductions.
-/
namespace RecipeGraph.Grammar

inductive Action
  | shift (state : Nat)
  | reduce (production : Production)
  | accept

def rowOf (state : Nat) : Row :=
  (rows[state]?).getD ⟨[], [], []⟩

def action? (state : Nat) (terminal : Terminal) : Option Action :=
  if state = acceptingState ∧ terminal = .endOfText then some .accept
  else
    match (rowOf state).shifts.lookup terminal with
    | some next => some (.shift next)
    | none =>
        match (rowOf state).reductions.find? fun entry => entry.2.contains terminal with
        | some entry => (productions[entry.1]?).map .reduce
        | none => none

def jump? (state : Nat) (head : Nonterminal) : Option Nat :=
  (rowOf state).jumps.lookup head

/-- The terminals that some action of the state is for. -/
def expectedIn (state : Nat) : List Terminal :=
  Terminal.all.filter fun terminal => (action? state terminal).isSome

structure Frame where
  state : Nat
  tree : Derivation

abbrev Stack := List Frame

namespace Stack

def state : Stack → Nat
  | [] => 0
  | frame :: _ => frame.state

def reduce? (stack : Stack) (production : Production) : Option Stack :=
  let size := production.body.length
  let below : Stack := stack.drop size
  let children := (stack.take size).reverse.map (·.tree)
  (jump? below.state production.head).map fun next =>
    ⟨next, .node production.head children⟩ :: below

inductive Outcome
  | shifted (stack : Stack)
  | accepted (tree : Derivation)
  | refused (state : Nat)

def feedWithin : Nat → Stack → Token → Outcome
  | 0, stack, _ => .refused stack.state
  | fuel + 1, stack, token =>
      match action? stack.state token.kind, stack with
      | some (.shift next), _ => .shifted (⟨next, .leaf token⟩ :: stack)
      | some (.reduce production), _ =>
          match stack.reduce? production with
          | some reduced => feedWithin fuel reduced token
          | none => .refused stack.state
      | some .accept, frame :: _ => .accepted frame.tree
      | _, _ => .refused stack.state

/-- Before one word a reduction either shortens the stack or is one of a few that keep its
height, so a multiple of the height bounds their number. -/
def feed (stack : Stack) (token : Token) : Outcome :=
  feedWithin (8 * (stack.length + 2)) stack token

end Stack

end RecipeGraph.Grammar
