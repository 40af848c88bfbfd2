import Mathlib.Tactic.Common
import RecipeGraph.Grammar.Automaton

/-!
The stacks that the automaton can come to. On such a stack every frame stands where its symbol leads
from the frame below, and holds a derivation. Then a reduction always finds the body of its
production on top and keeps the words of the stack as they are, and before one word there are only
so many reductions.
-/
namespace RecipeGraph.Grammar

/-- Where a symbol leads from a state. -/
def goto? (state : Nat) : Symbol → Option Nat
  | .terminal terminal => (rowOf state).shifts.lookup terminal
  | .nonterminal head => jump? state head

structure Edge where
  source : Nat
  symbol : Symbol
  target : Nat

def Row.edges (state : Nat) (row : Row) : List Edge :=
  row.shifts.map (fun shift => ⟨state, .terminal shift.1, shift.2⟩) ++
    row.jumps.map fun jump => ⟨state, .nonterminal jump.1, jump.2⟩

def edges : List Edge :=
  rows.zipIdx.flatMap fun row => row.1.edges row.2

section Edges

variable {state next : Nat} {symbol : Symbol} {terminal : Terminal} {head : Nonterminal}

theorem mem_of_lookup {α β : Type} [BEq α] [LawfulBEq α] {entries : List (α × β)} {key : α}
    {value : β} (h : entries.lookup key = some value) : (key, value) ∈ entries := by
  obtain ⟨before, after, rfl, -⟩ := List.lookup_eq_some_iff.mp h
  simp

theorem mem_rows {row : Row} (h : rows[state]? = some row) : (row, state) ∈ rows.zipIdx :=
  List.mem_zipIdx_iff_getElem?.mpr h

theorem rowOf_cases (state : Nat) :
    rowOf state = ⟨[], [], []⟩ ∨ (rowOf state, state) ∈ rows.zipIdx := by
  unfold rowOf
  cases hrow : rows[state]? with
  | none => exact .inl rfl
  | some row => exact .inr (mem_rows hrow)

theorem mem_edges (h : goto? state symbol = some next) : ⟨state, symbol, next⟩ ∈ edges := by
  have hedge : ⟨state, symbol, next⟩ ∈ (rowOf state).edges state := by
    unfold Row.edges
    cases symbol with
    | terminal terminal =>
      exact List.mem_append_left _ (List.mem_map.mpr ⟨_, mem_of_lookup h, rfl⟩)
    | nonterminal head =>
      exact List.mem_append_right _ (List.mem_map.mpr ⟨_, mem_of_lookup h, rfl⟩)
  rcases rowOf_cases state with hnone | hrow
  · rw [hnone] at hedge
    simp [Row.edges] at hedge
  · exact List.mem_flatMap.mpr ⟨_, hrow, hedge⟩

end Edges

/-- Every way into the state ends with these symbols, the last of them first. -/
def endsIn : Nat → List Symbol → Bool
  | _, [] => true
  | state, symbol :: rest =>
      state != 0 && edges.all fun edge =>
        edge.target != state || (edge.symbol = symbol && endsIn edge.source rest)

/-- How much must be left to do before a word when a symbol is on top of the stack: more for what
is made of it alone. Nothing at all is made into something at the beginning and after a bracket. -/
def weight : Symbol → Nat
  | .terminal .leftBracket => 9
  | .nonterminal (.rule .recipe) | .nonterminal (.rule .body) => 0
  | .nonterminal (.rule .argList) => 3
  | .nonterminal .value | .nonterminal .statement | .nonterminal .rightSide => 4
  | .nonterminal (.rule .reference) | .nonterminal .statements | .nonterminal .styleItems => 5
  | .nonterminal (.rule .qualifiedName) | .nonterminal .separator | .nonterminal .tagItems |
    .nonterminal (.rule .target) | .nonterminal (.rule .description) |
    .nonterminal (.rule .propertyValue) | .nonterminal .locations => 6
  | _ => 7

/-- A production with one symbol makes what weighs less, any other nothing that weighs much. -/
def Production.lightens (production : Production) : Bool :=
  match production.body with
  | [] => weight (.nonterminal production.head) = 0
  | [symbol] => weight (.nonterminal production.head) < weight symbol
  | _ => weight (.nonterminal production.head) ≤ 7

/-- Where nothing is made into something, the stack is empty or has a bracket on top. -/
def Production.fits (state : Nat) (production : Production) : Bool :=
  production.body ≠ [] || state == 0 || edges.all fun edge =>
    edge.target != state || edge.symbol = .terminal .leftBracket

section Table

/-- A reduction finds the body of its production on top of every stack. -/
theorem reductions_found : (rows.zipIdx.all fun row => row.1.reductions.all fun entry =>
    match productions[entry.1]? with
    | some production =>
        endsIn row.2 production.body.reverse && production.fits row.2
    | none => false) = true := by
  decide +kernel

theorem productions_lighten : productions.all Production.lightens = true := by
  decide +kernel

/-- Nothing leads to the start, and only a whole recipe leads to the accepting state, from there. -/
theorem accepting_found : (edges.all fun edge =>
    edge.target != 0 && (edge.target != acceptingState ||
      (edge.source == 0 && edge.symbol = .nonterminal (.rule .recipe)))) = true := by
  decide +kernel

end Table

namespace Derivation

theorem tokensOfAll_append (derivations further : List Derivation) :
    tokensOfAll (derivations ++ further) = tokensOfAll derivations ++ tokensOfAll further := by
  induction derivations with
  | nil => rfl
  | cons first rest ih =>
    rw [List.cons_append, tokensOfAll, tokensOfAll, ih, List.append_assoc]

theorem allWellformed_iff {derivations : List Derivation} :
    AllWellformed derivations ↔ ∀ derivation ∈ derivations, derivation.Wellformed := by
  induction derivations with
  | nil => simp [AllWellformed]
  | cons first rest ih => simp [AllWellformed, ih]

end Derivation

namespace Stack

/-- Every frame stands where its symbol leads from the frame below, and holds a derivation. -/
inductive Sound : Stack → Prop
  | empty : Sound []
  | push {frame : Frame} {below : Stack} (hbelow : Sound below)
      (hgoto : goto? (Stack.state below) frame.tree.symbol = some frame.state)
      (hwellformed : frame.tree.Wellformed) : Sound (frame :: below)

/-- The derivations on the stack, the first one at the bottom. -/
def trees (stack : Stack) : List Derivation :=
  stack.reverse.map (·.tree)

/-- The words on the stack. -/
def words (stack : Stack) : List Token :=
  Derivation.tokensOfAll stack.trees

/-- What is on top of the stack, an empty one counting as much as a bracket. -/
def topWeight : Stack → Nat
  | [] => 9
  | frame :: _ => weight frame.tree.symbol

/-- A bound for the reductions to come before one word. -/
def load (stack : Stack) : Nat :=
  8 * stack.length + stack.topWeight

section Sound

variable {stack below : Stack} {frame : Frame} {production : Production} {terminal : Terminal}
  {token : Token}

theorem words_push (frame : Frame) (stack : Stack) :
    words (frame :: stack) = stack.words ++ frame.tree.tokens := by
  unfold words trees
  rw [List.reverse_cons, List.map_append, Derivation.tokensOfAll_append]
  simp [Derivation.tokensOfAll]

/-- If every way into the top state ends with some symbols, they are on top. -/
theorem Sound.endsIn {symbols : List Symbol} (h : Sound stack)
    (hends : Grammar.endsIn stack.state symbols = true) :
    (stack.take symbols.length).map (·.tree.symbol) = symbols := by
  induction symbols generalizing stack with
  | nil => rfl
  | cons symbol rest ih =>
    simp only [Grammar.endsIn, Bool.and_eq_true, bne_iff_ne, List.all_eq_true] at hends
    obtain ⟨hstart, hinto⟩ := hends
    cases h with
    | empty => exact absurd rfl hstart
    | @push frame below hbelow hgoto _ =>
      have hedge := hinto _ (mem_edges hgoto)
      simp only [Stack.state, bne_self_eq_false, Bool.false_or, Bool.and_eq_true,
        decide_eq_true_eq] at hedge
      obtain ⟨hsymbol, hrest⟩ := hedge
      simp [hsymbol, ih hbelow hrest]

theorem Sound.wellformed (h : Sound stack) : ∀ frame ∈ stack, frame.tree.Wellformed := by
  induction h with
  | empty => simp
  | push _ _ hwellformed ih => exact List.forall_mem_cons.mpr ⟨hwellformed, ih⟩

theorem Sound.drop (h : Sound stack) (count : Nat) : Sound (stack.drop count) := by
  induction count generalizing stack with
  | zero => exact h
  | succ count ih =>
    cases h with
    | empty => exact .empty
    | push hbelow _ _ => exact ih hbelow

theorem mem_reductions (h : action? stack.state terminal = some (.reduce production)) :
    ∃ entry ∈ (rowOf stack.state).reductions, productions[entry.1]? = some production := by
  unfold action? at h
  split at h
  · cases h
  · split at h
    · cases h
    · split at h
      · rename_i entry hentry
        cases hproduction : productions[entry.1]? with
        | none => simp [hproduction] at h
        | some found =>
          simp only [hproduction, Option.map_some, Option.some.injEq, Action.reduce.injEq] at h
          exact ⟨entry, List.mem_of_find?_eq_some hentry, h ▸ hproduction⟩
      · cases h

theorem reduction_found (h : action? stack.state terminal = some (.reduce production)) :
    production ∈ productions ∧ endsIn stack.state production.body.reverse = true ∧
      production.fits stack.state = true := by
  obtain ⟨entry, hentry, hproduction⟩ := mem_reductions h
  rcases rowOf_cases stack.state with hnone | hrow
  · rw [hnone] at hentry
    simp at hentry
  · have hfound := reductions_found
    simp only [List.all_eq_true] at hfound
    have hchecked := hfound _ hrow entry hentry
    rw [hproduction] at hchecked
    simp only [Bool.and_eq_true] at hchecked
    exact ⟨List.mem_of_getElem? hproduction, hchecked.1, hchecked.2⟩

theorem mem_bodies (h : production ∈ productions) : production.body ∈ bodies production.head := by
  unfold productions at h
  simp only [List.mem_flatMap, List.mem_map] at h
  obtain ⟨head, -, body, hbody, rfl⟩ := h
  exact hbody

/-- The derivations that a reduction takes off the stack. -/
def taken (stack : Stack) (production : Production) : List Derivation :=
  (stack.take production.body.length).reverse.map (·.tree)

theorem Sound.taken_symbols (h : Sound stack)
    (hends : Grammar.endsIn stack.state production.body.reverse = true) :
    (stack.taken production).map Derivation.symbol = production.body := by
  have htop := h.endsIn hends
  rw [List.length_reverse] at htop
  unfold taken
  rw [List.map_map, List.map_reverse]
  exact List.reverse_eq_iff.mpr htop

theorem words_drop_take (stack : Stack) (count : Nat) :
    words (stack.drop count) ++
      Derivation.tokensOfAll ((stack.take count).reverse.map (·.tree)) = stack.words := by
  unfold words trees
  rw [← Derivation.tokensOfAll_append, ← List.map_append, ← List.reverse_append,
    List.take_append_drop]

theorem reduce?_eq (h : stack.reduce? production = some below) :
    ∃ next, jump? (Stack.state (stack.drop production.body.length)) production.head = some next ∧
      below = ⟨next, .node production.head (stack.taken production)⟩ ::
        stack.drop production.body.length := by
  unfold reduce? at h
  simp only [Option.map_eq_some_iff] at h
  obtain ⟨next, hnext, rfl⟩ := h
  exact ⟨next, hnext, rfl⟩

/-- A reduction leaves a sound stack with the same words. -/
theorem Sound.reduce (h : Sound stack)
    (haction : action? stack.state terminal = some (.reduce production))
    (hreduce : stack.reduce? production = some below) :
    Sound below ∧ below.words = stack.words := by
  obtain ⟨hproduction, hends, -⟩ := reduction_found haction
  obtain ⟨next, hnext, rfl⟩ := reduce?_eq hreduce
  refine ⟨.push (h.drop _) hnext ⟨?_, ?_⟩, ?_⟩
  · rw [h.taken_symbols hends]
    exact mem_bodies hproduction
  · rw [Derivation.allWellformed_iff]
    intro derivation hin
    simp only [taken, List.mem_map, List.mem_reverse] at hin
    obtain ⟨frame, hframe, rfl⟩ := hin
    exact h.wellformed frame (List.mem_of_mem_take hframe)
  · rw [words_push]
    exact words_drop_take stack _

theorem Sound.state_zero (h : Sound stack) (hstate : stack.state = 0) : stack = [] := by
  cases h with
  | empty => rfl
  | @push frame below _ hgoto _ =>
    have hfound := accepting_found
    simp only [List.all_eq_true] at hfound
    have hedge := hfound _ (mem_edges hgoto)
    simp only [Bool.and_eq_true, bne_iff_ne] at hedge
    exact absurd hstate hedge.1

/-- Nothing is made into something only where that is the beginning of much. -/
theorem Sound.topWeight_of_fits (h : Sound stack) (hfits : production.fits stack.state = true)
    (hbody : production.body = []) : stack.topWeight = 9 := by
  cases h with
  | empty => rfl
  | @push frame below hbelow hgoto hwellformed =>
    have hstate : Stack.state (frame :: below) ≠ 0 := by
      intro hzero
      have hempty := (Sound.push hbelow hgoto hwellformed).state_zero hzero
      simp at hempty
    simp only [Production.fits, hbody, ne_eq, not_true_eq_false, decide_false, Bool.false_or,
      Bool.or_eq_true, beq_iff_eq, List.all_eq_true] at hfits
    have hedge := hfits.resolve_left hstate _ (mem_edges hgoto)
    have hsymbol : frame.tree.symbol = .terminal .leftBracket := by simpa [Stack.state] using hedge
    show weight frame.tree.symbol = 9
    rw [hsymbol]
    rfl

theorem topWeight_eq {symbol : Symbol}
    (h : (stack.take 1).map (·.tree.symbol) = [symbol]) : stack.topWeight = weight symbol := by
  cases stack with
  | nil => simp at h
  | cons frame below =>
    simp only [List.take_succ_cons, List.take_zero, List.map_cons, List.map_nil, List.cons.injEq,
      and_true] at h
    simp [topWeight, h]

/-- A reduction makes the load less. -/
theorem Sound.load_lt (h : Sound stack)
    (haction : action? stack.state terminal = some (.reduce production))
    (hreduce : stack.reduce? production = some below) : load below < load stack := by
  obtain ⟨hproduction, hends, hfits⟩ := reduction_found haction
  have hlighter := List.all_eq_true.mp productions_lighten production hproduction
  have htop := h.endsIn hends
  have hcount : production.body.length ≤ stack.length := by
    have hlength := congrArg List.length htop
    simp only [List.length_map, List.length_take, List.length_reverse] at hlength
    omega
  have hbelow : load below = 8 * (stack.length - production.body.length + 1) +
      weight (.nonterminal production.head) := by
    obtain ⟨next, -, rfl⟩ := reduce?_eq hreduce
    simp [load, topWeight, Derivation.symbol]
  rw [hbelow]
  unfold load
  unfold Production.lightens at hlighter
  -- The stack grows, keeps its height or shrinks, with none, one or more symbols in the body.
  cases hbody : production.body with
  | nil =>
    have hweight := h.topWeight_of_fits hfits hbody
    simp only [hbody, decide_eq_true_eq] at hlighter
    simp only [List.length_nil]
    omega
  | cons symbol rest =>
    cases rest with
    | nil =>
      rw [hbody] at htop hcount
      have hweight := topWeight_eq htop
      simp only [hbody, decide_eq_true_eq] at hlighter
      simp only [List.length_singleton] at hcount ⊢
      omega
    | cons second others =>
      simp only [hbody, decide_eq_true_eq] at hlighter
      simp only [hbody, List.length_cons] at hcount ⊢
      omega

/-- With as much fuel as the load, it makes no difference how much more there is. -/
theorem Sound.feedWithin_enough (h : Sound stack) (token : Token) {fuel fuel' : Nat}
    (hfuel : stack.load < fuel) (hfuel' : stack.load < fuel') :
    stack.feedWithin fuel token = stack.feedWithin fuel' token := by
  induction fuel generalizing stack fuel' with
  | zero => omega
  | succ fuel ih =>
    cases fuel' with
    | zero => omega
    | succ fuel' =>
      unfold feedWithin
      cases haction : action? stack.state token.kind with
      | none => rfl
      | some action =>
        cases action with
        | shift next => rfl
        | accept => cases stack <;> rfl
        | reduce production =>
          dsimp only
          cases hreduce : stack.reduce? production with
          | none => rfl
          | some below =>
            have hless := h.load_lt haction hreduce
            exact ih (h.reduce haction hreduce).1 (by omega) (by omega)

theorem feedWithin_reduce (haction : action? stack.state token.kind = some (.reduce production))
    (hreduce : stack.reduce? production = some below) (fuel : Nat) :
    stack.feedWithin (fuel + 1) token = below.feedWithin fuel token := by
  conv_lhs => unfold feedWithin
  rw [haction]
  dsimp only
  rw [hreduce]

theorem Sound.load_le (h : Sound stack) : stack.load ≤ 8 * stack.length + 9 := by
  unfold load
  cases h with
  | empty => simp [topWeight]
  | @push frame below =>
    have hweight : weight frame.tree.symbol ≤ 9 := by
      unfold weight
      split <;> omega
    simp only [topWeight]
    omega

/-- What comes of a word after a reduction that it brings about is what comes of it at once. -/
theorem Sound.feed_reduce (h : Sound stack)
    (haction : action? stack.state token.kind = some (.reduce production))
    (hreduce : stack.reduce? production = some below) : stack.feed token = below.feed token := by
  obtain ⟨hbelow, -⟩ := h.reduce haction hreduce
  have hless := h.load_lt haction hreduce
  have hload := h.load_le
  have hload' := hbelow.load_le
  have hfuel : 8 * (stack.length + 2) = 8 * stack.length + 15 + 1 := by omega
  unfold feed
  rw [hfuel, feedWithin_reduce haction hreduce]
  exact hbelow.feedWithin_enough token (by omega) (by omega)

end Sound

end Stack

end RecipeGraph.Grammar
