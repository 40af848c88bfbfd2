import RecipeGraph.Proofs.Driving

/-!
Words that are changed in everything but their terminals. The automaton does not see such a change:
it goes through the same states, and what it builds is what it would have built, with the words
changed. So much of a word as a comparison needs is kept by one of the changes below.
-/
namespace RecipeGraph.Grammar

/-- A change of words that leaves their terminals alone. -/
def KeepsKind (label : Token → Token) : Prop :=
  ∀ token : Token, (label token).kind = token.kind

namespace Token

/-- A word without its text and its place. -/
def sort (token : Token) : Token :=
  ⟨token.kind, "", 0, 0, 0, 0⟩

/-- A word without its place, and without a text that the syntax tree leaves out. -/
def bare (token : Token) : Token :=
  ⟨token.kind, if token.kind.isKept then token.text else "", 0, 0, 0, 0⟩

/-- A word without its line and column. -/
def unlined (token : Token) : Token :=
  ⟨token.kind, token.text, token.start, token.stop, 0, 0⟩

theorem keepsKind_sort : KeepsKind sort := fun _ => rfl

theorem keepsKind_bare : KeepsKind bare := fun _ => rfl

theorem keepsKind_unlined : KeepsKind unlined := fun _ => rfl

end Token

namespace Derivation

mutual

/-- A derivation with its words changed. -/
def relabel (label : Token → Token) : Derivation → Derivation
  | leaf token => leaf (label token)
  | node head children => node head (relabelAll label children)

def relabelAll (label : Token → Token) : List Derivation → List Derivation
  | [] => []
  | child :: rest => relabel label child :: relabelAll label rest

end

section Relabel

variable {label : Token → Token}

theorem relabelAll_eq_map (derivations : List Derivation) :
    relabelAll label derivations = derivations.map (relabel label) := by
  induction derivations with
  | nil => rfl
  | cons first rest ih => simp [relabelAll, ih]

theorem symbol_relabel (hlabel : KeepsKind label) (derivation : Derivation) :
    (derivation.relabel label).symbol = derivation.symbol := by
  cases derivation with
  | leaf token => simp [relabel, symbol, hlabel token]
  | node head children => rfl

mutual

theorem tokens_relabel : ∀ derivation : Derivation,
    (derivation.relabel label).tokens = derivation.tokens.map label
  | leaf _ => rfl
  | node _ children => tokensOfAll_relabelAll children

theorem tokensOfAll_relabelAll : ∀ derivations : List Derivation,
    tokensOfAll (relabelAll label derivations) = (tokensOfAll derivations).map label
  | [] => rfl
  | first :: rest => by
    simp only [relabelAll, tokensOfAll, List.map_append]
    rw [tokens_relabel first, tokensOfAll_relabelAll rest]

end

mutual

theorem wellformed_relabel (hlabel : KeepsKind label) : ∀ derivation : Derivation,
    derivation.Wellformed → (derivation.relabel label).Wellformed
  | leaf _, _ => trivial
  | node head children, h => by
    refine ⟨?_, allWellformed_relabelAll hlabel children h.2⟩
    have hsymbols : (children.map (relabel label)).map symbol = children.map symbol := by
      simp [symbol_relabel hlabel]
    rw [relabelAll_eq_map, hsymbols]
    exact h.1

theorem allWellformed_relabelAll (hlabel : KeepsKind label) : ∀ derivations : List Derivation,
    AllWellformed derivations → AllWellformed (relabelAll label derivations)
  | [], _ => trivial
  | first :: rest, h =>
    ⟨wellformed_relabel hlabel first h.1, allWellformed_relabelAll hlabel rest h.2⟩

end

end Relabel

end Derivation

namespace Stack

/-- A stack with the words in its derivations changed. -/
def relabel (label : Token → Token) (stack : Stack) : Stack :=
  stack.map fun frame => ⟨frame.state, frame.tree.relabel label⟩

def Outcome.relabel (label : Token → Token) : Outcome → Outcome
  | shifted stack => shifted (stack.relabel label)
  | accepted tree => accepted (tree.relabel label)
  | refused state => refused state

section Relabel

variable {label : Token → Token}

theorem relabel_cons (frame : Frame) (stack : Stack) :
    relabel label (frame :: stack) =
      ⟨frame.state, frame.tree.relabel label⟩ :: relabel label stack := rfl

theorem length_relabel (stack : Stack) : (stack.relabel label).length = stack.length := by
  simp [relabel]

theorem state_relabel (stack : Stack) : (stack.relabel label).state = stack.state := by
  cases stack <;> rfl

theorem drop_relabel (stack : Stack) (count : Nat) :
    (stack.relabel label).drop count = relabel label (stack.drop count) := by
  simp [relabel]

theorem trees_take_relabel (stack : Stack) (count : Nat) :
    ((stack.relabel label).take count).reverse.map (·.tree) =
      ((stack.take count).reverse.map (·.tree)).map (Derivation.relabel label) := by
  simp [relabel, List.map_take, Function.comp_def]

theorem reduce?_relabel (stack : Stack) (production : Production) :
    (stack.relabel label).reduce? production =
      (stack.reduce? production).map (Stack.relabel label) := by
  unfold reduce?
  dsimp only
  rw [drop_relabel, state_relabel, trees_take_relabel, Option.map_map]
  congr 1
  funext next
  simp [relabel_cons, Derivation.relabel, Derivation.relabelAll_eq_map]

theorem feedWithin_relabel (hlabel : KeepsKind label) (fuel : Nat) (stack : Stack)
    (token : Token) :
    (stack.relabel label).feedWithin fuel (label token) =
      (stack.feedWithin fuel token).relabel label := by
  induction fuel generalizing stack with
  | zero => simp [feedWithin, Outcome.relabel, state_relabel]
  | succ fuel ih =>
    unfold feedWithin
    rw [state_relabel, hlabel token]
    cases haction : action? stack.state token.kind with
    | none => rfl
    | some action =>
      cases action with
      | shift next => rfl
      | accept => cases stack <;> rfl
      | reduce production =>
        dsimp only
        rw [reduce?_relabel]
        cases hreduce : stack.reduce? production with
        | none => rfl
        | some below => exact ih below

/-- The automaton looks at nothing but the terminals of its words. -/
theorem feed_relabel (hlabel : KeepsKind label) (stack : Stack) (token : Token) :
    (stack.relabel label).feed (label token) = (stack.feed token).relabel label := by
  unfold feed
  rw [length_relabel]
  exact feedWithin_relabel hlabel _ stack token

/-- Stacks that only differ in what a change takes away do the same with words that do so. -/
theorem feed_congr (hlabel : KeepsKind label) {stack other : Stack} {token further : Token}
    (hstack : stack.relabel label = other.relabel label) (htoken : label token = label further) :
    (stack.feed token).relabel label = (other.feed further).relabel label := by
  rw [← feed_relabel hlabel, ← feed_relabel hlabel, hstack, htoken]

/-- What is accepted does not depend on which word marks the end of the text. -/
theorem feedWithin_accepted_congr {token other : Token} {tree : Derivation} {fuel : Nat}
    {stack : Stack} (hkind : token.kind = other.kind)
    (h : stack.feedWithin fuel token = .accepted tree) :
    stack.feedWithin fuel other = .accepted tree := by
  have hfeeds := feeds_of_eq h
  clear h
  generalize hends : Outcome.accepted tree = outcome at hfeeds ⊢
  induction hfeeds with
  | @accept _ frame below haction =>
    rw [hkind] at haction
    unfold feedWithin
    rw [show state (frame :: below) = frame.state from rfl, haction]
  | reduce haction hreduce _ ih =>
    rw [feedWithin_reduce (hkind ▸ haction) hreduce]
    exact ih hends
  | spent | shift | refuse | short => cases hends

/-- Stacks that only differ in what a change takes away are accepted together. -/
theorem feed_accepted_congr (hlabel : KeepsKind label) {stack other : Stack}
    {token further : Token} {tree : Derivation} (hkind : token.kind = further.kind)
    (hstack : stack.relabel label = other.relabel label)
    (h : stack.feed token = .accepted tree) :
    ∃ tree', other.feed further = .accepted tree' ∧ tree.relabel label = tree'.relabel label := by
  have hkinds : (label token).kind = (label further).kind := by
    rw [hlabel token, hlabel further, hkind]
  have hfed := feed_relabel hlabel stack token
  rw [h, hstack] at hfed
  have hfurther : (other.feed further).relabel label = .accepted (tree.relabel label) := by
    rw [← feed_relabel hlabel]
    exact feedWithin_accepted_congr hkinds hfed
  cases hother : other.feed further with
  | accepted tree' =>
    rw [hother] at hfurther
    exact ⟨tree', rfl, (Outcome.accepted.inj hfurther).symm⟩
  | shifted after => simp [hother, Outcome.relabel] at hfurther
  | refused state => simp [hother, Outcome.relabel] at hfurther

end Relabel

end Stack

end RecipeGraph.Grammar
