import RecipeGraph.Proofs.ReadingSteps
import RecipeGraph.Source.Parse

/-!
Where a text stops being one of a recipe. Whatever the automaton has on its stack can still become
a recipe: something is on the way on top of it, and once the rest of that has come the stack is
shorter, or there is less to make of its top. So the words that were taken in begin some recipe.
None begins with them and a word that was refused.
-/
namespace RecipeGraph.Grammar

/-- The ways into a state. -/
def entering (state : Nat) : List Edge :=
  edges.filter (·.target == state)

/-- Every way into the state ends with these symbols, the last of them first, and begins where the
head leads on. -/
def comesFrom (head : Nonterminal) : Nat → List Symbol → Bool
  | state, [] => (jump? state head).isSome
  | state, symbol :: rest =>
      state != 0 && (entering state).all fun edge =>
        edge.symbol = symbol && comesFrom head edge.source rest

/-- How much may become of a symbol with what is still to come. -/
def prospect : Symbol → Nat
  | .terminal _ => 9
  | .nonterminal (.rule .qualifiedName) | .nonterminal (.rule .target) => 8
  | .nonterminal (.rule .reference) => 7
  | .nonterminal .statement | .nonterminal .value | .nonterminal .rightSide => 5
  | .nonterminal .statements | .nonterminal .styleItems | .nonterminal .tagItems => 4
  | .nonterminal (.rule .recipe) | .nonterminal (.rule .body) | .nonterminal (.rule .argList) => 0
  | _ => 6

/-- The edge goes on with the production from so many symbols of its body. -/
def Edge.goesOn (edge : Edge) (production : Production) (count : Nat) : Bool :=
  production.body[count]? = some edge.symbol &&
    comesFrom production.head edge.source (production.body.take count).reverse &&
    (count != 0 || prospect (.nonterminal production.head) < prospect edge.symbol)

/-- There are derivations of the nonterminal that are no higher than that. -/
def Nonterminal.yields : Nat → Nonterminal → Bool
  | 0, _ => false
  | height + 1, head => (bodies head).any fun body => body.all fun symbol =>
      match symbol with
      | .terminal _ => true
      | .nonterminal inner => yields height inner

section Table

/-- Something is on the way along every edge. -/
theorem edges_go_on : (edges.all fun edge => edge.target = acceptingState ||
    productions.any fun production =>
      (List.range production.body.length).any (edge.goesOn production)) = true := by
  decide +kernel

theorem all_yield : (Nonterminal.all.all (Nonterminal.yields 4)) = true := by
  decide +kernel

end Table

section Yielding

theorem exists_derivations {good : Nonterminal → Prop} (symbols : List Symbol)
    (hgood : ∀ head, .nonterminal head ∈ symbols → good head)
    (hyields : ∀ head, good head → ∃ derivation : Derivation, derivation.Wellformed ∧
      derivation.symbol = .nonterminal head) :
    ∃ derivations, Derivation.AllWellformed derivations ∧
      derivations.map Derivation.symbol = symbols := by
  induction symbols with
  | nil => exact ⟨[], trivial, rfl⟩
  | cons symbol rest ih =>
    obtain ⟨derivations, hwell, hsymbols⟩ :=
      ih fun head hin => hgood head (List.mem_cons_of_mem symbol hin)
    have hfirst : ∃ derivation : Derivation,
        derivation.Wellformed ∧ derivation.symbol = symbol := by
      cases symbol with
      | terminal kind => exact ⟨.leaf ⟨kind, "", 0, 0, 0, 0⟩, trivial, rfl⟩
      | nonterminal head => exact hyields head (hgood head (by simp))
    obtain ⟨derivation, hderivation, hsymbol⟩ := hfirst
    exact ⟨derivation :: derivations, ⟨hderivation, hwell⟩, by simp [hsymbol, hsymbols]⟩

theorem Nonterminal.exists_derivation {height : Nat} {head : Nonterminal}
    (h : head.yields height = true) :
    ∃ derivation : Derivation, derivation.Wellformed ∧ derivation.symbol = .nonterminal head := by
  induction height generalizing head with
  | zero => cases h
  | succ height ih =>
    simp only [yields, List.any_eq_true, List.all_eq_true] at h
    obtain ⟨body, hbody, hall⟩ := h
    have hgood : ∀ inner, .nonterminal inner ∈ body → inner.yields height = true :=
      fun inner hin => hall _ hin
    obtain ⟨children, hwell, hsymbols⟩ := exists_derivations body hgood fun inner => ih
    exact ⟨.node head children, ⟨hsymbols ▸ hbody, hwell⟩, rfl⟩

theorem exists_allWellformed (symbols : List Symbol) :
    ∃ derivations, Derivation.AllWellformed derivations ∧
      derivations.map Derivation.symbol = symbols :=
  exists_derivations symbols (fun _ _ => trivial) fun head _ =>
    Nonterminal.exists_derivation (List.all_eq_true.mp all_yield head head.mem_all)

end Yielding

namespace Stack

/-- A bound for how often something must be made of what is on the stack. -/
def outlook : Stack → Nat
  | [] => 0
  | frame :: below => 10 * (below.length + 1) + prospect frame.tree.symbol

section Viable

variable {stack below : Stack} {frame : Frame} {head : Nonterminal} {symbols : List Symbol}

theorem prospect_le (symbol : Symbol) : prospect symbol ≤ 9 := by
  unfold prospect
  split <;> omega

theorem Sound.comesFrom (h : Sound stack)
    (hfrom : Grammar.comesFrom head stack.state symbols = true) :
    (stack.take symbols.length).map (·.tree.symbol) = symbols ∧
      (jump? (Stack.state (stack.drop symbols.length)) head).isSome = true := by
  induction symbols generalizing stack with
  | nil => exact ⟨rfl, hfrom⟩
  | cons symbol rest ih =>
    simp only [Grammar.comesFrom, entering, Bool.and_eq_true, bne_iff_ne, List.all_eq_true,
      List.mem_filter, beq_iff_eq, decide_eq_true_eq, and_imp] at hfrom
    obtain ⟨hstart, hinto⟩ := hfrom
    cases h with
    | empty => exact absurd rfl hstart
    | @push frame below hbelow hgoto _ =>
      obtain ⟨hsymbol, hrest⟩ := hinto _ (mem_edges hgoto) rfl
      obtain ⟨htop, hjump⟩ := ih hbelow hrest
      exact ⟨List.cons_eq_cons.mpr ⟨hsymbol, htop⟩, hjump⟩

/-- A production is on the way on top of a stack: the frame, and so many others below it, hold what
its body begins with. -/
structure OnTheWay (frame : Frame) (below : Stack) (production : Production) (count : Nat) :
    Prop where
  known : production ∈ productions
  begun : ((below.take count).reverse.map (·.tree)).map Derivation.symbol ++
    frame.tree.symbol :: production.body.drop (count + 1) = production.body
  leads : (jump? (Stack.state (below.drop count)) production.head).isSome = true
  enough : count ≤ below.length
  lessens : count ≠ 0 ∨
    prospect (.nonterminal production.head) < prospect frame.tree.symbol

theorem Sound.exists_onTheWay (h : Sound (frame :: below)) (hstate : frame.state ≠ acceptingState) :
    ∃ production count, OnTheWay frame below production count := by
  cases h with
  | push hbelow hgoto _ =>
    have hedges := List.all_eq_true.mp edges_go_on _ (mem_edges hgoto)
    simp only [hstate, decide_false, Bool.false_or, List.any_eq_true, List.mem_range] at hedges
    obtain ⟨production, hproduction, count, hcount, hgoes⟩ := hedges
    simp only [Edge.goesOn, Bool.and_eq_true, Bool.or_eq_true, bne_iff_ne, decide_eq_true_eq]
      at hgoes
    obtain ⟨⟨hsymbol, hfrom⟩, hlessens⟩ := hgoes
    obtain ⟨htop, hleads⟩ := hbelow.comesFrom hfrom
    rw [List.length_reverse, List.length_take, Nat.min_eq_left (by omega)] at htop hleads
    refine ⟨production, count, hproduction, ?_, hleads, ?_, hlessens⟩
    · obtain ⟨hindex, hsymbol⟩ := List.getElem?_eq_some_iff.mp hsymbol
      rw [List.map_map, List.map_reverse, Function.comp_def, htop, List.reverse_reverse, ← hsymbol,
        List.getElem_cons_drop, List.take_append_drop]
    · have hlength := congrArg List.length htop
      simp only [List.length_map, List.length_take, List.length_reverse] at hlength
      omega

/-- Some more words make the stack shorter, or leave less to be made of its top. -/
theorem Sound.advance (h : Sound (frame :: below)) (hstate : frame.state ≠ acceptingState) :
    ∃ after : Stack, Sound after ∧ words (frame :: below) <+: after.words ∧
      after.outlook < outlook (frame :: below) := by
  obtain ⟨production, count, hway⟩ := h.exists_onTheWay hstate
  obtain ⟨next, hnext⟩ := Option.isSome_iff_exists.mp hway.leads
  obtain ⟨missing, hmissing, hsymbols⟩ := exists_allWellformed (production.body.drop (count + 1))
  let begun := (below.take count).reverse.map (·.tree)
  let made := Derivation.node production.head (begun ++ frame.tree :: missing)
  have hbody : (begun ++ frame.tree :: missing).map Derivation.symbol = production.body := by
    rw [List.map_append, List.map_cons, hsymbols]
    exact hway.begun
  have hwell : Derivation.AllWellformed (begun ++ frame.tree :: missing) := by
    rw [Derivation.allWellformed_iff] at hmissing ⊢
    rw [List.forall_mem_append, List.forall_mem_cons]
    refine ⟨?_, h.wellformed frame (by simp), hmissing⟩
    simp only [begun, List.mem_map, List.mem_reverse]
    rintro derivation ⟨other, hother, rfl⟩
    exact h.wellformed other (List.mem_cons_of_mem frame (List.mem_of_mem_take hother))
  have hbelow : Sound below := h.drop 1
  refine ⟨⟨next, made⟩ :: below.drop count, .push (hbelow.drop count) hnext ⟨?_, hwell⟩,
    ⟨Derivation.tokensOfAll missing, ?_⟩, ?_⟩
  · rw [hbody]
    exact mem_bodies hway.known
  · rw [words_push, words_push, ← words_drop_take below count]
    simp [made, begun, Derivation.tokens, Derivation.tokensOfAll, Derivation.tokensOfAll_append]
  · have henough := hway.enough
    have hprospect := prospect_le (.nonterminal production.head)
    have hmade : made.symbol = .nonterminal production.head := rfl
    simp only [outlook, hmade, List.length_drop]
    rcases hway.lessens with hnonzero | hless <;> omega

/-- The words of every stack that the automaton can come to begin some recipe. -/
theorem Sound.viable (h : Sound stack) :
    ∃ derivation : Derivation, derivation.Wellformed ∧
      derivation.symbol = .nonterminal (.rule .recipe) ∧ stack.words <+: derivation.tokens := by
  induction hlook : stack.outlook using Nat.strongRecOn generalizing stack with
  | _ outlook ih =>
    cases stack with
    | nil =>
      refine ⟨.node (.rule .recipe) [], ⟨?_, trivial⟩, rfl, List.nil_prefix⟩
      decide +kernel
    | cons frame below =>
      by_cases hstate : frame.state = acceptingState
      · obtain ⟨rfl, hsymbol⟩ := h.accepting hstate
        refine ⟨frame.tree, h.wellformed frame (by simp), hsymbol, ?_⟩
        rw [words_push]
        exact List.prefix_refl frame.tree.tokens
      · obtain ⟨after, hafter, hwords, hless⟩ := h.advance hstate
        obtain ⟨derivation, hwell, hsymbol, hbegins⟩ := ih _ (hlook ▸ hless) hafter rfl
        exact ⟨derivation, hwell, hsymbol, hwords.trans hbegins⟩

end Viable

/-- The stack is what the automaton comes to with the words on it, whatever they are followed by. -/
def Driven (stack : Stack) : Prop :=
  ∀ (ending : Token) (rest : List Token),
    drive ending [] (stack.words.map Token.sort ++ rest) =
      drive ending (stack.relabel Token.sort) rest

section Driven

variable {stack after : Stack} {token ending : Token} {state : Nat}

theorem driven_empty : Driven [] :=
  fun _ _ => rfl

theorem Driven.push (h : Driven stack) (hfed : stack.feed token = .shifted after)
    (hwords : after.words = stack.words ++ [token]) : Driven after := by
  intro ending rest
  have hsorted := feed_relabel Token.keepsKind_sort stack token
  rw [hfed] at hsorted
  rw [hwords, List.map_append, List.append_assoc, h]
  show drive ending (stack.relabel Token.sort) (Token.sort token :: rest) = _
  rw [drive, hsorted]
  rfl

theorem Driven.refused (h : Driven stack) (hfed : stack.feed token = .refused state)
    (ending : Token) (rest : List Token) :
    drive ending [] (stack.words.map Token.sort ++ Token.sort token :: rest) = none := by
  have hsorted := feed_relabel Token.keepsKind_sort stack token
  rw [hfed] at hsorted
  rw [h, drive, hsorted]
  rfl

theorem Driven.refused_end (h : Driven stack) (hfed : stack.feed ending = .refused state) :
    drive ending.sort [] (stack.words.map Token.sort) = none := by
  have hsorted := feed_relabel Token.keepsKind_sort stack ending
  rw [hfed] at hsorted
  rw [← List.append_nil (stack.words.map Token.sort), h, drive, hsorted]
  rfl

end Driven

end Stack

end RecipeGraph.Grammar

namespace RecipeGraph.Source

open Grammar Relation

/-- The terminals of the words of a recipe, in the grammar as it is written. -/
def Derivable (kinds : List Terminal) : Prop :=
  ∃ reading : Reading recipe, reading.tokens.map (·.kind) = kinds

/-- Some recipe begins with words of these terminals. -/
def Viable (kinds : List Terminal) : Prop :=
  ∃ rest, Derivable (kinds ++ rest)

/-- The word that the automaton takes in with the next step, if it does. -/
def Reader.takes? (reader : Reader) : Option Token :=
  match reader.found?, reader.step with
  | some found, .next _ =>
      if reader.passesOver found.kind then none else some (reader.wordOf found)
  | _, _ => none

/-- The words of a text that are handed to the automaton and taken in by it. -/
def handed (text : String) : List Token :=
  (course text).filterMap Reader.takes?

section Derivable

variable {kinds : List Terminal} {stack : Stack} {token : Token} {state : Nat}

theorem derivable_iff : Derivable kinds ↔ ∃ derivation : Derivation, derivation.Wellformed ∧
    derivation.symbol = .nonterminal (.rule .recipe) ∧
      derivation.tokens.map (·.kind) = kinds := by
  constructor
  · rintro ⟨reading, rfl⟩
    obtain ⟨derivation, haccepted, -⟩ := accept_reading reading
    obtain ⟨hwell, hsymbol, htokens⟩ := accept?_eq_some.mp haccepted
    exact ⟨derivation, hwell, hsymbol, by rw [htokens]⟩
  · rintro ⟨derivation, hwell, hsymbol, rfl⟩
    obtain ⟨reading, htokens, -⟩ :=
      reading_of_accepted (accept?_eq_some.mpr ⟨hwell, hsymbol, rfl⟩)
    exact ⟨reading, by rw [htokens]⟩

/-- What is derivable is accepted, whatever else the words are. -/
theorem drive_of_derivable {tokens : List Token} {ending : Token}
    (hending : ending.kind = .endOfText) (h : Derivable (tokens.map (·.kind))) :
    Stack.drive ending [] (tokens.map Token.sort) ≠ none := by
  obtain ⟨derivation, hwell, hsymbol, hkinds⟩ := derivable_iff.mp h
  have hsorted : ∀ tokens : List Token, tokens.map Token.sort =
      (tokens.map (·.kind)).map fun kind => ⟨kind, "", 0, 0, 0, 0⟩ := by
    intro tokens
    rw [List.map_map]
    rfl
  have hdriven := Stack.drive_complete hending
    (Derivation.wellformed_relabel Token.keepsKind_sort derivation hwell)
    ((Derivation.symbol_relabel Token.keepsKind_sort derivation).trans hsymbol)
  rw [Derivation.tokens_relabel, hsorted, hkinds, ← hsorted] at hdriven
  simp [hdriven]

theorem viable_of_sound (h : stack.Sound) : Viable (stack.words.map (·.kind)) := by
  obtain ⟨derivation, hwell, hsymbol, rest, htokens⟩ := h.viable
  refine ⟨rest.map (·.kind), derivable_iff.mpr ⟨derivation, hwell, hsymbol, ?_⟩⟩
  rw [← htokens, List.map_append]

theorem not_viable (h : stack.Driven) (hfed : stack.feed token = .refused state) :
    ¬ Viable (stack.words.map (·.kind) ++ [token.kind]) := by
  rintro ⟨rest, hderivable⟩
  let after : List Token := rest.map fun kind => ⟨kind, "", 0, 0, 0, 0⟩
  have hkinds : stack.words.map (·.kind) ++ [token.kind] ++ rest =
      (stack.words ++ token :: after).map (·.kind) := by
    simp [after, Function.comp_def]
  rw [hkinds] at hderivable
  let ending : Token := ⟨.endOfText, "", 0, 0, 0, 0⟩
  have hending : ending.kind = .endOfText := rfl
  have hdriven := drive_of_derivable hending hderivable
  rw [List.map_append, List.map_cons] at hdriven
  exact hdriven (h.refused hfed ending _)

theorem not_derivable (h : stack.Driven) (hfed : stack.feed token = .refused state)
    (hkind : token.kind = .endOfText) : ¬ Derivable (stack.words.map (·.kind)) :=
  fun hderivable =>
    drive_of_derivable (show token.sort.kind = .endOfText from hkind) hderivable
      (h.refused_end hfed)

end Derivable

section Stray

variable {allowed : Terminal → Bool} {chars rest : List Char} {kind : Terminal} {c : Char}

theorem firstMatch?_none (h : firstMatch? allowed chars = none) (hkind : kind ∈ Terminal.lexical)
    (hsplit : split? kind chars ≠ none) : allowed kind = false := by
  unfold firstMatch? at h
  rw [List.findSome?_eq_none_iff] at h
  have hnone := h kind hkind
  by_contra hallowed
  simp only [Bool.not_eq_false] at hallowed
  simp only [hallowed, if_true, Option.map_eq_none_iff] at hnone
  exact hsplit hnone

theorem split?_mark (h : kind.mark? = some c) : split? kind (c :: rest) = some ([c], rest) := by
  cases kind with
  | stringLiteral | styleValue | blockComment | propertyName | newline | identifier | lineComment
  | blank | endOfText => cases h
  | _ =>
    cases h
    rfl

/-- A word is named for a terminal that it is spelled like. -/
theorem split?_nameFor {found : Match}
    (h : split? found.kind (found.word ++ found.rest) = some (found.word, found.rest)) :
    split? (Reader.nameFor found.kind found.word) (found.word ++ found.rest) ≠ none := by
  unfold Reader.nameFor
  split
  · rename_i c hkind hword
    cases hmark : Terminal.lexical.find? fun mark => mark.mark? = some c with
    | none => simp [h]
    | some mark =>
      have hfound := List.find?_some hmark
      rw [hword]
      simp [split?_mark (of_decide_eq_true hfound)]
  · simp [h]

theorem action?_of_not_allowed {state : Nat} (h : Reader.allows state kind = false) :
    action? state kind = none := by
  simp only [Reader.allows, Reader.awaits, Bool.or_eq_false_iff] at h
  simpa using h.2.2

end Stray

section Offence

variable {text : String} {reader next last : Reader} {token : Token} {expected : List Terminal}
  {steps : Nat}

/-- A word that is complained about, and not only a character, is one that the automaton refuses. -/
theorem refused_of_failed (h : reader.step = .failed (.word token expected)) :
    ∃ state, reader.stack.feed token = .refused state := by
  have hfed : ∀ {other : Reader} {word : Token}, other.feed word = .failed (.word token expected) →
      ∃ state, other.stack.feed token = .refused state := by
    intro other word hfailed
    unfold Reader.feed at hfailed
    cases hfed : other.stack.feed word with
    | shifted stack => simp [hfed] at hfailed
    | accepted tree => simp [hfed] at hfailed
    | refused state =>
      simp only [hfed, Reader.Progress.failed.injEq, Rejection.word.injEq] at hfailed
      exact ⟨state, hfailed.1 ▸ hfed⟩
  cases hfound : reader.found? with
  | some found =>
    rw [Reader.step_found hfound] at h
    split at h
    · cases h
    · obtain ⟨state, hstate⟩ := hfed h
      exact ⟨state, hstate⟩
  | none =>
    cases hrest : reader.cursor.rest with
    | nil =>
      rw [Reader.step_end hrest] at h
      exact hfed h
    | cons c tail =>
      unfold Reader.found? at hfound
      unfold Reader.step at h
      rw [hrest] at hfound h
      simp only [hfound, Reader.Progress.failed.injEq] at h
      -- None of the terminals that are awaited is found, so the one that is named is none of them.
      unfold Reader.stray at h
      cases hany : firstMatch? (fun _ => true) reader.cursor.rest with
      | none => simp [hany] at h
      | some found =>
        simp only [hany, Rejection.word.injEq] at h
        obtain ⟨-, hsplit, -⟩ := firstMatch?_iff.mp hany
        obtain ⟨hjoined, -, -⟩ := split?_iff.mp hsplit
        rw [hjoined] at hsplit
        have hnamed := split?_nameFor hsplit
        rw [← hjoined, hrest] at hnamed
        have hnone := action?_of_not_allowed
          (firstMatch?_none hfound (mem_lexical hnamed) hnamed)
        exact ⟨reader.stack.state, Reader.feed_refused (h.1 ▸ hnone)⟩

theorem takes?_moves (hsound : reader.stack.Sound) (h : reader.Moves next) :
    next.stack.words = reader.stack.words ++ reader.takes?.toList := by
  obtain ⟨found, hfound, hstep⟩ := h.finds
  obtain ⟨-, hwords⟩ := hstep.sound hsound
  unfold Reader.Moves at h
  unfold Reader.takes?
  rw [hfound, h, hwords]
  dsimp only
  split <;> rfl

theorem driven_moves (hsound : reader.stack.Sound) (h : reader.Moves next)
    (hdriven : reader.stack.Driven) : next.stack.Driven := by
  obtain ⟨found, -, hstep⟩ := h.finds
  obtain ⟨-, hwords⟩ := hstep.sound hsound
  cases hstep with
  | passing hpass => exact hdriven
  | handing hpass hfed =>
    simp only [hpass, Bool.false_eq_true, if_false] at hwords
    exact hdriven.push hfed hwords

theorem driven_of_steps (h : ReflTransGen Reader.Moves (Reader.start text) reader) :
    reader.stack.Driven := by
  induction h with
  | refl => exact Stack.driven_empty
  | tail hsteps hmoves ih => exact driven_moves (stands_of_steps hsteps).sound hmoves ih

theorem takes?_still (h : ∀ next, ¬ reader.Moves next) : reader.takes? = none := by
  unfold Reader.takes?
  split
  · rename_i hstep
    exact absurd hstep (h _)
  · rfl

/-- What is on the stack in the end is what the steps took in. -/
theorem words_course (hsteps : ReflTransGen Reader.Moves reader last)
    (hlast : ∀ next, ¬ last.Moves next) (hsound : reader.stack.Sound)
    (hlength : reader.cursor.rest.length < steps) :
    last.stack.words =
      reader.stack.words ++ (reader.course steps).filterMap Reader.takes? := by
  induction hsteps using ReflTransGen.head_induction_on generalizing steps with
  | refl =>
    cases steps with
    | zero => omega
    | succ steps => simp [Reader.course_still hlast, takes?_still hlast]
  | @head reader middle hmoves hsteps ih =>
    cases steps with
    | zero => omega
    | succ steps =>
      have hshorter := hmoves.shorter
      have hrest : middle.cursor.rest.length < steps := by omega
      obtain ⟨found, -, hstep⟩ := hmoves.finds
      rw [ih (hstep.sound hsound).1 hrest, takes?_moves hsound hmoves,
        Reader.course_moves hmoves, List.append_assoc, List.filterMap_cons]
      cases reader.takes? <;> rfl

theorem words_handed (hsteps : ReflTransGen Reader.Moves (Reader.start text) last)
    (hlast : ∀ next, ¬ last.Moves next) : last.stack.words = handed text :=
  words_course hsteps hlast .empty (start_rest text)

/-- A text that is rejected because of a word is rejected because of the first one that no recipe
goes on with: the words taken in before it begin some recipe, and none begins with them and that
word. If it is the end of the text, they begin recipes and are none. -/
theorem rejected_at_first_offence (h : derive text = .error (.word token expected)) :
    (∀ filename, parse text filename =
        .error (Rejection.fault (.word token expected) text filename)) ∧
      Viable ((handed text).map (·.kind)) ∧
      (token.kind ≠ .endOfText → ¬ Viable ((handed text).map (·.kind) ++ [token.kind])) ∧
      (token.kind = .endOfText → ¬ Derivable ((handed text).map (·.kind))) := by
  have hparse : ∀ filename, parse text filename =
      .error (Rejection.fault (.word token expected) text filename) := by
    intro filename
    rw [parse, h]
  obtain ⟨last, hsteps, hfailed⟩ := derive_error h
  obtain ⟨state, hfed⟩ := refused_of_failed hfailed
  have hstands := stands_of_steps hsteps
  have hdriven := driven_of_steps hsteps
  rw [← words_handed hsteps fun next hmoves => by simp [Reader.Moves, hfailed] at hmoves]
  exact ⟨hparse, viable_of_sound hstands.sound, fun _ => not_viable hdriven hfed,
    not_derivable hdriven hfed⟩

/-- A brace after an argument is the first offence, the line break before it none. -/
theorem rejected_at_first_offence_brace :
    derive "f(x\n\x7b" = .error (.word ⟨.leftBrace, "\x7b", 4, 5, 2, 1⟩
        [.newline, .comma, .dot, .leftParen, .rightParen]) ∧
      Viable [.identifier, .leftParen, .identifier] ∧
      ¬ Viable [.identifier, .leftParen, .identifier, .leftBrace] := by
  have hrejected : derive "f(x\n\x7b" = .error (.word ⟨.leftBrace, "\x7b", 4, 5, 2, 1⟩
      [.newline, .comma, .dot, .leftParen, .rightParen]) := by
    rfl
  have hhanded : (handed "f(x\n\x7b").map (·.kind) = [.identifier, .leftParen, .identifier] := by
    decide +kernel
  obtain ⟨-, hviable, hnot, -⟩ := rejected_at_first_offence hrejected
  rw [hhanded] at hviable hnot
  exact ⟨hrejected, hviable, hnot (by decide)⟩

end Offence

end RecipeGraph.Source
