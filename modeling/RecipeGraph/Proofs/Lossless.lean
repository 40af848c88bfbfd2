import RecipeGraph.Proofs.Quotations
import RecipeGraph.Proofs.Viability

/-!
Nothing of a text is lost on the way to its words. The words that the readers find, those that are
passed over among them, lie end to end from the beginning of the text to its end. So what is cut out
of the text at the place of a word is the word itself, and a syntax tree gives the same recipe
whether its words are read from the text or from the tree.
-/
namespace RecipeGraph.Source

open Grammar Relation

/-- Words lie end to end from one offset to another, and none of them is empty. -/
def Tiles : Nat → List Token → Nat → Prop
  | start, [], stop => start = stop
  | start, token :: rest, stop =>
      token.start = start ∧ start < token.stop ∧ Tiles token.stop rest stop

/-- The word that the reader finds, and whether it is passed over. -/
def Reader.cut? (reader : Reader) : Option (Token × Bool) :=
  reader.found?.map fun found => (reader.wordOf found, reader.passesOver found.kind)

/-- All words that a text is cut into. -/
def cuts (text : String) : List (Token × Bool) :=
  (course text).filterMap Reader.cut?

/-- The words that are not passed over. -/
def given (cuts : List (Token × Bool)) : List Token :=
  (cuts.filter (!·.2)).map (·.1)

namespace Tree

mutual

def leaves : Tree → List Leaf
  | .leaf word => [word]
  | .branch _ children _ => leavesOfAll children

def leavesOfAll : List Tree → List Leaf
  | [] => []
  | tree :: rest => leaves tree ++ leavesOfAll rest

end

theorem leavesOfAll_append (trees others : List Tree) :
    leavesOfAll (trees ++ others) = leavesOfAll trees ++ leavesOfAll others := by
  induction trees with
  | nil => rfl
  | cons tree rest ih => simp [leavesOfAll, ih]

end Tree

section Cuts

variable {text : String} {reader next last : Reader} {found : Match} {steps : Nat}
  {derivation : Derivation} {cut : Token × Bool}

theorem found?_end (hend : reader.cursor.rest = []) : reader.found? = none := by
  cases hfound : reader.found? with
  | none => rfl
  | some found =>
    have htaken := Reader.found?_taken hfound
    have hnothing : [] = found.word ++ found.rest := hend ▸ htaken.joined
    exact absurd (List.append_eq_nil_iff.mp hnothing.symm).1 htaken.nonempty

theorem still_end (hend : reader.cursor.rest = []) : ∀ next, ¬ reader.Moves next := by
  intro next hmoves
  obtain ⟨found, hfound, -⟩ := hmoves.finds
  rw [found?_end hend] at hfound
  cases hfound

theorem given_cons (cut : Token × Bool) (rest : List (Token × Bool)) :
    given (cut :: rest) = (if cut.2 then [] else [cut.1]) ++ given rest := by
  unfold given
  cases hpassed : cut.2 <;> simp [hpassed]

/-- Up to the end of the text the words lie end to end, and those that are not passed over are taken
in. -/
theorem cuts_course (hsteps : ReflTransGen Reader.Moves reader last)
    (hend : last.cursor.rest = []) (hlength : reader.cursor.rest.length < steps) :
    let cuts := (reader.course steps).filterMap Reader.cut?
    Tiles reader.cursor.offset (cuts.map (·.1)) last.cursor.offset ∧
      given cuts = (reader.course steps).filterMap Reader.takes? := by
  induction hsteps using ReflTransGen.head_induction_on generalizing steps with
  | refl =>
    cases steps with
    | zero => omega
    | succ steps =>
      have hstill := still_end hend
      have hnone : last.cut? = none := by
        unfold Reader.cut?
        rw [found?_end hend]
        rfl
      simp [Reader.course_still hstill, takes?_still hstill, hnone, Tiles, given]
  | @head reader middle hmoves hsteps ih =>
    cases steps with
    | zero => omega
    | succ steps =>
      have hshorter := hmoves.shorter
      have hrest : middle.cursor.rest.length < steps := by omega
      obtain ⟨htiles, hgiven⟩ := ih hrest
      obtain ⟨found, hfound, hstep⟩ := hmoves.finds
      have hcut : reader.cut? = some (reader.wordOf found, reader.passesOver found.kind) := by
        unfold Reader.cut?
        rw [hfound]
        rfl
      have htakes : reader.takes? =
          if reader.passesOver found.kind then none else some (reader.wordOf found) := by
        unfold Reader.Moves at hmoves
        unfold Reader.takes?
        rw [hfound, hmoves]
      have hoffset : (reader.wordOf found).stop = middle.cursor.offset := by
        rw [hstep.cursor]
        rfl
      have hword := List.length_pos_iff.mpr (Reader.found?_taken hfound).nonempty
      have hstop : (reader.wordOf found).stop = reader.cursor.offset + found.word.length := rfl
      rw [Reader.course_moves hmoves, List.filterMap_cons_some hcut]
      refine ⟨⟨rfl, ?_, ?_⟩, ?_⟩
      · show reader.cursor.offset < (reader.wordOf found).stop
        omega
      · show Tiles (reader.wordOf found).stop _ _
        rw [hoffset]
        exact htiles
      · rw [given_cons, hgiven]
        cases hpass : reader.passesOver found.kind <;> simp [htakes, hpass]

/-- A word stands where it says that it does. -/
theorem slice_of_cut (h : cut ∈ cuts text) :
    Text.slice text.toList cut.1.start cut.1.stop = cut.1.text.toList := by
  obtain ⟨reader, hreader, hcut⟩ := List.mem_filterMap.mp h
  obtain ⟨found, hfound, rfl⟩ := Option.map_eq_some_iff.mp hcut
  have hplace := (stands_of_steps (mem_course.mp hreader)).ahead hfound
  have htext : (reader.wordOf found).text.toList = found.word := String.toList_ofList
  rw [htext]
  exact hplace.slice

theorem kind_of_passed (h : cut ∈ cuts text) (hpassed : cut.2 = true) :
    cut.1.kind.isSkipped = true ∨ cut.1.kind = .newline := by
  obtain ⟨reader, -, hcut⟩ := List.mem_filterMap.mp h
  obtain ⟨found, -, rfl⟩ := Option.map_eq_some_iff.mp hcut
  exact Reader.passed_kind hpassed

theorem cuts_of_derive (h : derive text = .ok derivation) :
    Tiles 0 ((cuts text).map (·.1)) text.length ∧ given (cuts text) = derivation.tokens := by
  obtain ⟨last, hsteps, hend, hfed⟩ := derive_iff.mp h
  have hstands := stands_of_steps hsteps
  have hsound := hstands.sound.feed_sound last.endToken
  rw [hfed] at hsound
  obtain ⟨before, hbefore, hoffset⟩ := hstands.place
  have hlength : last.cursor.offset = text.length := by
    rw [← hoffset, ← String.length_toList, hbefore, hend, List.append_nil]
  obtain ⟨htiles, hgiven⟩ := cuts_course hsteps hend (start_rest text)
  rw [hlength] at htiles
  refine ⟨htiles, hgiven.trans ?_⟩
  rw [hsound.2.2, words_handed hsteps (still_end hend)]
  rfl

end Cuts

end RecipeGraph.Source

namespace RecipeGraph.Grammar.Derivation

open Source

mutual

/-- The leaves of the trees are the words whose text is kept. -/
theorem leaves_trees : ∀ derivation : Derivation,
    Tree.leavesOfAll derivation.trees =
      (derivation.tokens.filter (·.kind.isKept)).map Leaf.ofToken
  | leaf token => by
    unfold trees tokens
    split
    · rename_i hkept
      simp [Tree.leavesOfAll, Tree.leaves, hkept]
    · rename_i hkept
      simp [Tree.leavesOfAll, hkept]
  | node head children => by
    have hchildren := leaves_treesOfAll children
    cases head with
    | rule rule => simpa [trees, tokens, Tree.leavesOfAll, Tree.leaves] using hchildren
    | _ => exact hchildren

theorem leaves_treesOfAll : ∀ children : List Derivation,
    Tree.leavesOfAll (treesOfAll children) =
      ((tokensOfAll children).filter (·.kind.isKept)).map Leaf.ofToken
  | [] => rfl
  | child :: rest => by
    rw [treesOfAll, Tree.leavesOfAll_append, leaves_trees child, leaves_treesOfAll rest,
      tokensOfAll, List.filter_append, List.map_append]

end

end RecipeGraph.Grammar.Derivation

namespace RecipeGraph.Recipe

open Source Grammar

variable {text filename : String} {tree : Tree} {derivation : Derivation}

theorem leaves_of_parse (h : derive text = .ok derivation)
    (htree : parse text filename = .ok tree) :
    tree.leaves = (derivation.tokens.filter (·.kind.isKept)).map Leaf.ofToken := by
  obtain ⟨-, hsymbol, -⟩ := derive_sound h
  cases derivation with
  | leaf token => cases hsymbol
  | node head children =>
    obtain rfl : head = .rule .recipe := Grammar.Symbol.nonterminal.inj hsymbol
    unfold parse at htree
    rw [h] at htree
    obtain rfl := Except.ok.inj htree
    simpa [Tree.leaves, Derivation.tokens] using Derivation.leaves_treesOfAll children

/-- If there is a word at all, it makes no difference whether words are read from the text. -/
theorem ofTree_sourceless (h : derive text = .ok derivation)
    (htree : parse text filename = .ok tree) (hwords : derivation.tokens ≠ []) :
    ofTree tree text = ofTree tree "" := by
  obtain ⟨-, -, hplaced⟩ := derive_sound h
  have htext := ofTree_read h htree text fun token htoken =>
    Derivation.wordText_ofToken (hplaced token htoken)
  have hnone := ofTree_read h htree "" fun _ _ => rfl
  rw [htext, hnone]
  cases hspan : Derivation.spanOf derivation.tokens with
  | none => exact absurd (spanOf_eq_none hspan) hwords
  | some span => rfl

/-- What becomes of an accepted text. -/
structure Lossless (text : String) (tree : Tree) : Prop where
  /-- Its words cover it, without gaps. -/
  covered : Tiles 0 ((cuts text).map (·.1)) text.length
  sliced : ∀ cut ∈ cuts text,
    cut.1.text = String.ofList (Text.slice text.toList cut.1.start cut.1.stop)
  /-- Only blanks, comments and line breaks are passed over. -/
  passed : ∀ cut ∈ cuts text, cut.2 = true →
    cut.1.kind.isSkipped = true ∨ cut.1.kind = .newline
  /-- All others are read, and the tree has those whose text is kept. -/
  read : ∃ derivation, derive text = .ok derivation ∧ given (cuts text) = derivation.tokens
  kept : tree.leaves = ((given (cuts text)).filter (·.kind.isKept)).map Leaf.ofToken
  built : tree.leaves ≠ [] → ofTree tree text = ofTree tree ""

theorem lexed_without_loss (h : parse text filename = .ok tree) : Lossless text tree := by
  obtain ⟨derivation, hderive⟩ := parse_ok_iff.mp ⟨tree, h⟩
  obtain ⟨hcovered, hgiven⟩ := cuts_of_derive hderive
  have hkept := leaves_of_parse hderive h
  exact {
    covered := hcovered
    sliced := fun cut hcut => by rw [slice_of_cut hcut, String.ofList_toList]
    passed := fun cut => kind_of_passed
    read := ⟨derivation, hderive, hgiven⟩
    kept := by rw [hgiven, hkept]
    built := fun hleaves => by
      refine ofTree_sourceless hderive h fun hnone => hleaves ?_
      rw [hkept, hnone]
      rfl }

/-- A comment and a hidden line break in a call, and a comment behind it. -/
theorem lexed_without_loss_commented :
    ∃ tree, parse "n[f(a /*c*/,\n b)] // d" "" = .ok tree ∧
      (cuts "n[f(a /*c*/,\n b)] // d").map (·.2) =
        [false, false, false, false, false, true, true, false, true, false, false, false, true,
          true] ∧
      tree.leaves.map (·.text) = ["n", "f", "a", "b"] ∧
      Lossless "n[f(a /*c*/,\n b)] // d" tree := by
  obtain ⟨tree, h⟩ : ∃ tree, parse "n[f(a /*c*/,\n b)] // d" "" = .ok tree :=
    parse_ok_of_isSome (by decide +kernel)
  have hlossless := lexed_without_loss h
  refine ⟨tree, h, by decide +kernel, ?_, hlossless⟩
  rw [hlossless.kept]
  decide +kernel

end RecipeGraph.Recipe
