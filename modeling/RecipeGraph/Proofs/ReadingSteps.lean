import Mathlib.Logic.Relation
import RecipeGraph.Proofs.Acceptance
import RecipeGraph.Proofs.Relabeling
import RecipeGraph.Proofs.Spelling

/-!
Reading a text step by step. A step passes over a word that means nothing, or hands a word to the
automaton. Every step but the last takes characters, so a text is read if and only if some steps
lead to its end with a stack that is accepted there. Two readers that stand before words that mean
the same to them step on together.
-/
namespace RecipeGraph.Source

open Grammar Relation

namespace Reader

/-- The word that the reader finds ahead. -/
def found? (reader : Reader) : Option Match :=
  firstMatch? (allows reader.stack.state) reader.cursor.rest

/-- Whether the reader keeps a word of that terminal from the automaton. -/
def passesOver (reader : Reader) (kind : Terminal) : Bool :=
  kind.isSkipped || reader.brackets.drops kind

/-- The word as the automaton gets it. -/
def wordOf (reader : Reader) (found : Match) : Token :=
  reader.cursor.token found.kind found.word

/-- The reader behind a word that was passed over. -/
def passing (reader : Reader) (found : Match) : Reader :=
  { reader with cursor := reader.cursor.advance found }

/-- The reader behind a word that the automaton took in. -/
def handing (reader : Reader) (found : Match) (stack : Stack) : Reader :=
  ⟨reader.cursor.advance found, reader.brackets.pass found.kind, stack,
    some (reader.wordOf found)⟩

/-- The reader goes on to another one with its next step. -/
def Moves (reader next : Reader) : Prop :=
  reader.step = .next next

/-- What one step can do. -/
inductive StepTo (reader : Reader) (found : Match) : Reader → Prop
  | passing (hpass : reader.passesOver found.kind = true) :
      StepTo reader found (reader.passing found)
  | handing {stack : Stack} (hpass : reader.passesOver found.kind = false)
      (hfed : reader.stack.feed (reader.wordOf found) = .shifted stack) :
      StepTo reader found (reader.handing found stack)

/-- The readers that so many steps come to, one after the other. -/
def course : Nat → Reader → List Reader
  | 0, _ => []
  | steps + 1, reader =>
      reader ::
        match reader.step with
        | .next next => course steps next
        | _ => []

section Steps

variable {reader next last : Reader} {found : Match} {derivation : Derivation} {stack : Stack}
  {rejection : Rejection} {steps : Nat}

theorem found?_taken (h : reader.found? = some found) :
    Taken found.kind reader.cursor.rest found.word found.rest :=
  taken_of_split (firstMatch?_iff.mp h).2.1

theorem step_found (h : reader.found? = some found) : reader.step =
    if reader.passesOver found.kind then .next (reader.passing found)
    else { reader.passing found with brackets := reader.brackets.pass found.kind }.feed
      (reader.wordOf found) := by
  obtain ⟨c, tail, hrest⟩ := List.exists_cons_of_ne_nil
    (show reader.cursor.rest ≠ [] by simp [(found?_taken h).joined, (found?_taken h).nonempty])
  unfold found? at h
  unfold step
  rw [hrest] at h ⊢
  dsimp only
  rw [h]
  rfl

theorem shifts_no_end : (edges.all fun edge => edge.symbol ≠ .terminal .endOfText) = true := by
  decide +kernel

theorem feedWithin_shifted {below after : Stack} {token : Token} {fuel : Nat}
    (h : below.feedWithin fuel token = .shifted after) : token.kind ≠ .endOfText := by
  have hfeeds := Stack.feeds_of_eq h
  clear h
  generalize hends : Stack.Outcome.shifted after = outcome at hfeeds
  induction hfeeds with
  | shift haction =>
    have hedge := List.all_eq_true.mp shifts_no_end _ (mem_edges (Stack.action_shift haction))
    simpa using hedge
  | reduce _ _ _ ih => exact ih hends
  | spent | accept | refuse | short => cases hends

theorem feed_refused {stack : Stack} {token : Token}
    (h : action? stack.state token.kind = none) : stack.feed token = .refused stack.state := by
  unfold Stack.feed
  rw [show 8 * (stack.length + 2) = 8 * stack.length + 15 + 1 by omega]
  unfold Stack.feedWithin
  rw [h]

theorem step_end (h : reader.cursor.rest = []) : reader.step = reader.feed reader.endToken := by
  unfold step
  rw [h]

theorem step_stray (h : reader.found? = none) {c : Char} {tail : List Char}
    (hrest : reader.cursor.rest = c :: tail) : reader.step = .failed (reader.stray c) := by
  unfold found? at h
  unfold step
  rw [hrest] at h ⊢
  dsimp only
  rw [h]

/-- A step that goes on does so behind a word that was found. -/
theorem Moves.finds (h : reader.Moves next) :
    ∃ found, reader.found? = some found ∧ StepTo reader found next := by
  unfold Moves at h
  cases hfound : reader.found? with
  | none =>
    cases hrest : reader.cursor.rest with
    | nil =>
      rw [step_end hrest] at h
      obtain ⟨stack, hfed, -⟩ := feed_next h
      exact absurd reader.endToken_kind (feedWithin_shifted hfed)
    | cons c tail =>
      rw [step_stray hfound hrest] at h
      cases h
  | some found =>
    refine ⟨found, rfl, ?_⟩
    rw [step_found hfound] at h
    cases hpass : reader.passesOver found.kind with
    | true =>
      simp only [hpass, if_true, Progress.next.injEq] at h
      exact h ▸ .passing hpass
    | false =>
      simp only [hpass, Bool.false_eq_true, if_false] at h
      obtain ⟨stack, hfed, rfl⟩ := feed_next h
      exact .handing hpass hfed

theorem StepTo.moves (hfound : reader.found? = some found) (h : StepTo reader found next) :
    reader.Moves next := by
  unfold Moves
  rw [step_found hfound]
  cases h with
  | passing hpass => simp [hpass]
  | @handing stack hpass hfed =>
    have hfed' : ({ reader.passing found with
        brackets := reader.brackets.pass found.kind } : Reader).stack.feed
          (reader.wordOf found) = .shifted stack := hfed
    simp only [hpass, Bool.false_eq_true, if_false]
    unfold feed
    rw [hfed']
    rfl

theorem StepTo.cursor (h : StepTo reader found next) :
    next.cursor = reader.cursor.advance found := by
  cases h <;> rfl

theorem StepTo.rest (h : StepTo reader found next) : next.cursor.rest = found.rest := by
  rw [h.cursor]
  rfl

/-- A step leaves a sound stack, with one more word on it if one was handed over. -/
theorem StepTo.sound (hsound : reader.stack.Sound) (h : StepTo reader found next) :
    next.stack.Sound ∧ next.stack.words = reader.stack.words ++
      if reader.passesOver found.kind then [] else [reader.wordOf found] := by
  cases h with
  | passing hpass =>
    rw [hpass, if_pos rfl, List.append_nil]
    exact ⟨hsound, rfl⟩
  | handing hpass hfed =>
    have hfed' := hsound.feed_sound (reader.wordOf found)
    rw [hfed] at hfed'
    rw [hpass, if_neg Bool.false_ne_true]
    exact hfed'

/-- A step takes at least one character. -/
theorem Moves.shorter (h : reader.Moves next) :
    next.cursor.rest.length < reader.cursor.rest.length := by
  obtain ⟨found, hfound, hstep⟩ := h.finds
  have htaken := found?_taken hfound
  have hword := List.length_pos_iff.mpr htaken.nonempty
  rw [hstep.rest, htaken.joined, List.length_append]
  omega

/-- What is accepted is accepted at the end of the text. -/
theorem step_done (h : reader.step = .done derivation) :
    reader.cursor.rest = [] ∧ reader.stack.feed reader.endToken = .accepted derivation := by
  cases hfound : reader.found? with
  | none =>
    cases hrest : reader.cursor.rest with
    | nil =>
      rw [step_end hrest] at h
      exact ⟨rfl, feed_accepted h⟩
    | cons c tail =>
      rw [step_stray hfound hrest] at h
      cases h
  | some found =>
    rw [step_found hfound] at h
    split at h
    · cases h
    · exact absurd (feed_done h) (firstMatch_kind hfound)

theorem step_accepted (hrest : reader.cursor.rest = [])
    (hfed : reader.stack.feed reader.endToken = .accepted derivation) :
    reader.step = .done derivation := by
  rw [step_end hrest]
  unfold feed
  rw [hfed]

/-- What a run comes to shows at a reader that some steps lead to. -/
theorem run_ok (h : reader.run steps = .ok derivation) :
    ∃ last, ReflTransGen Moves reader last ∧ last.step = .done derivation := by
  induction steps generalizing reader with
  | zero => cases h
  | succ steps ih =>
    unfold run at h
    cases hstep : reader.step with
    | next after =>
      rw [hstep] at h
      obtain ⟨last, hsteps, hlast⟩ := ih h
      exact ⟨last, hsteps.head hstep, hlast⟩
    | done tree =>
      simp only [hstep, Except.ok.injEq] at h
      exact ⟨reader, .refl, h ▸ hstep⟩
    | failed rejection => simp [hstep] at h

/-- So does what stops it, as there are steps enough for all characters. -/
theorem run_error (h : reader.run steps = .error rejection)
    (hlength : reader.cursor.rest.length < steps) :
    ∃ last, ReflTransGen Moves reader last ∧ last.step = .failed rejection := by
  induction steps generalizing reader with
  | zero => omega
  | succ steps ih =>
    unfold run at h
    cases hstep : reader.step with
    | next after =>
      rw [hstep] at h
      have hshorter := Moves.shorter hstep
      obtain ⟨last, hsteps, hlast⟩ := ih h (by omega)
      exact ⟨last, hsteps.head hstep, hlast⟩
    | done tree => simp [hstep] at h
    | failed other =>
      simp only [hstep, Except.error.injEq] at h
      exact ⟨reader, .refl, h ▸ hstep⟩

theorem course_moves (h : reader.Moves next) (steps : Nat) :
    reader.course (steps + 1) = reader :: next.course steps := by
  rw [course, h]

theorem course_still (h : ∀ next, ¬ reader.Moves next) (steps : Nat) :
    reader.course (steps + 1) = [reader] := by
  rw [course]
  split
  · rename_i hstep
    exact absurd hstep (h _)
  · rfl

theorem mem_course (hlength : reader.cursor.rest.length < steps) :
    last ∈ reader.course steps ↔ ReflTransGen Moves reader last := by
  induction steps generalizing reader with
  | zero => omega
  | succ steps ih =>
    rw [course, List.mem_cons, ReflTransGen.cases_head_iff, eq_comm]
    refine or_congr_right ?_
    cases hstep : reader.step with
    | next after =>
      have hshorter := Moves.shorter hstep
      rw [ih (by omega)]
      exact ⟨fun h => ⟨after, hstep, h⟩, fun ⟨next, hmoves, h⟩ =>
        Progress.next.inj (hstep.symm.trans hmoves) ▸ h⟩
    | done tree => simp [Moves, hstep]
    | failed rejection => simp [Moves, hstep]

theorem run_of_steps (hsteps : ReflTransGen Moves reader last)
    (hlast : last.step = .done derivation) (hlength : reader.cursor.rest.length < steps) :
    reader.run steps = .ok derivation := by
  induction hsteps using ReflTransGen.head_induction_on generalizing steps with
  | refl =>
    cases steps with
    | zero => omega
    | succ steps => simp [run, hlast]
  | head hmoves _ ih =>
    have hshorter := hmoves.shorter
    cases steps with
    | zero => omega
    | succ steps =>
      unfold Moves at hmoves
      unfold run
      rw [hmoves]
      exact ih (by omega)

end Steps

end Reader

/-- The readers that a text is read with. -/
def course (text : String) : List Reader :=
  (Reader.start text).course (text.length + 1)

section Derive

variable {text : String} {derivation : Derivation} {reader last : Reader} {rejection : Rejection}

theorem start_rest (text : String) : (Reader.start text).cursor.rest.length < text.length + 1 := by
  show text.toList.length < text.length + 1
  rw [String.length_toList]
  omega

theorem mem_course : reader ∈ course text ↔ ReflTransGen Reader.Moves (Reader.start text) reader :=
  Reader.mem_course (start_rest text)

/-- A text is read if and only if some steps lead to its end with a stack that is accepted there. -/
theorem derive_iff : derive text = .ok derivation ↔
    ∃ last, ReflTransGen Reader.Moves (Reader.start text) last ∧ last.cursor.rest = [] ∧
      last.stack.feed last.endToken = .accepted derivation := by
  constructor
  · intro h
    obtain ⟨last, hsteps, hlast⟩ := Reader.run_ok h
    exact ⟨last, hsteps, Reader.step_done hlast⟩
  · rintro ⟨last, hsteps, hrest, hfed⟩
    exact Reader.run_of_steps hsteps (Reader.step_accepted hrest hfed) (start_rest text)

theorem derive_error (h : derive text = .error rejection) :
    ∃ last, ReflTransGen Reader.Moves (Reader.start text) last ∧ last.step = .failed rejection :=
  Reader.run_error h (start_rest text)

end Derive

/-- A word stands in a text where it says. -/
def InPlace (chars : List Char) (token : Token) : Prop :=
  ∃ before after, chars = before ++ (token.text.toList ++ after) ∧ token.start = before.length ∧
    token.stop = before.length + token.text.toList.length

/-- What holds of a reader wherever it comes to in a text. -/
structure Stands (text : String) (reader : Reader) : Prop where
  sound : reader.stack.Sound
  place : ∃ before, text.toList = before ++ reader.cursor.rest ∧
    before.length = reader.cursor.offset
  words : ∀ token ∈ reader.stack.words, InPlace text.toList token

section Stands

variable {text : String} {derivation : Derivation} {reader next : Reader}

theorem stands_start (text : String) : Stands text (Reader.start text) :=
  ⟨.empty, ⟨[], rfl, rfl⟩, by simp [Reader.start, Stack.words, Stack.trees,
    Derivation.tokensOfAll]⟩

theorem Stands.moves (h : Stands text reader) (hmoves : reader.Moves next) : Stands text next := by
  obtain ⟨found, hfound, hstep⟩ := hmoves.finds
  have htaken := Reader.found?_taken hfound
  obtain ⟨before, hjoined, hoffset⟩ := h.place
  have hplace : ∃ front, text.toList = front ++ found.rest ∧
      front.length = reader.cursor.offset + found.word.length :=
    ⟨before ++ found.word, by rw [hjoined, htaken.joined, List.append_assoc],
      by rw [List.length_append, hoffset]⟩
  obtain ⟨hstack, hwords⟩ := hstep.sound h.sound
  refine ⟨hstack, hstep.cursor ▸ hplace, fun token htoken => ?_⟩
  rw [hwords, List.mem_append] at htoken
  rcases htoken with hold | hnew
  · exact h.words token hold
  · split at hnew
    · cases hnew
    · have htext : (reader.wordOf found).text.toList = found.word := String.toList_ofList
      rw [List.mem_singleton.mp hnew]
      refine ⟨before, found.rest, ?_, hoffset.symm, ?_⟩
      · rw [hjoined, htaken.joined, htext]
      · rw [htext, hoffset]
        rfl

theorem stands_of_steps (h : ReflTransGen Reader.Moves (Reader.start text) reader) :
    Stands text reader := by
  induction h with
  | refl => exact stands_start text
  | tail _ hmoves ih => exact ih.moves hmoves

/-- What a text is read as is a derivation of a recipe, of words that stand in the text. -/
theorem derive_sound (h : derive text = .ok derivation) :
    derivation.Wellformed ∧ derivation.symbol = .nonterminal (.rule .recipe) ∧
      ∀ token ∈ derivation.tokens, InPlace text.toList token := by
  obtain ⟨last, hsteps, -, hfed⟩ := derive_iff.mp h
  have hstands := stands_of_steps hsteps
  have hsound := hstands.sound.feed_sound last.endToken
  rw [hfed] at hsound
  obtain ⟨hwell, hsymbol, htokens⟩ := hsound
  exact ⟨hwell, hsymbol, fun token htoken => hstands.words token (htokens ▸ htoken)⟩

end Stands

/-- Words at two places are the same to a change of words, whatever they are. -/
def Level (label : Token → Token) (cursor other : Cursor) : Prop :=
  ∀ (kind : Terminal) (word : List Char),
    label (cursor.token kind word) = label (other.token kind word)

/-- Two readers, perhaps of different texts, that have read the same so far, but for what a change
of words takes away. -/
structure Peers (label : Token → Token) (reader other : Reader) : Prop where
  brackets : reader.brackets = other.brackets
  frames : reader.stack.relabel label = other.stack.relabel label
  level : Level label reader.cursor other.cursor

section Peers

variable {label : Token → Token} {reader other next : Reader} {found further : Match}
  {derivation : Derivation}

theorem level_bare (cursor other : Cursor) : Level Token.bare cursor other :=
  fun _ _ => rfl

theorem level_unlined {cursor other : Cursor} :
    Level Token.unlined cursor other ↔ cursor.offset = other.offset := by
  constructor
  · intro h
    exact congrArg Token.start (h .newline [])
  · intro h kind word
    simp [Token.unlined, Cursor.token, h]

theorem Peers.state (h : Peers label reader other) : reader.stack.state = other.stack.state := by
  rw [← Stack.state_relabel reader.stack, h.frames, Stack.state_relabel]

theorem Peers.passesOver (h : Peers label reader other) (kind : Terminal) :
    reader.passesOver kind = other.passesOver kind := by
  unfold Reader.passesOver
  rw [h.brackets]

/-- Where a reader finds a word, one that has read the same finds one too, if such a word is
ahead. -/
theorem Peers.found? (h : Peers label reader other) (hfound : reader.found? = some found)
    {rest : List Char} (hrest : other.cursor.rest = found.word ++ rest)
    (hends : Ends found.kind rest)
    (hbreak : found.kind = .blank → splitNewline (found.word ++ rest) = none) :
    other.found? = some ⟨found.kind, found.word, rest⟩ := by
  unfold Reader.found? at hfound ⊢
  rw [← h.state, hrest]
  exact firstMatch?_again hfound hends hbreak

/-- Readers that have read the same step on together over words that are the same to the change. -/
theorem Peers.moves (hlabel : KeepsKind label) (h : Peers label reader other)
    (hfound : reader.found? = some found) (hfurther : other.found? = some further)
    (hkind : further.kind = found.kind)
    (hword : label (reader.wordOf found) = label (other.wordOf further))
    (hlevel : Level label (reader.cursor.advance found) (other.cursor.advance further))
    (hmoves : reader.Moves next) :
    ∃ next', other.Moves next' ∧ next'.cursor.rest = further.rest ∧ Peers label next next' := by
  obtain ⟨found', hfound', hstep⟩ := hmoves.finds
  obtain rfl : found = found' := Option.some.inj (hfound.symm.trans hfound')
  cases hstep with
  | passing hpass =>
    have hpass' : other.passesOver further.kind = true := by
      rw [hkind, ← h.passesOver, hpass]
    exact ⟨other.passing further, Reader.StepTo.moves hfurther (.passing hpass'), rfl,
      ⟨h.brackets, h.frames, hlevel⟩⟩
  | @handing stack hpass hfed =>
    have hpass' : other.passesOver further.kind = false := by
      rw [hkind, ← h.passesOver, hpass]
    have hsame := Stack.feed_congr hlabel h.frames hword
    rw [hfed] at hsame
    cases hfed' : other.stack.feed (other.wordOf further) with
    | shifted stack' =>
      rw [hfed'] at hsame
      refine ⟨other.handing further stack', Reader.StepTo.moves hfurther (.handing hpass' hfed'),
        rfl, ⟨?_, Stack.Outcome.shifted.inj hsame, hlevel⟩⟩
      show reader.brackets.pass found.kind = other.brackets.pass further.kind
      rw [h.brackets, hkind]
    | accepted tree => simp [hfed', Stack.Outcome.relabel] at hsame
    | refused state => simp [hfed', Stack.Outcome.relabel] at hsame

/-- The change of words does not see more or less when both places move on by one word. -/
def Steady (label : Token → Token) : Prop :=
  ∀ (cursor other : Cursor) (found further : Match), found.word = further.word →
    Level label cursor other → Level label (cursor.advance found) (other.advance further)

theorem steady_bare : Steady Token.bare :=
  fun _ _ _ _ _ _ => level_bare _ _

theorem steady_unlined : Steady Token.unlined := by
  intro cursor other found further hword hlevel
  rw [level_unlined] at hlevel ⊢
  simp [Cursor.advance, hlevel, hword]

/-- Readers that have read the same and have the same ahead come to the end together. -/
theorem Peers.finish (hlabel : KeepsKind label) (hsteady : Steady label)
    (h : Peers label reader other) (hrest : reader.cursor.rest = other.cursor.rest)
    {last : Reader} (hsteps : ReflTransGen Reader.Moves reader last)
    (hend : last.cursor.rest = [])
    (hfed : last.stack.feed last.endToken = .accepted derivation) :
    ∃ last' derivation', ReflTransGen Reader.Moves other last' ∧ last'.cursor.rest = [] ∧
      last'.stack.feed last'.endToken = .accepted derivation' ∧
      derivation.relabel label = derivation'.relabel label := by
  induction hsteps using ReflTransGen.head_induction_on generalizing other with
  | refl =>
    have hkind : last.endToken.kind = other.endToken.kind := by
      rw [last.endToken_kind, other.endToken_kind]
    obtain ⟨derivation', haccepted, hsame⟩ :=
      Stack.feed_accepted_congr hlabel hkind h.frames hfed
    exact ⟨other, derivation', .refl, hrest ▸ hend, haccepted, hsame⟩
  | head hmoves _ ih =>
    obtain ⟨found, hfound, hstep⟩ := hmoves.finds
    have hfurther : other.found? = some found := by
      unfold Reader.found? at hfound ⊢
      rw [← h.state, ← hrest]
      exact hfound
    obtain ⟨next', hmoves', hrest', hpeers⟩ := h.moves hlabel hfound hfurther rfl
      (h.level found.kind found.word) (hsteady _ _ _ _ rfl h.level) hmoves
    obtain ⟨last', derivation', hsteps', hresult⟩ := ih hpeers (hstep.rest.trans hrest'.symm)
    exact ⟨last', derivation', hsteps'.head hmoves', hresult⟩

end Peers

end RecipeGraph.Source
