import RecipeGraph.Proofs.ClosingAdvice
import RecipeGraph.Proofs.Gaps
import RecipeGraph.Proofs.Separators

/-!
Putting a semicolon before the word that a text is rejected at. Up to there the text is read as it
was. The parser gets past the semicolon if and only if the words before it can be followed by one,
and then past what comes next if and only if a statement can begin with it: whatever else the state
behind a separator awaits would not have been complained about.
-/
namespace RecipeGraph.Source

open Grammar Relation

/-- Where a rejection begins. -/
def Rejection.start : Rejection → Nat
  | word token _ => token.start
  | character _ offset _ _ => offset

/-- It is the end of the text that is rejected. -/
def Rejection.atEnd : Rejection → Bool
  | word token _ => token.kind = .endOfText
  | character .. => false

/-- A text is accepted, or rejected only at its end or behind some place. -/
def GetsPast (text : String) (offset : Nat) : Prop :=
  ∀ rejection, derive text = .error rejection → rejection.atEnd = true ∨ offset < rejection.start

instance (text : String) (offset : Nat) : Decidable (GetsPast text offset) :=
  match hderive : derive text with
  | .ok _ => isTrue fun rejection h => by rw [hderive] at h; cases h
  | .error rejection =>
      decidable_of_iff (rejection.atEnd = true ∨ offset < rejection.start) <| by
        simp [GetsPast, hderive]

/-- A text with a semicolon put in. -/
def withSeparator (text : String) (offset : Nat) : String :=
  String.ofList (text.toList.take offset ++ ';' :: text.toList.drop offset)

/-- A statement can begin with the character. -/
def beginsStatement (c : Char) : Bool :=
  (Nonterminal.beginnings .statement).any fun kind => opens kind c

section Stack

variable {label : Token → Token} {stack : Stack} {token : Token} {kind : Terminal}

theorem words_relabel (label : Token → Token) (stack : Stack) :
    (stack.relabel label).words = stack.words.map label := by
  have htrees : (stack.relabel label).trees =
      Derivation.relabelAll label stack.trees := by
    simp [Stack.trees, Stack.relabel, Derivation.relabelAll_eq_map, Function.comp_def]
  rw [Stack.words, htrees, Derivation.tokensOfAll_relabelAll]
  rfl

theorem kinds_relabel (hlabel : KeepsKind label) (stack : Stack) :
    (stack.relabel label).words.map (·.kind) = stack.words.map (·.kind) := by
  rw [words_relabel, List.map_map]
  exact List.map_congr_left fun token _ => hlabel token

/-- A word that some recipe goes on with is taken in. -/
theorem shifted_of_viable (hdriven : stack.Driven) (hend : token.kind ≠ .endOfText)
    (hviable : Viable (stack.words.map (·.kind) ++ [token.kind])) :
    ∃ after, stack.feed token = .shifted after := by
  cases hfed : stack.feed token with
  | shifted after => exact ⟨after, rfl⟩
  | accepted tree => exact absurd (Stack.feedWithin_accepted hfed) hend
  | refused state => exact absurd hviable (not_viable hdriven hfed)

theorem awaited_of_viable (hdriven : stack.Driven)
    (hviable : Viable (stack.words.map (·.kind) ++ [kind])) :
    (action? stack.state kind).isSome = true := by
  by_contra hnone
  let token : Token := ⟨kind, "", 0, 0, 0, 0⟩
  have hfed : stack.feed token = .refused stack.state :=
    Reader.feed_refused (by simpa using hnone)
  exact not_viable hdriven hfed hviable

end Stack

namespace Reader

section Stuck

variable {text : String} {reader next last : Reader} {rejection : Rejection} {offset : Nat}

/-- Where the steps do not go on, they have come through whatever they came to. -/
theorem steps_to_stuck (hsteps : ReflTransGen Moves reader last)
    (hstuck : ∀ next, ¬ last.Moves next) (hnext : ReflTransGen Moves reader next) :
    ReflTransGen Moves next last := by
  have hunique : Relator.RightUnique Moves := fun _ _ _ h h' => moves_unique h h'
  rcases ReflTransGen.total_of_right_unique hunique hnext hsteps with hthrough | hbeyond
  · exact hthrough
  · rcases hbeyond.cases_head with rfl | ⟨middle, hmoves, -⟩
    · exact .refl
    · exact absurd hmoves (hstuck middle)

/-- Steps over no characters are none. -/
theorem eq_of_steps (hsteps : ReflTransGen Moves reader next)
    (hrest : reader.cursor.rest = next.cursor.rest) : reader = next := by
  rcases hsteps.cases_head with rfl | ⟨middle, hmoves, hrests⟩
  · rfl
  · have hshorter := hmoves.shorter
    obtain ⟨chars, hchars, -⟩ := rest_of_steps hrests
    rw [hrest, hchars, List.length_append] at hshorter
    omega

theorem not_moves_of_failed (h : reader.step = .failed rejection) (next : Reader) :
    ¬ reader.Moves next := by
  simp [Moves, h]

theorem Stops.character_start {c : Char} {place line column : Nat} (h : reader.Stops rejection)
    (hcharacter : rejection = .character c place line column) :
    reader.cursor.rest ≠ [] ∧ place = reader.cursor.offset := by
  cases h with
  | ending expected => cases hcharacter
  | stray hrest =>
    unfold Reader.stray at hcharacter
    dsimp only at hcharacter
    split at hcharacter
    · cases hcharacter
    · cases hcharacter
      exact ⟨by simp [hrest], rfl⟩
  | refused hfound expected => cases hcharacter

theorem ahead_of_match {allowed : Terminal → Bool} {found : Match} {chars : List Char}
    (h : firstMatch? allowed chars = some found) : chars ≠ [] := by
  have htaken := taken_of_split (firstMatch?_iff.mp h).2.1
  rw [htaken.joined]
  exact List.append_ne_nil_of_left_ne_nil htaken.nonempty _

/-- A reader is stopped by the end of the text, or by what stands there. -/
theorem failed_start (h : reader.step = .failed rejection) :
    reader.cursor.rest = [] ∧ rejection.atEnd = true ∨
      reader.cursor.rest ≠ [] ∧ rejection.atEnd = false ∧
        rejection.start = reader.cursor.offset := by
  cases rejection with
  | word token expected =>
    cases step_word_failed h with
    | ending hrest hfed => exact .inl ⟨hrest, decide_eq_true reader.endToken_kind⟩
    | refused hfound hpass hfed =>
      exact .inr ⟨ahead_of_match hfound, decide_eq_false (firstMatch_kind hfound), rfl⟩
    | stray hnone hany =>
      exact .inr ⟨ahead_of_match hany,
        decide_eq_false (nameFor_kind (firstMatch_kind hany) _), rfl⟩
  | character c place line column =>
    obtain ⟨hrest, hplace⟩ := (step_failed h).character_start rfl
    exact .inr ⟨hrest, rfl, hplace⟩

/-- A text is rejected where a reader of it is stopped before the end. -/
theorem getsPast_moves (hsteps : ReflTransGen Moves (start text) reader)
    (hrest : reader.cursor.rest ≠ []) (hpast : GetsPast text offset)
    (hoffset : reader.cursor.offset ≤ offset) : ∃ next, reader.Moves next := by
  by_contra hnone
  rw [not_exists] at hnone
  cases hderive : derive text with
  | ok derivation =>
    obtain ⟨last, hlast, hend, hfed⟩ := derive_iff.mp hderive
    have hstuck : ∀ next, ¬ last.Moves next := fun next => by
      simp [Moves, step_accepted hend hfed]
    have hon := steps_to_stuck hlast hstuck hsteps
    rcases hon.cases_head with rfl | ⟨middle, hmoves, -⟩
    · exact hrest hend
    · exact hnone middle hmoves
  | error rejection =>
    obtain ⟨last, hlast, hfailed⟩ := derive_error hderive
    have hon := steps_to_stuck hlast (not_moves_of_failed hfailed) hsteps
    rcases hon.cases_head with rfl | ⟨middle, hmoves, -⟩
    · rcases failed_start hfailed with ⟨hend, -⟩ | ⟨-, hnot, hstart⟩
      · exact hrest hend
      · rcases hpast rejection hderive with hend | hbehind
        · rw [hnot] at hend
          cases hend
        · omega
    · exact hnone middle hmoves

/-- It is not rejected before any place that a reader of it comes to. -/
theorem getsPast_of_steps (hsteps : ReflTransGen Moves (start text) reader)
    (hoffset : offset < reader.cursor.offset) : GetsPast text offset := by
  intro rejection hderive
  obtain ⟨last, hlast, hfailed⟩ := derive_error hderive
  have hon := steps_to_stuck hlast (not_moves_of_failed hfailed) hsteps
  obtain ⟨chars, -, hlength⟩ := rest_of_steps hon
  rcases failed_start hfailed with ⟨-, hend⟩ | ⟨-, -, hstart⟩
  · exact .inl hend
  · right
    omega

end Stuck

section Separator

variable {reader next : Reader} {more : List Char}

/-- The semicolon ahead as the automaton gets it. -/
def separatorOf (reader : Reader) : Token :=
  reader.cursor.token .semicolon [';']

theorem opens_semicolon {kind : Terminal} (h : opens kind ';' = true) : kind = .semicolon := by
  revert h
  cases kind <;> decide

theorem kind_of_semicolon {allowed : Terminal → Bool} {found : Match}
    (h : firstMatch? allowed (';' :: more) = some found) : found.kind = .semicolon :=
  opens_semicolon (opens_of_split (firstMatch?_iff.mp h).2.1)

/-- Over a semicolon a reader only steps by handing it over. -/
theorem moves_separator (hrest : reader.cursor.rest = ';' :: more) (hmoves : reader.Moves next) :
    next.cursor.rest = more ∧ next.cursor.offset = reader.cursor.offset + 1 ∧
      reader.stack.feed reader.separatorOf = .shifted next.stack := by
  obtain ⟨found, hfound, hstep⟩ := hmoves.finds
  unfold found? at hfound
  rw [hrest] at hfound
  obtain ⟨kind, word, rest⟩ := found
  obtain rfl : kind = .semicolon := kind_of_semicolon hfound
  have hsplit := (firstMatch?_iff.mp hfound).2.1
  obtain ⟨rfl, rfl⟩ : [';'] = word ∧ more = rest := by
    simpa [split?, Terminal.mark?, splitMark] using hsplit
  refine ⟨hstep.rest, by rw [hstep.cursor]; rfl, ?_⟩
  cases hstep with
  | passing hpass => simp [passesOver, Terminal.isSkipped, Brackets.drops] at hpass
  | handing hpass hfed => exact hfed

/-- Where some recipe goes on with a semicolon, a reader steps over it. -/
theorem separator_moves (hdriven : reader.stack.Driven) (hrest : reader.cursor.rest = ';' :: more)
    (hviable : Viable (reader.stack.words.map (·.kind) ++ [.semicolon])) :
    ∃ next, reader.Moves next := by
  obtain ⟨after, hfed⟩ : ∃ after, reader.stack.feed reader.separatorOf = .shifted after :=
    shifted_of_viable hdriven (by simp [separatorOf, Cursor.token]) hviable
  have hawaited := awaited_of_viable hdriven hviable
  have hfound : reader.found? = some ⟨.semicolon, [';'], more⟩ := by
    unfold found?
    rw [hrest, ← List.singleton_append]
    refine firstMatch?_spelled (by simp [allows, awaits, hawaited]) rfl
      (ends_fixed .semicolon (fun _ => rfl) (by decide) more) fun other hoverlaps _ _ => ?_
    exact split?_closed (by cases other <;> first | rfl | cases hoverlaps)
  exact ⟨_, StepTo.moves hfound (.handing rfl hfed)⟩

end Separator

section Beginning

variable {reader next : Reader} {c : Char} {tail : List Char} {kind other : Terminal}

/-- What a state behind a separator awaits besides the beginning of a statement, or passes over. -/
def besides : List Terminal :=
  [.blank, .lineComment, .blockComment, .newline, .semicolon, .rightBracket]

theorem allows_behindSeparator : (Terminal.lexical.all fun kind => !allows behindSeparator kind ||
    (Nonterminal.beginnings .statement).contains kind || besides.contains kind) = true := by
  decide +kernel

/-- A character that a statement can begin with opens nothing else there. -/
theorem opens_besides (hkind : kind ∈ Nonterminal.beginnings .statement)
    (hother : other ∈ besides) (hopens : opens kind c = true) : opens other c = false := by
  by_contra hopens'
  rw [Bool.not_eq_false] at hopens'
  by_cases hsign : c ∈ signs
  · have hapart : (signs.all fun c => (Nonterminal.beginnings .statement).all fun kind =>
        besides.all fun other => !opens kind c || !opens other c) = true := by
      decide +kernel
    simp only [List.all_eq_true] at hapart
    have hnot := hapart c hsign kind hkind other hother
    simp [hopens, hopens'] at hnot
  · rcases opens_of_not_sign hsign hopens' with rfl | rfl | rfl <;> revert hother <;> decide

theorem split?_beginning (hkind : kind ∈ Nonterminal.beginnings .statement)
    (hopens : opens kind c = true) (tail : List Char) : split? kind (c :: tail) ≠ none := by
  simp only [Nonterminal.beginnings, List.mem_cons, List.not_mem_nil, or_false] at hkind
  rcases hkind with rfl | rfl | rfl | rfl | rfl
  · have hstart : Text.isWordStart c = true := hopens
    simp [split?, splitRun, hstart]
  all_goals
    have hmark := of_decide_eq_true (show decide (_ = some c) = true from hopens)
    simp [split?_mark hmark]

/-- What a reader finds behind a separator begins a statement, or is one of a few other words. -/
theorem found_behindSeparator {found : Match} (hstate : reader.stack.state = behindSeparator)
    (hrest : reader.cursor.rest = c :: tail) (hfound : reader.found? = some found) :
    opens found.kind c = true ∧
      (found.kind ∈ Nonterminal.beginnings .statement ∨ found.kind ∈ besides) := by
  obtain ⟨hallowed, hsplit, -⟩ := firstMatch?_iff.mp hfound
  rw [hrest] at hsplit
  have hopens := opens_of_split hsplit
  have hall := allows_behindSeparator
  simp only [List.all_eq_true, Bool.or_eq_true, Bool.not_eq_true', List.contains_iff_mem] at hall
  rcases hall found.kind (mem_lexical_of_opens hopens) with (hnot | hbegins) | hbeside
  · rw [← hstate, hallowed] at hnot
    cases hnot
  · exact ⟨hopens, .inl hbegins⟩
  · exact ⟨hopens, .inr hbeside⟩

/-- Behind a separator a reader steps over the beginning of a statement. -/
theorem beginning_moves (hsound : reader.stack.Sound)
    (hstate : reader.stack.state = behindSeparator) (hrest : reader.cursor.rest = c :: tail)
    (hbegins : beginsStatement c = true) :
    ∃ next, reader.Moves next := by
  obtain ⟨kind, hkind, hopens⟩ := List.any_eq_true.mp hbegins
  have hawaited : allows reader.stack.state kind = true := by
    have hcarried := beginnings_carried
    simp only [List.all_eq_true, Bool.and_eq_true, carries] at hcarried
    simp [allows, awaits, hstate, (hcarried kind hkind).1.1.1]
  have hsplit := split?_beginning hkind hopens tail
  cases hfound : reader.found? with
  | none =>
    unfold found? at hfound
    rw [hrest] at hfound
    rw [firstMatch?_none hfound (mem_lexical hsplit) hsplit] at hawaited
    cases hawaited
  | some found =>
    obtain ⟨hopens', hfoundKind⟩ := found_behindSeparator hstate hrest hfound
    have hbegins' : found.kind ∈ Nonterminal.beginnings .statement := by
      refine hfoundKind.resolve_right fun hbeside => ?_
      rw [opens_besides hkind hbeside hopens] at hopens'
      cases hopens'
    have hpass : reader.passesOver found.kind = false := by
      have hnone : ((Nonterminal.beginnings .statement).all fun kind =>
          !kind.isSkipped && kind ≠ .newline) = true := by
        decide
      have hkinds := List.all_eq_true.mp hnone found.kind hbegins'
      simp only [Bool.and_eq_true, Bool.not_eq_true', decide_eq_true_eq] at hkinds
      simp [passesOver, Brackets.drops, hkinds]
    obtain ⟨after, hfed⟩ : ∃ after, reader.stack.feed (reader.wordOf found) = .shifted after :=
      hsound.feed_beginning hstate hbegins'
    exact ⟨_, StepTo.moves hfound (.handing hpass hfed)⟩

end Beginning

section Complaint

variable {reader : Reader} {token : Token} {expected : List Terminal} {found : Match} {c : Char}
  {tail : List Char} {kind : Terminal} {state : Nat}

/-- A value is taken in wherever it is awaited. -/
theorem values_shifted : (rows.zipIdx.all fun row => (action? row.2 .styleValue).isNone ||
    (row.1.shifts.lookup .styleValue).isSome) = true := by
  decide +kernel

theorem action?_value (h : (action? state .styleValue).isSome = true) :
    ∃ next, action? state .styleValue = some (.shift next) := by
  have hchecked := List.all_eq_true.mp values_shifted _ (row_of_action h (by simp))
  rw [Option.isNone_eq_false_iff.mpr h, Bool.false_or] at hchecked
  obtain ⟨next, hnext⟩ := Option.isSome_iff_exists.mp hchecked
  exact ⟨next, by simp [action?, hnext]⟩

/-- So no value is refused where it was found. -/
theorem refused_no_value (hfound : reader.found? = some found)
    (hfed : reader.stack.feed (reader.wordOf found) = .refused state) :
    found.kind ≠ .styleValue := by
  intro hkind
  have hallowed := (firstMatch?_iff.mp hfound).1
  have hawaited : (action? reader.stack.state .styleValue).isSome = true := by
    simpa [hkind, allows, awaits, Terminal.isSkipped] using hallowed
  obtain ⟨next, hnext⟩ := action?_value hawaited
  have hword : (reader.wordOf found).kind = .styleValue := hkind
  unfold Stack.feed at hfed
  rw [show 8 * (reader.stack.length + 2) = 8 * reader.stack.length + 15 + 1 by omega] at hfed
  simp [Stack.feedWithin, hword, hnext] at hfed

theorem triedBefore_total : (Terminal.lexical.all fun kind => Terminal.lexical.all fun other =>
    (triedBefore other).contains kind || kind = other || (triedBefore kind).contains other) =
      true := by
  decide +kernel

/-- A semicolon is only ever complained about as a semicolon. -/
theorem Fails.not_semicolon (h : reader.Fails token expected)
    (hrest : reader.cursor.rest = c :: tail) (hseparator : token.kind ≠ .semicolon) : c ≠ ';' := by
  rintro rfl
  cases h with
  | ending hend hfed => simp [hrest] at hend
  | @stray found hnone hany =>
    rw [hrest] at hany
    refine hseparator ?_
    show nameFor found.kind found.word = .semicolon
    rw [kind_of_semicolon hany]
    rfl
  | refused hfound hpass hfed =>
    unfold found? at hfound
    rw [hrest] at hfound
    exact hseparator (kind_of_semicolon hfound)

/-- What is passed over, and a line break, may be found in every state. -/
theorem allows_passed (hkind : kind ∈ besides) (hbracket : kind ≠ .rightBracket)
    (hseparator : kind ≠ .semicolon) (state : Nat) : allows state kind = true := by
  revert hkind
  cases kind <;> simp_all [besides, allows, awaits, Terminal.isSkipped]

/-- Where a word is found that means something, nothing stands that is passed over: it would have
been tried before, or no character begins both. -/
theorem split?_passed (hfound : reader.found? = some found)
    (hrest : reader.cursor.rest = c :: tail) (hpass : reader.passesOver found.kind = false)
    (hnewline : found.kind ≠ .newline) (hvalue : found.kind ≠ .styleValue) (hkind : kind ∈ besides)
    (hbracket : kind ≠ .rightBracket) (hseparator : kind ≠ .semicolon) :
    split? kind (c :: tail) = none := by
  by_contra hsplit
  obtain ⟨⟨word, rest⟩, hsome⟩ := Option.ne_none_iff_exists'.mp hsplit
  have hopens := opens_of_split hsome
  obtain ⟨-, hsplit', hnone⟩ := firstMatch?_iff.mp hfound
  rw [hrest] at hsplit' hnone
  have hopens' := opens_of_split hsplit'
  have hskipped : found.kind.isSkipped = false := by
    simp only [passesOver, Bool.or_eq_false_iff] at hpass
    exact hpass.1
  have htotal := triedBefore_total
  simp only [List.all_eq_true, Bool.or_eq_true, List.contains_iff_mem, decide_eq_true_eq] at htotal
  rcases htotal kind (mem_lexical hsplit) found.kind (mem_lexical_of_opens hopens') with
    (hbefore | hsame) | hafter
  · exact hsplit (hnone kind hbefore (allows_passed hkind hbracket hseparator _))
  · revert hkind
    rw [hsame] at hbracket hseparator ⊢
    revert hskipped hnewline hbracket hseparator
    cases found.kind <;> simp [besides, Terminal.isSkipped]
  · have hoverlaps := overlaps_of_opens hafter hopens' hopens
    revert hskipped hnewline hvalue hkind hoverlaps
    cases found.kind <;> cases kind <;> simp [besides, overlaps, Terminal.isSkipped]

/-- No separator and nothing that is passed over stands where another word is complained about. -/
theorem Fails.apart (h : reader.Fails token expected) (hrest : reader.cursor.rest = c :: tail)
    (hnewline : token.kind ≠ .newline) (hseparator : token.kind ≠ .semicolon)
    (hkind : kind ∈ besides) (hbracket : kind ≠ .rightBracket) :
    split? kind (c :: tail) = none := by
  have hfirst := h.not_semicolon hrest hseparator
  by_cases hsemicolon : kind = .semicolon
  · subst hsemicolon
    exact split?_closed (by simpa [opens, Terminal.mark?, eq_comm] using hfirst)
  cases h with
  | ending hend hfed => simp [hrest] at hend
  | stray hnone hany =>
    by_contra hsplit
    unfold found? at hnone
    rw [hrest] at hnone
    have hclosed := firstMatch?_none hnone (mem_lexical hsplit) hsplit
    rw [allows_passed hkind hbracket hsemicolon] at hclosed
    cases hclosed
  | refused hfound hpass hfed =>
    exact split?_passed hfound hrest hpass hnewline (refused_no_value hfound hfed) hkind hbracket
      hsemicolon

/-- Where a closing bracket is complained about no recipe goes on with one. -/
theorem Fails.no_bracket (h : reader.Fails token expected) (hdriven : reader.stack.Driven)
    (hrest : reader.cursor.rest = ']' :: tail) :
    ¬ Viable (reader.stack.words.map (·.kind) ++ [.rightBracket]) := by
  intro hviable
  have hallowed : allows reader.stack.state .rightBracket = true := by
    simp [allows, awaits, awaited_of_viable hdriven hviable]
  have hsplit : split? .rightBracket (']' :: tail) = some ([']'], tail) := split?_mark rfl
  cases h with
  | ending hend hfed => simp [hrest] at hend
  | stray hnone hany =>
    unfold found? at hnone
    rw [hrest] at hnone
    rw [firstMatch?_none hnone (by decide) (by simp [hsplit])] at hallowed
    cases hallowed
  | @refused found state hfound hpass hfed =>
    have hsplit' := (firstMatch?_iff.mp hfound).2.1
    rw [hrest] at hsplit'
    have hkinds : ∀ kind, opens kind ']' = true → kind = .styleValue ∨ kind = .rightBracket := by
      intro kind
      cases kind <;> decide
    rcases hkinds found.kind (opens_of_split hsplit') with hvalue | hbracket
    · exact refused_no_value hfound hfed hvalue
    · refine not_viable hdriven hfed ?_
      rw [show (reader.wordOf found).kind = .rightBracket from hbracket]
      exact hviable

end Complaint

end Reader

section Insertion

variable {reader other place : Reader} {chars tail : List Char} {c : Char}

/-- A word that ends before a character also ends before a semicolon. Only a comment that runs to
the end of its line does not, and that would have taken in the character. -/
theorem ends_semicolon {kind : Terminal} (h : Ends kind (c :: tail)) (hc : c ≠ '\n')
    (more : List Char) : Ends kind (';' :: more) := by
  have hcomment : kind ≠ .lineComment := by
    rintro rfl
    have hcarries := h.1 c rfl
    simp [carriesOn, hc] at hcarries
  refine ⟨fun d hd => ?_, fun _ others hothers => ?_⟩
  · obtain rfl : ';' = d := by simpa using hd
    revert hcomment
    cases kind <;> decide
  · simp at hothers

/-- Readers that have read the same, and have the same before them up to a semicolon that only one
of them has there, step on together to that place. -/
theorem Peers.before_separator (h : Peers Token.unlined reader other)
    (hreached : ReflTransGen Reader.Moves reader place) (hplace : place.cursor.rest = c :: tail)
    (hc : c ≠ '\n') (hrest : reader.cursor.rest = chars ++ c :: tail)
    (hrest' : other.cursor.rest = chars ++ ';' :: c :: tail) :
    ∃ place', ReflTransGen Reader.Moves other place' ∧ place'.cursor.rest = ';' :: c :: tail ∧
      Peers Token.unlined place place' := by
  induction hreached using ReflTransGen.head_induction_on generalizing other chars with
  | refl =>
    obtain rfl : chars = [] := List.append_left_eq_self.mp (hrest.symm.trans hplace)
    exact ⟨other, .refl, hrest', h⟩
  | @head reader middle hmoves hreached ih =>
    obtain ⟨found, hfound, hstep⟩ := hmoves.finds
    have htaken := Reader.found?_taken hfound
    obtain ⟨front, hfront, -⟩ := Reader.rest_of_steps hreached
    rw [hplace] at hfront
    have hchars : chars = found.word ++ front := by
      rw [htaken.joined, ← hstep.rest, hfront, ← List.append_assoc] at hrest
      exact (List.append_cancel_right hrest).symm
    rw [hchars, List.append_assoc] at hrest hrest'
    by_cases hnone : front = []
    · subst hnone
      obtain rfl : middle = place := Reader.eq_of_steps hreached (hfront.trans hplace.symm)
      have hended := htaken.ended
      rw [← hstep.rest, hplace] at hended
      have hends : Ends found.kind (';' :: c :: tail) := ends_semicolon hended hc (c :: tail)
      have hbreak : found.kind = .blank → splitNewline (found.word ++ ';' :: c :: tail) = none :=
        fun hkind => splitNewline_blank
          (blank_chars (hkind ▸ (firstMatch?_iff.mp hfound).2.1)) htaken.nonempty (by simp)
      obtain ⟨next', hmoves', hnext', hpeers⟩ :=
        h.again Token.keepsKind_unlined steady_unlined hmoves hfound hrest' hends hbreak
      exact ⟨next', .single hmoves', hnext', hpeers⟩
    · obtain ⟨next', hmoves', hnext', hpeers⟩ := h.along Token.keepsKind_unlined steady_unlined
        hmoves hfound hrest hrest' hnone fun _ _ => by simp
      obtain ⟨place', hsteps', hplace', hsame⟩ := ih hpeers hfront hnext'
      exact ⟨place', hsteps'.head hmoves', hplace', hsame⟩

end Insertion

/-- A reader of a text where it is rejected because of a word, and one of the text with a semicolon
before that word. -/
structure Parted (text : String) (token : Token) (expected : List Terminal) (last place : Reader)
    (c : Char) (tail : List Char) : Prop where
  steps : ReflTransGen Reader.Moves (Reader.start text) last
  failed : last.step = .failed (.word token expected)
  ahead : last.cursor.rest = c :: tail
  first : text.toList[token.start]? = some c
  steps' : ReflTransGen Reader.Moves (Reader.start (withSeparator text token.start)) place
  ahead' : place.cursor.rest = ';' :: c :: tail
  offset' : place.cursor.offset = token.start
  kinds : place.stack.words.map (·.kind) = last.stack.words.map (·.kind)

section Parting

variable {text : String} {token : Token} {expected : List Terminal} {last place : Reader}
  {c : Char} {tail : List Char}

theorem exists_parted (hderive : derive text = .error (.word token expected))
    (hkind : token.kind ≠ .endOfText) (hnewline : token.kind ≠ .newline)
    (hseparator : token.kind ≠ .semicolon) :
    ∃ last place c tail, Parted text token expected last place c tail := by
  obtain ⟨last, hsteps, hfailed⟩ := derive_error hderive
  have hfails := Reader.step_word_failed hfailed
  obtain ⟨hrest, hstart⟩ : last.cursor.rest ≠ [] ∧ token.start = last.cursor.offset := by
    rcases Reader.failed_start hfailed with ⟨-, hend⟩ | ⟨hrest, -, hstart⟩
    · exact absurd (of_decide_eq_true hend) hkind
    · exact ⟨hrest, hstart⟩
  obtain ⟨c, tail, hahead⟩ := List.exists_cons_of_ne_nil hrest
  have hc : c ≠ '\n' := by
    rintro rfl
    have hsplit : split? .newline ('\n' :: tail) = none :=
      hfails.apart hahead hnewline hseparator (by decide) (by decide)
    simp [split?, splitNewline] at hsplit
  obtain ⟨before, htext, hoffset⟩ := (stands_of_steps hsteps).place
  rw [hahead] at htext
  rw [← hstart] at hoffset
  have htext' : (Reader.start (withSeparator text token.start)).cursor.rest =
      before ++ ';' :: c :: tail := by
    show (withSeparator text token.start).toList = _
    rw [withSeparator, String.toList_ofList, htext, ← hoffset, List.take_left, List.drop_left]
  have hpeers : Peers Token.unlined (Reader.start text)
      (Reader.start (withSeparator text token.start)) :=
    ⟨rfl, rfl, level_unlined.mpr rfl⟩
  obtain ⟨place, hsteps', hahead', hsame⟩ :=
    hpeers.before_separator hsteps hahead hc htext htext'
  refine ⟨last, place, c, tail, hsteps, hfailed, hahead, ?_, hsteps', hahead', ?_, ?_⟩
  · rw [htext, ← hoffset]
    simp
  · rw [hstart]
    exact (level_unlined.mp hsame.level).symm
  · rw [← kinds_relabel Token.keepsKind_unlined, ← hsame.frames,
      kinds_relabel Token.keepsKind_unlined]

theorem scope_of_closed {brackets : Brackets}
    (h : ([Terminal.semicolon, .rightBracket].foldlM close? brackets).isSome = true) :
    brackets.head? = some .leftBracket := by
  have hclosed : (close? brackets .rightBracket).isSome = true := by
    simpa [List.foldlM, close?, isOpener, isCloser, Brackets.closerOf?] using h
  obtain ⟨after, hafter⟩ := Option.isSome_iff_exists.mp hclosed
  obtain ⟨opener, rfl⟩ := close?_closer rfl rfl hafter
  revert hclosed
  cases opener <;> simp [close?, isOpener, isCloser, Brackets.closerOf?]

namespace Parted

variable {brackets : Brackets}

theorem fails (h : Parted text token expected last place c tail) : last.Fails token expected :=
  Reader.step_word_failed h.failed

theorem words (h : Parted text token expected last place c tail) :
    last.stack.words = handed text :=
  words_handed h.steps (Reader.not_moves_of_failed h.failed)

theorem sound (h : Parted text token expected last place c tail) : place.stack.Sound :=
  (stands_of_steps h.steps').sound

/-- Behind the semicolon the reader has the same ahead as the other one, behind a separator. -/
theorem behind (h : Parted text token expected last place c tail) {next : Reader}
    (hopen : openAfter (last.stack.words.map (·.kind)) = some brackets)
    (hbrace : brackets.head? ≠ some .leftBrace) (hmoves : place.Moves next) :
    next.cursor.rest = c :: tail ∧ next.cursor.offset = token.start + 1 ∧
      next.stack.Sound ∧ next.stack.state = behindSeparator ∧
      next.stack.words.map (·.kind) = last.stack.words.map (·.kind) ++ [.semicolon] := by
  obtain ⟨hrest, hoffset, hfed⟩ := Reader.moves_separator h.ahead' hmoves
  have hsound := h.sound.feed_sound place.separatorOf
  rw [hfed] at hsound
  rw [← h.kinds] at hopen
  refine ⟨hrest, by rw [hoffset, h.offset'], hsound.1, ?_, ?_⟩
  · exact (h.sound.feed_separator rfl hfed hopen hbrace).1
  · rw [hsound.2, List.map_append, h.kinds]
    rfl

/-- A closing bracket that could follow the semicolon could have stood in its place. -/
theorem no_bracket (h : Parted text token expected last place c tail) {next further : Reader}
    (hopen : openAfter (last.stack.words.map (·.kind)) = some brackets)
    (hbrace : brackets.head? ≠ some .leftBrace) (hmoves : place.Moves next) {found : Match}
    (hfound : next.found? = some found) (hstep : Reader.StepTo next found further) :
    found.kind ≠ .rightBracket := by
  intro hkind
  obtain ⟨hrest, -, hsound, -, hwords⟩ := h.behind hopen hbrace hmoves
  have hopens : opens .rightBracket c = true := by
    have hsplit := (firstMatch?_iff.mp hfound).2.1
    rw [hrest] at hsplit
    exact hkind ▸ opens_of_split hsplit
  have hc : c = ']' := by simpa [opens, Terminal.mark?, eq_comm] using hopens
  -- The bracket is taken in behind the semicolon, so it is a square one that is open.
  have hscope : brackets.head? = some .leftBracket := by
    have hpass : next.passesOver found.kind = false := by
      simp [hkind, Reader.passesOver, Terminal.isSkipped, Brackets.drops]
    obtain ⟨hfurther, hsame⟩ := hstep.sound hsound
    have hclosed := hfurther.openAfter_isSome
    have hword : (next.wordOf found).kind = .rightBracket := hkind
    rw [hsame, hpass, if_neg Bool.false_ne_true, List.map_append, hwords, List.map_singleton, hword,
      List.append_assoc, openAfter_append, hopen] at hclosed
    exact scope_of_closed hclosed
  have hfed := (Reader.moves_separator h.ahead' hmoves).2.2
  rw [← h.kinds] at hopen
  let closer : Token := ⟨.rightBracket, "", 0, 0, 0, 0⟩
  obtain ⟨below, closed, hbelow, hsame, hclosed⟩ :=
    (h.sound.feed_separator rfl hfed hopen hbrace).2 closer rfl hscope
  have hafter := hbelow.feed_sound closer
  rw [hclosed] at hafter
  refine h.fails.no_bracket (driven_of_steps h.steps) (hc ▸ h.ahead) ?_
  have hviable := viable_of_sound hafter.1
  rw [hafter.2, List.map_append, hsame, h.kinds] at hviable
  exact hviable

/-- The parser gets past the place if and only if some recipe goes on with a semicolon there, and a
statement can begin with what stands there. -/
theorem getsPast_iff (h : Parted text token expected last place c tail)
    (hopen : openAfter (last.stack.words.map (·.kind)) = some brackets)
    (hbrace : brackets.head? ≠ some .leftBrace) (hnewline : token.kind ≠ .newline)
    (hseparator : token.kind ≠ .semicolon) :
    GetsPast (withSeparator text token.start) (token.start + 1) ↔
      Viable (last.stack.words.map (·.kind) ++ [.semicolon]) ∧ beginsStatement c = true := by
  constructor
  · intro hpast
    obtain ⟨next, hmoves⟩ := Reader.getsPast_moves h.steps' (by simp [h.ahead']) hpast
      (by rw [h.offset']; omega)
    obtain ⟨hrest, hoffset, hsound, hstate, hwords⟩ := h.behind hopen hbrace hmoves
    obtain ⟨further, hmoves'⟩ := Reader.getsPast_moves (h.steps'.tail hmoves) (by simp [hrest])
      hpast (by omega)
    refine ⟨hwords ▸ viable_of_sound hsound, ?_⟩
    obtain ⟨found, hfound, hstep⟩ := hmoves'.finds
    obtain ⟨hopens, hbegins | hbeside⟩ := Reader.found_behindSeparator hstate hrest hfound
    · exact List.any_eq_true.mpr ⟨found.kind, hbegins, hopens⟩
    · have hbracket := h.no_bracket hopen hbrace hmoves hfound hstep
      have hsplit := (firstMatch?_iff.mp hfound).2.1
      rw [hrest, h.fails.apart h.ahead hnewline hseparator hbeside hbracket] at hsplit
      cases hsplit
  · rintro ⟨hviable, hbegins⟩
    obtain ⟨next, hmoves⟩ := Reader.separator_moves (driven_of_steps h.steps') h.ahead'
      (h.kinds ▸ hviable)
    obtain ⟨hrest, hoffset, hsound, hstate, -⟩ := h.behind hopen hbrace hmoves
    obtain ⟨further, hmoves'⟩ := Reader.beginning_moves hsound hstate hrest hbegins
    obtain ⟨chars, hchars, hlength⟩ := Reader.rest_of_steps (.single hmoves')
    have hshorter := hmoves'.shorter
    refine Reader.getsPast_of_steps ((h.steps'.tail hmoves).tail hmoves') ?_
    rw [hchars, List.length_append] at hshorter
    omega

end Parted

end Parting

end RecipeGraph.Source
