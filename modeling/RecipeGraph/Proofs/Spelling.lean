import Mathlib.Tactic.Common
import RecipeGraph.Source.Word

/-!
Where words end. A terminal takes a word off the characters ahead in a way that depends on the word
and on what goes on with it, and on nothing further away. So a word that was found is found again
before other characters, if none of them goes on with it.
-/
namespace RecipeGraph.Source

open Grammar Text

/-- The characters that go on with a word once it could end. -/
def carriesOn : Terminal → Char → Bool
  | .styleValue, c => isValueChar c
  | .propertyName, c => isPropertyChar c
  | .identifier, c => isWordChar c
  | .blank, c => isBlankChar c
  | .lineComment, c => c ≠ '\n'
  | .newline, c => c = '\n' || c = '\t' || c = ' '
  | _, _ => false

/-- Nothing of what follows goes on with the word. A carriage return only belongs to a line break
together with the line feed after it. -/
def Ends (kind : Terminal) (rest : List Char) : Prop :=
  (∀ c ∈ rest.head?, carriesOn kind c = false) ∧
    (kind = .newline → ∀ others : List Char, rest ≠ '\r' :: '\n' :: others)

/-- A word is spelled like a terminal if the terminal takes it in full. -/
def Spells (kind : Terminal) (word : List Char) : Prop :=
  split? kind word = some (word, [])

/-- What is known about a word that was taken off some characters. -/
structure Taken (kind : Terminal) (chars word rest : List Char) : Prop where
  joined : chars = word ++ rest
  nonempty : word ≠ []
  ended : Ends kind rest
  again : ∀ others : List Char, Ends kind others →
    split? kind (word ++ others) = some (word, others)

section Splitting

variable {chars word rest : List Char} {kind : Terminal} {first later : Char → Bool}
  {quote mark : Char}

theorem splitRun_some (h : splitRun first later chars = some (word, rest)) :
    chars = word ++ rest ∧ word ≠ [] ∧ (∀ c ∈ rest.head?, later c = false) ∧
      ∀ others : List Char, (∀ c ∈ others.head?, later c = false) →
        splitRun first later (word ++ others) = some (word, others) := by
  cases chars with
  | nil => simp [splitRun] at h
  | cons c tail =>
    by_cases hfirst : first c = true
    · simp only [splitRun, hfirst, if_true, Option.some.injEq, Prod.mk.injEq] at h
      obtain ⟨rfl, rfl⟩ := h
      refine ⟨by simp, by simp, ?_, ?_⟩
      · intro d hd
        have hnot := List.head?_dropWhile_not later tail
        rw [Option.mem_def] at hd
        simpa [hd] using hnot
      · intro others hothers
        have htaken : ∀ d ∈ tail.takeWhile later, later d = true :=
          fun d hd => List.all_eq_true.mp List.all_takeWhile d hd
        have hnone : others.takeWhile later = [] ∧ others.dropWhile later = others := by
          cases others with
          | nil => simp
          | cons d others =>
            have hd : later d = false := hothers d (by simp)
            simp [hd]
        simp [splitRun, hfirst, List.takeWhile_append_of_pos htaken,
          List.dropWhile_append_of_pos htaken, hnone]
    · simp [splitRun, hfirst] at h

theorem splitMark_some (h : splitMark mark chars = some (word, rest)) :
    chars = word ++ rest ∧ word = [mark] := by
  cases chars with
  | nil => simp [splitMark] at h
  | cons c tail =>
    by_cases hc : c = mark
    · simp only [splitMark, hc, if_true, Option.some.injEq, Prod.mk.injEq] at h
      obtain ⟨rfl, rfl⟩ := h
      simp [hc]
    · simp [splitMark, hc] at h

/-- What follows an opening quote, with the case distinction laid open. -/
theorem splitQuoted_cons (c : Char) (tail : List Char) :
    splitQuoted quote (c :: tail) =
      if c = quote then some ([c], tail)
      else if c = '\n' then none
      else if c = '\\' then
        match tail with
        | [] => none
        | d :: tail =>
            if d = '\n' then none
            else (splitQuoted quote tail).map fun split => (c :: d :: split.1, split.2)
      else (splitQuoted quote tail).map fun split => (c :: split.1, split.2) :=
  splitQuoted.eq_def quote (c :: tail)

theorem splitQuoted_some (h : splitQuoted quote chars = some (word, rest)) :
    chars = word ++ rest ∧ ∀ others : List Char,
      splitQuoted quote (word ++ others) = some (word, others) := by
  induction chars using splitQuoted.induct quote generalizing word rest with
  | case1 => simp [splitQuoted] at h
  | case2 tail =>
    simp only [splitQuoted_cons, if_true, Option.some.injEq, Prod.mk.injEq] at h
    obtain ⟨rfl, rfl⟩ := h
    simp [splitQuoted_cons]
  | case3 tail hquote => simp [splitQuoted_cons, hquote] at h
  | case4 hquote hbreak => simp [splitQuoted_cons, hquote] at h
  | case5 tail hquote hbreak => simp [splitQuoted_cons, hquote] at h
  | case6 d tail hd hquote hbreak ih =>
    simp only [splitQuoted_cons, hquote, hbreak, hd, if_false, if_true] at h
    obtain ⟨split, hsplit, heq⟩ := Option.map_eq_some_iff.mp h
    obtain ⟨rfl, rfl⟩ := Prod.mk.inj heq
    obtain ⟨hjoined, hagain⟩ := ih hsplit
    refine ⟨by simp [hjoined], fun others => ?_⟩
    simp [splitQuoted_cons '\\', hquote, hd, hagain others]
  | case7 c tail hquote hbreak hslash ih =>
    simp only [splitQuoted_cons, hquote, hbreak, hslash, if_false] at h
    obtain ⟨split, hsplit, heq⟩ := Option.map_eq_some_iff.mp h
    obtain ⟨rfl, rfl⟩ := Prod.mk.inj heq
    obtain ⟨hjoined, hagain⟩ := ih hsplit
    refine ⟨by simp [hjoined], fun others => ?_⟩
    simp [splitQuoted_cons c, hquote, hbreak, hslash, hagain others]

/-- A comment goes on after a character that does not begin its end mark. -/
theorem splitCommentTail_cons {c : Char} {tail : List Char}
    (h : ∀ others : List Char, c = '*' → tail = '/' :: others → False) :
    splitCommentTail (c :: tail) =
      (splitCommentTail tail).map fun split => (c :: split.1, split.2) := by
  rw [splitCommentTail]
  exact h

theorem splitCommentTail_some (h : splitCommentTail chars = some (word, rest)) :
    chars = word ++ rest ∧ ∀ others : List Char,
      splitCommentTail (word ++ others) = some (word, others) := by
  induction chars using splitCommentTail.induct generalizing word rest with
  | case1 tail =>
    simp only [splitCommentTail, Option.some.injEq, Prod.mk.injEq] at h
    obtain ⟨rfl, rfl⟩ := h
    simp [splitCommentTail]
  | case2 c tail hend ih =>
    rw [splitCommentTail_cons hend] at h
    obtain ⟨split, hsplit, heq⟩ := Option.map_eq_some_iff.mp h
    obtain ⟨rfl, rfl⟩ := Prod.mk.inj heq
    obtain ⟨hjoined, hagain⟩ := ih hsplit
    refine ⟨by simp [hjoined], fun others => ?_⟩
    have hsame : ∀ further : List Char, c = '*' → split.1 ++ others = '/' :: further → False := by
      intro further hc hfurther
      cases hword : split.1 with
      | nil =>
        have hnone := hagain []
        simp [hword, splitCommentTail] at hnone
      | cons d word =>
        rw [hword, List.cons_append, List.cons.injEq] at hfurther
        refine hend (word ++ split.2) hc ?_
        rw [hjoined, hword, hfurther.1]
        rfl
    rw [List.cons_append, splitCommentTail_cons hsame, hagain others]
    rfl
  | case3 => simp [splitCommentTail] at h

theorem splitBreaks_ended (h : Ends .newline rest) : splitBreaks rest = ([], rest) := by
  obtain ⟨hhead, hreturn⟩ := h
  cases rest with
  | nil => rfl
  | cons c tail =>
    have hc : ¬(c = '\n' ∨ c = '\t' ∨ c = ' ') := by
      simpa [carriesOn, and_assoc] using hhead c (by simp)
    rw [splitBreaks]
    · simp [hc]
    · rintro others rfl rfl
      exact hreturn rfl others rfl

theorem splitBreaks_eq (h : splitBreaks chars = (word, rest)) :
    chars = word ++ rest ∧ Ends .newline rest ∧ ∀ others : List Char, Ends .newline others →
      splitBreaks (word ++ others) = (word, others) := by
  induction chars using splitBreaks.induct generalizing word rest with
  | case1 tail ih =>
    simp only [splitBreaks, Prod.mk.injEq] at h
    obtain ⟨rfl, rfl⟩ := h
    obtain ⟨hjoined, hends, hagain⟩ := ih rfl
    refine ⟨by simp [← hjoined], hends, fun others hothers => ?_⟩
    simp [splitBreaks, hagain others hothers]
  | case2 c tail hreturn hc ih =>
    rw [splitBreaks] at h
    · simp only [hc, if_true, Prod.mk.injEq] at h
      obtain ⟨rfl, rfl⟩ := h
      obtain ⟨hjoined, hends, hagain⟩ := ih rfl
      refine ⟨by simp [← hjoined], hends, fun others hothers => ?_⟩
      rw [List.cons_append, splitBreaks]
      · simp [hc, hagain others hothers]
      · rintro further rfl
        simp at hc
    · exact hreturn
  | case3 c tail hreturn hc =>
    rw [splitBreaks] at h
    · simp only [hc, if_false, Prod.mk.injEq] at h
      obtain ⟨rfl, rfl⟩ := h
      refine ⟨rfl, ⟨?_, ?_⟩, fun others hothers => splitBreaks_ended hothers⟩
      · simpa [carriesOn, and_assoc] using hc
      · rintro - others heq
        obtain ⟨hfirst, hsecond⟩ := List.cons.inj heq
        exact hreturn others hfirst hsecond
    · exact hreturn
  | case4 =>
    simp only [splitBreaks, Prod.mk.injEq] at h
    obtain ⟨rfl, rfl⟩ := h
    exact ⟨rfl, ⟨by simp, by simp⟩, fun others hothers => splitBreaks_ended hothers⟩

theorem splitNewline_some (h : splitNewline chars = some (word, rest)) :
    splitBreaks chars = (word, rest) ∧
      ((∃ tail, word = '\n' :: tail) ∨ ∃ tail, word = '\r' :: '\n' :: tail) := by
  unfold splitNewline at h
  split at h
  · have hbreaks := Option.some.inj h
    refine ⟨hbreaks, .inl ?_⟩
    rw [splitBreaks] at hbreaks
    · simp only [true_or, if_true, Prod.mk.injEq] at hbreaks
      exact ⟨_, hbreaks.1.symm⟩
    · simp
  · have hbreaks := Option.some.inj h
    refine ⟨hbreaks, .inr ?_⟩
    simp only [splitBreaks, Prod.mk.injEq] at hbreaks
    exact ⟨_, hbreaks.1.symm⟩
  · cases h

theorem ends_fixed (kind : Terminal) (hkind : ∀ c, carriesOn kind c = false)
    (hnewline : kind ≠ .newline) (rest : List Char) : Ends kind rest :=
  ⟨fun c _ => hkind c, fun h => absurd h hnewline⟩

theorem ends_iff_head (hnewline : kind ≠ .newline) :
    Ends kind rest ↔ ∀ c ∈ rest.head?, carriesOn kind c = false :=
  ⟨fun h => h.1, fun h => ⟨h, fun heq => absurd heq hnewline⟩⟩

theorem taken_run (hsplit : ∀ chars, split? kind chars = splitRun first (carriesOn kind) chars)
    (hnewline : kind ≠ .newline) (h : split? kind chars = some (word, rest)) :
    Taken kind chars word rest := by
  rw [hsplit] at h
  obtain ⟨hjoined, hnonempty, hended, hagain⟩ := splitRun_some h
  refine ⟨hjoined, hnonempty, (ends_iff_head hnewline).mpr hended, fun others hothers => ?_⟩
  rw [hsplit]
  exact hagain others hothers.1

theorem taken_mark (hsplit : ∀ chars, split? kind chars = splitMark mark chars)
    (hkind : ∀ c, carriesOn kind c = false) (hnewline : kind ≠ .newline)
    (h : split? kind chars = some (word, rest)) : Taken kind chars word rest := by
  rw [hsplit] at h
  obtain ⟨hjoined, rfl⟩ := splitMark_some h
  refine ⟨hjoined, by simp, ends_fixed kind hkind hnewline rest, fun others _ => ?_⟩
  rw [hsplit]
  simp [splitMark]

theorem taken_string (h : splitString chars = some (word, rest)) :
    Taken .stringLiteral chars word rest := by
  have hends := ends_fixed .stringLiteral (fun _ => rfl) (by decide)
  unfold splitString at h
  split at h
  · obtain ⟨split, hsplit, heq⟩ := Option.map_eq_some_iff.mp h
    obtain ⟨rfl, rfl⟩ := Prod.mk.inj heq
    obtain ⟨hjoined, hagain⟩ := splitQuoted_some hsplit
    refine ⟨by simp [hjoined], by simp, hends _, fun others _ => ?_⟩
    simp [split?, splitString, hagain others]
  · obtain ⟨split, hsplit, heq⟩ := Option.map_eq_some_iff.mp h
    obtain ⟨rfl, rfl⟩ := Prod.mk.inj heq
    obtain ⟨hjoined, hagain⟩ := splitQuoted_some hsplit
    refine ⟨by simp [hjoined], by simp, hends _, fun others _ => ?_⟩
    simp [split?, splitString, hagain others]
  · cases h

theorem taken_blockComment (h : splitBlockComment chars = some (word, rest)) :
    Taken .blockComment chars word rest := by
  unfold splitBlockComment at h
  split at h
  · obtain ⟨split, hsplit, heq⟩ := Option.map_eq_some_iff.mp h
    obtain ⟨rfl, rfl⟩ := Prod.mk.inj heq
    obtain ⟨hjoined, hagain⟩ := splitCommentTail_some hsplit
    refine ⟨by simp [hjoined], by simp,
      ends_fixed .blockComment (fun _ => rfl) (by decide) _, fun others _ => ?_⟩
    simp [split?, splitBlockComment, hagain others]
  · cases h

theorem taken_newline (h : splitNewline chars = some (word, rest)) :
    Taken .newline chars word rest := by
  obtain ⟨hbreaks, hword⟩ := splitNewline_some h
  obtain ⟨hjoined, hends, hagain⟩ := splitBreaks_eq hbreaks
  refine ⟨hjoined, ?_, hends, fun others hothers => ?_⟩
  · rcases hword with ⟨tail, rfl⟩ | ⟨tail, rfl⟩ <;> simp
  · have hothers := hagain others hothers
    rcases hword with ⟨tail, rfl⟩ | ⟨tail, rfl⟩
    · simpa [split?, splitNewline] using hothers
    · simpa [split?, splitNewline] using hothers

theorem splitLineComment_cons (tail : List Char) :
    splitLineComment ('/' :: '/' :: tail) =
      some ('/' :: '/' :: tail.takeWhile (carriesOn .lineComment),
        tail.dropWhile (carriesOn .lineComment)) := rfl

theorem lineComment_chars (h : splitLineComment chars = some (word, rest)) :
    ∃ tail, chars = '/' :: '/' :: tail := by
  unfold splitLineComment at h
  split at h
  · exact ⟨_, rfl⟩
  · cases h

theorem taken_lineComment (h : splitLineComment chars = some (word, rest)) :
    Taken .lineComment chars word rest := by
  obtain ⟨tail, rfl⟩ := lineComment_chars h
  -- All after the first stroke is a run that begins with the second one.
  have hrun : ∀ others : List Char,
      splitRun (· = '/') (carriesOn .lineComment) ('/' :: others) =
        some ('/' :: others.takeWhile (carriesOn .lineComment),
          others.dropWhile (carriesOn .lineComment)) := fun others => by simp [splitRun]
  rw [splitLineComment_cons, Option.some.injEq, Prod.mk.injEq] at h
  obtain ⟨rfl, rfl⟩ := h
  obtain ⟨hjoined, -, hended, hagain⟩ := splitRun_some (hrun tail)
  refine ⟨congrArg (List.cons '/') hjoined, by simp, (ends_iff_head (by decide)).mpr hended,
    fun others hothers => ?_⟩
  have hothers := hagain others hothers.1
  rw [List.cons_append, hrun, Option.some.injEq, Prod.mk.injEq, List.cons.injEq] at hothers
  simp only [split?, List.cons_append, splitLineComment_cons, hothers.1.2, hothers.2]

/-- Whatever terminal it is, a word that it took is taken again before anything that does not go on
with it. -/
theorem taken_of_split (h : split? kind chars = some (word, rest)) :
    Taken kind chars word rest := by
  cases kind with
  | stringLiteral => exact taken_string h
  | blockComment => exact taken_blockComment h
  | newline => exact taken_newline h
  | lineComment => exact taken_lineComment h
  | styleValue | propertyName | identifier | blank =>
    exact taken_run (fun _ => rfl) (by decide) h
  | endOfText => cases h
  | _ => exact taken_mark (fun _ => rfl) (fun _ => rfl) (by decide) h

theorem split?_iff : split? kind chars = some (word, rest) ↔
    chars = word ++ rest ∧ Spells kind word ∧ Ends kind rest := by
  constructor
  · intro h
    have htaken := taken_of_split h
    refine ⟨htaken.joined, ?_, htaken.ended⟩
    have hspelled := htaken.again [] ⟨by simp, by simp⟩
    rwa [List.append_nil] at hspelled
  · rintro ⟨rfl, hspells, hends⟩
    exact (taken_of_split hspells).again rest hends

end Splitting

/-- The characters that a word of a terminal can begin with. -/
def opens : Terminal → Char → Bool
  | .stringLiteral, c => c = '"' || c = '\''
  | .styleValue, c => isValueStart c
  | .blockComment, c | .lineComment, c => c = '/'
  | .propertyName, c | .identifier, c => isWordStart c
  | .newline, c => c = '\n' || c = '\r'
  | .blank, c => isBlankChar c
  | kind, c => kind.mark? = some c

/-- The terminals that are tried before one. -/
def triedBefore (kind : Terminal) : List Terminal :=
  Terminal.lexical.takeWhile (· ≠ kind)

section FirstMatch

variable {kind other : Terminal} {c : Char} {chars word rest : List Char}
  {allowed : Terminal → Bool} {found : Match}

theorem split?_closed (h : opens kind c = false) : split? kind (c :: chars) = none := by
  cases kind with
  | stringLiteral =>
    simp only [opens, Bool.or_eq_false_iff, decide_eq_false_iff_not] at h
    unfold split? splitString
    split <;> simp_all
  | styleValue | propertyName | identifier | blank =>
    simp only [opens] at h
    simp [split?, splitRun, h]
  | blockComment =>
    simp only [opens, decide_eq_false_iff_not] at h
    unfold split? splitBlockComment
    split <;> simp_all
  | lineComment =>
    simp only [opens, decide_eq_false_iff_not] at h
    unfold split? splitLineComment
    split <;> simp_all
  | newline =>
    simp only [opens, Bool.or_eq_false_iff, decide_eq_false_iff_not] at h
    unfold split? splitNewline
    split <;> simp_all
  | endOfText => rfl
  | _ =>
    simp only [opens, Terminal.mark?, Option.some.injEq, decide_eq_false_iff_not] at h
    simp [split?, Terminal.mark?, splitMark, Ne.symm h]

theorem opens_of_split (h : split? kind (c :: chars) = some (word, rest)) :
    opens kind c = true := by
  by_contra hclosed
  rw [split?_closed (by simpa using hclosed)] at h
  cases h

/-- Whether a word of the second terminal could be taken for one of the first. -/
def overlaps : Terminal → Terminal → Bool
  | .styleValue, _ => true
  | .blockComment, .lineComment => true
  | .propertyName, .identifier => true
  | .newline, .blank => true
  | _, _ => false

/-- The characters that are not in names and open words all the same. -/
def signs : List Char :=
  ['"', '\'', '/', '\n', '\r', '\t', ' ', '\x0c', '@', ':', ',', '.', '=', '#', '%', ';', '\x7b', '(',
   '[', '\x7d', ')', ']']

theorem signs_apart : (signs.all fun c => Terminal.lexical.all fun kind =>
    !opens kind c || (triedBefore kind).all fun other =>
      !opens other c || overlaps other kind) = true := by
  decide +kernel

theorem opens_of_not_sign (hc : c ∉ signs) (h : opens kind c = true) :
    kind = .styleValue ∨ kind = .propertyName ∨ kind = .identifier := by
  cases kind with
  | styleValue | propertyName | identifier => simp
  | endOfText => simp [opens, Terminal.mark?] at h
  | _ =>
    refine absurd ?_ hc
    simp only [opens, isBlankChar, Terminal.mark?, Bool.or_eq_true, decide_eq_true_eq,
      Option.some.injEq] at h
    simp only [signs, List.mem_cons]
    grind

theorem mem_lexical_of_opens (h : opens kind c = true) : kind ∈ Terminal.lexical := by
  cases kind with
  | endOfText => simp [opens, Terminal.mark?] at h
  | _ => decide

/-- A word can only be taken for one of a terminal that is tried before its own if that is a value,
or if the two are two sorts of comments, names or blanks. -/
theorem overlaps_of_opens (hbefore : other ∈ triedBefore kind) (hother : opens other c = true)
    (hkind : opens kind c = true) : overlaps other kind = true := by
  by_cases hc : c ∈ signs
  · have happart := signs_apart
    simp only [List.all_eq_true, Bool.or_eq_true, Bool.not_eq_true'] at happart
    have hothers := (happart c hc kind (mem_lexical_of_opens hkind)).resolve_left (by simp [hkind])
    exact (hothers other hbefore).resolve_left (by simp [hother])
  · rcases opens_of_not_sign hc hother with rfl | rfl | rfl
    · rfl
    · rcases opens_of_not_sign hc hkind with rfl | rfl | rfl
      · simp [triedBefore, Terminal.lexical] at hbefore
      · simp [triedBefore, Terminal.lexical] at hbefore
      · rfl
    · rcases opens_of_not_sign hc hkind with rfl | rfl | rfl <;>
        simp [triedBefore, Terminal.lexical] at hbefore

theorem mem_lexical (h : split? kind chars ≠ none) : kind ∈ Terminal.lexical := by
  cases kind with
  | endOfText => exact absurd rfl h
  | _ => decide

theorem triedBefore_eq {before after : List Terminal}
    (hlexical : Terminal.lexical = before ++ kind :: after) (hkind : kind ∉ before) :
    triedBefore kind = before := by
  have hall : ∀ other ∈ before, decide (other ≠ kind) = true := by
    intro other hother
    rw [decide_eq_true_eq]
    rintro rfl
    exact hkind hother
  unfold triedBefore
  rw [hlexical, List.takeWhile_append_of_pos hall]
  simp

/-- The first terminal that matches is allowed, and none that is allowed matches before. -/
theorem firstMatch?_iff : firstMatch? allowed chars = some found ↔
    allowed found.kind = true ∧ split? found.kind chars = some (found.word, found.rest) ∧
      ∀ other ∈ triedBefore found.kind, allowed other = true → split? other chars = none := by
  unfold firstMatch?
  rw [List.findSome?_eq_some_iff]
  constructor
  · rintro ⟨before, kind, after, hlexical, hfound, hnone⟩
    have hkind : kind ∉ before := by
      have hnodup : Terminal.lexical.Nodup := by decide
      rw [hlexical, List.nodup_append] at hnodup
      intro hin
      exact hnodup.2.2 kind hin kind (by simp) rfl
    by_cases hallowed : allowed kind = true
    · rw [if_pos hallowed] at hfound
      obtain ⟨split, hsplit, rfl⟩ := Option.map_eq_some_iff.mp hfound
      refine ⟨hallowed, hsplit, fun other hother hother' => ?_⟩
      rw [triedBefore_eq hlexical hkind] at hother
      simpa [hother'] using hnone other hother
    · simp [hallowed] at hfound
  · rintro ⟨hallowed, hsplit, hnone⟩
    have hsome : split? found.kind chars ≠ none := by simp [hsplit]
    have hin := mem_lexical hsome
    obtain ⟨before, after, hlexical, hkind⟩ := List.eq_append_cons_of_mem hin
    refine ⟨before, found.kind, after, hlexical, by simp [hallowed, hsplit], ?_⟩
    intro other hother
    by_cases hallowed' : allowed other = true
    · rw [← triedBefore_eq hlexical hkind] at hother
      simp [hallowed', hnone other hother hallowed']
    · simp [hallowed']

/-- A spelled word is found if none of the terminals tried before it takes it for one of theirs. -/
theorem firstMatch?_spelled (hallowed : allowed kind = true) (hspells : Spells kind word)
    (hends : Ends kind rest)
    (hothers : ∀ other, overlaps other kind = true → allowed other = true →
      other ∈ triedBefore kind → split? other (word ++ rest) = none) :
    firstMatch? allowed (word ++ rest) = some ⟨kind, word, rest⟩ := by
  have hsplit := split?_iff.mpr ⟨rfl, hspells, hends⟩
  refine firstMatch?_iff.mpr ⟨hallowed, hsplit, fun other hother hother' => ?_⟩
  obtain ⟨c, tail, hchars⟩ : ∃ c tail, word ++ rest = c :: tail :=
    List.exists_cons_of_ne_nil (by simp [(taken_of_split hspells).nonempty])
  by_cases hopens : opens other c = true
  · rw [hchars] at hsplit
    have hoverlaps := overlaps_of_opens hother hopens (opens_of_split hsplit)
    exact hothers other hoverlaps hother' hother
  · rw [hchars]
    exact split?_closed (by simpa using hopens)

/-- A word that was found is found again before what does not go on with it. -/
theorem firstMatch?_again (h : firstMatch? allowed chars = some found)
    (hends : Ends found.kind rest)
    (hbreak : found.kind = .blank → splitNewline (found.word ++ rest) = none) :
    firstMatch? allowed (found.word ++ rest) = some ⟨found.kind, found.word, rest⟩ := by
  obtain ⟨hallowed, hsplit, hnone⟩ := firstMatch?_iff.mp h
  obtain ⟨hjoined, hspells, -⟩ := split?_iff.mp hsplit
  refine firstMatch?_spelled hallowed hspells hends fun other hoverlaps hother hbefore => ?_
  have hfailed := hnone other hbefore hother
  obtain ⟨c, tail, hword⟩ : ∃ c tail, found.word = c :: tail :=
    List.exists_cons_of_ne_nil (taken_of_split hspells).nonempty
  rw [hjoined, hword] at hfailed
  unfold overlaps at hoverlaps
  split at hoverlaps
  -- A run is taken or not because of its first character alone.
  · simp only [List.cons_append, split?, splitRun] at hfailed
    split at hfailed
    · cases hfailed
    · rename_i hfirst
      simp [hword, split?, splitRun, hfirst]
  · rename_i hkind
    rw [hkind] at hspells
    obtain ⟨further, hslashes⟩ := lineComment_chars hspells
    simp [hslashes, split?, splitBlockComment]
  · simp only [List.cons_append, split?, splitRun] at hfailed
    split at hfailed
    · cases hfailed
    · rename_i hfirst
      simp [hword, split?, splitRun, hfirst]
  · rename_i hkind
    exact hbreak hkind
  · cases hoverlaps

end FirstMatch

end RecipeGraph.Source
