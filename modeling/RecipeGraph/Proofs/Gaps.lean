import Mathlib.Data.List.TakeWhile
import RecipeGraph.Proofs.ReadingSteps

/-!
What lies between the words of a text. Blanks and line breaks are found in every state of the
automaton. Where line breaks mean nothing, a stretch of both is passed over as a whole, in however
many steps. And words are found again if only something behind them is exchanged.
-/
namespace RecipeGraph.Source

open Grammar Relation

/-- Characters that blanks and line breaks are made of. -/
def isWhite (c : Char) : Bool :=
  isBlankChar c || c = '\n'

/-- Characters begin with a stretch of some sort that is as long as it can be. -/
theorem exists_stretch (sort : Char → Bool) (chars : List Char) :
    ∃ stretch rest, chars = stretch ++ rest ∧ (∀ c ∈ stretch, sort c = true) ∧
      ∀ c ∈ rest.head?, sort c = false := by
  refine ⟨chars.takeWhile sort, chars.dropWhile sort, List.takeWhile_append_dropWhile.symm,
    fun c hc => List.all_eq_true.mp List.all_takeWhile c hc, fun c hc => ?_⟩
  have hnot := List.head?_dropWhile_not sort chars
  rw [Option.mem_def] at hc
  simpa [hc] using hnot

theorem Brackets.pass_white {kind : Terminal} (h : kind = .blank ∨ kind = .newline)
    (brackets : Brackets) : brackets.pass kind = brackets := by
  cases brackets with
  | nil => rcases h with rfl | rfl <;> rfl
  | cons opener outer => rcases h with rfl | rfl <;> cases opener <;> rfl

section White

variable {kind : Terminal} {c : Char} {chars word rest : List Char}

theorem isWhite_cases (h : isWhite c = true) :
    c = '\t' ∨ c = ' ' ∨ c = '\x0c' ∨ c = '\r' ∨ c = '\n' := by
  simpa [isWhite, isBlankChar, or_assoc] using h

theorem opens_white (hc : isWhite c = true) (h : opens kind c = true) :
    kind = .blank ∨ kind = .newline := by
  have hclosed : (['\t', ' ', '\x0c', '\r', '\n'].all fun c => Terminal.lexical.all fun kind =>
      !opens kind c || kind = .blank || kind = .newline) = true := by
    decide +kernel
  simp only [List.all_eq_true, Bool.or_eq_true, Bool.not_eq_true', decide_eq_true_eq] at hclosed
  have hin : c ∈ ['\t', ' ', '\x0c', '\r', '\n'] := by simpa using isWhite_cases hc
  rcases hclosed c hin kind (mem_lexical_of_opens h) with (hnot | hblank) | hnewline
  · rw [h] at hnot
    cases hnot
  · exact .inl hblank
  · exact .inr hnewline

theorem carriesOn_white (hc : isWhite c = true) (h : carriesOn kind c = true) :
    kind = .blank ∨ kind = .newline ∨ kind = .lineComment := by
  have hclosed : (['\t', ' ', '\x0c', '\r', '\n'].all fun c => Terminal.lexical.all fun kind =>
      !carriesOn kind c || [.blank, .newline, .lineComment].contains kind) = true := by
    decide +kernel
  simp only [List.all_eq_true, Bool.or_eq_true, Bool.not_eq_true', List.contains_iff_mem]
    at hclosed
  have hin : c ∈ ['\t', ' ', '\x0c', '\r', '\n'] := by simpa using isWhite_cases hc
  have hkind : kind ∈ Terminal.lexical := by
    cases kind with
    | endOfText => cases h
    | _ => decide
  rcases hclosed c hin kind hkind with hnot | hkinds
  · rw [h] at hnot
    cases hnot
  · simpa using hkinds

theorem blank_chars (h : split? .blank chars = some (word, rest)) :
    ∀ c ∈ word, isBlankChar c = true := by
  cases chars with
  | nil => cases h
  | cons c tail =>
    simp only [split?, splitRun] at h
    split at h
    · rename_i hc
      simp only [Option.some.injEq, Prod.mk.injEq] at h
      rw [← h.1, List.forall_mem_cons]
      exact ⟨hc, fun d hd => List.all_eq_true.mp List.all_takeWhile d hd⟩
    · cases h

theorem splitBreaks_white (chars : List Char) : ∀ c ∈ (splitBreaks chars).1, isWhite c = true := by
  induction chars using splitBreaks.induct with
  | case1 tail ih => simpa [splitBreaks, isWhite, isBlankChar] using ih
  | case2 c tail hreturn hc ih =>
    rw [splitBreaks]
    · simp only [hc, if_true, List.forall_mem_cons]
      refine ⟨?_, ih⟩
      rcases hc with rfl | rfl | rfl <;> decide
    · exact hreturn
  | case3 c tail hreturn hc =>
    rw [splitBreaks]
    · simp [hc]
    · exact hreturn
  | case4 => simp [splitBreaks]

theorem newline_chars (h : split? .newline chars = some (word, rest)) :
    ∀ c ∈ word, isWhite c = true := by
  have hbreaks := splitBreaks_white chars
  rw [(splitNewline_some h).1] at hbreaks
  exact hbreaks

theorem blank_white (h : isBlankChar c = true) : isWhite c = true := by
  simp [isWhite, h]

/-- Blanks with nothing but blanks before the next word are no line break. -/
theorem splitNewline_blank (hblank : ∀ c ∈ word, isBlankChar c = true) (hword : word ≠ [])
    (hreturn : word = ['\r'] → rest.head? ≠ some '\n') : splitNewline (word ++ rest) = none := by
  have hfeed : ∀ c ∈ word, c ≠ '\n' := by
    rintro c hc rfl
    exact absurd (hblank '\n' hc) (by decide)
  unfold splitNewline
  split
  · rename_i tail heq
    cases word with
    | nil => exact absurd rfl hword
    | cons c others =>
      exact absurd (List.cons.inj heq).1 (hfeed c (by simp))
  · rename_i tail heq
    match word, hword with
    | [c], _ =>
      obtain ⟨rfl, hrest⟩ := List.cons.inj heq
      have hhead : rest.head? = some '\n' := by
        rw [show rest = '\n' :: tail from hrest]
        rfl
      exact absurd hhead (hreturn rfl)
    | c :: d :: others, _ =>
      exact absurd (List.cons.inj (List.cons.inj heq).2).1 (hfeed d (by simp))
  · rfl

end White

namespace Reader

section Found

variable {reader : Reader} {found : Match} {chars word rest : List Char}

theorem found?_newline (h : splitNewline reader.cursor.rest = some (word, rest)) :
    reader.found? = some ⟨.newline, word, rest⟩ := by
  have hsplit : split? .newline reader.cursor.rest = some (word, rest) := h
  obtain ⟨hjoined, hspells, hends⟩ := split?_iff.mp hsplit
  unfold found?
  rw [hjoined]
  refine firstMatch?_spelled (by simp [allows, awaits]) hspells hends
    fun other hoverlaps _ hbefore => ?_
  obtain ⟨c, tail, hword⟩ := List.exists_cons_of_ne_nil (taken_of_split hspells).nonempty
  have hwhite : isWhite c = true := newline_chars hspells c (by simp [hword])
  rw [hword, List.cons_append]
  refine split?_closed ?_
  by_contra hopens
  rw [Bool.not_eq_false] at hopens
  rcases opens_white hwhite hopens with rfl | rfl
  · cases hoverlaps
  · exact absurd hbefore (by decide)

theorem found?_blank (hrest : reader.cursor.rest = word ++ rest) (hword : word ≠ [])
    (hblank : ∀ c ∈ word, isBlankChar c = true)
    (hends : ∀ c ∈ rest.head?, isBlankChar c = false)
    (hreturn : word = ['\r'] → rest.head? ≠ some '\n') :
    reader.found? = some ⟨.blank, word, rest⟩ := by
  obtain ⟨c, tail, rfl⟩ := List.exists_cons_of_ne_nil hword
  rw [List.forall_mem_cons] at hblank
  have hspells : Spells .blank (c :: tail) := by
    have htake : tail.takeWhile isBlankChar = tail := List.takeWhile_eq_self_iff.mpr hblank.2
    have hdrop : tail.dropWhile isBlankChar = [] := List.dropWhile_eq_nil_iff.mpr hblank.2
    simp [Spells, split?, splitRun, hblank.1, htake, hdrop]
  unfold found?
  rw [hrest]
  refine firstMatch?_spelled (by simp [allows, Terminal.isSkipped]) hspells
    ((ends_iff_head (by decide)).mpr hends) fun other hoverlaps _ hbefore => ?_
  by_cases hopens : opens other c = true
  · rcases opens_white (blank_white hblank.1) hopens with rfl | rfl
    · exact absurd hbefore (by decide)
    · exact splitNewline_blank (List.forall_mem_cons.mpr hblank) hword hreturn
  · exact split?_closed (by simpa using hopens)

/-- A word that begins with a blank or a line break is one. -/
theorem kind_of_white (h : reader.found? = some found)
    (hwhite : ∀ c ∈ found.word.head?, isWhite c = true) :
    found.kind = .blank ∨ found.kind = .newline := by
  have hsplit := (firstMatch?_iff.mp h).2.1
  have htaken := taken_of_split hsplit
  obtain ⟨c, tail, hword⟩ := List.exists_cons_of_ne_nil htaken.nonempty
  rw [htaken.joined, hword] at hsplit
  exact opens_white (hwhite c (by simp [hword])) (opens_of_split hsplit)

theorem white_of_kind (h : reader.found? = some found)
    (hkind : found.kind = .blank ∨ found.kind = .newline) :
    ∀ c ∈ found.word, isWhite c = true := by
  have hsplit := (firstMatch?_iff.mp h).2.1
  rcases hkind with hkind | hkind
  · rw [hkind] at hsplit
    exact fun c hc => blank_white (blank_chars hsplit c hc)
  · rw [hkind] at hsplit
    exact newline_chars hsplit

end Found

section Steps

variable {reader other next last : Reader} {found : Match} {chars rest more : List Char}

theorem moves_unique (h : reader.Moves next) (h' : reader.Moves other) : next = other :=
  Progress.next.inj (h.symm.trans h')

/-- Steps that lead to the end pass through whatever some of them lead to. -/
theorem steps_through (hsteps : ReflTransGen Moves reader last)
    (hnext : ReflTransGen Moves reader next) (hlast : last.cursor.rest = []) :
    ReflTransGen Moves next last := by
  have hunique : Relator.RightUnique Moves := fun _ _ _ h h' => moves_unique h h'
  rcases ReflTransGen.total_of_right_unique hunique hnext hsteps with
    hthrough | hbeyond
  · exact hthrough
  · rcases hbeyond.cases_head with rfl | ⟨middle, hmoves, -⟩
    · exact .refl
    · have hshorter := hmoves.shorter
      simp [hlast] at hshorter

/-- What is ahead ends with what is ahead later on. -/
theorem rest_of_steps (h : ReflTransGen Moves reader next) :
    ∃ chars, reader.cursor.rest = chars ++ next.cursor.rest ∧
      next.cursor.offset = reader.cursor.offset + chars.length := by
  induction h with
  | refl => exact ⟨[], rfl, rfl⟩
  | tail _ hmoves ih =>
    obtain ⟨chars, hrest, hoffset⟩ := ih
    obtain ⟨found, hfound, hstep⟩ := hmoves.finds
    refine ⟨chars ++ found.word, ?_, ?_⟩
    · rw [hstep.rest, hrest, (found?_taken hfound).joined, List.append_assoc]
    · rw [hstep.cursor, List.length_append, ← Nat.add_assoc, ← hoffset]
      rfl

/-- No bracket opens or closes over blanks and line breaks. -/
theorem brackets_of_white (h : ReflTransGen Moves reader next)
    (hrest : reader.cursor.rest = chars ++ next.cursor.rest)
    (hwhite : ∀ c ∈ chars, isWhite c = true) : next.brackets = reader.brackets := by
  induction h using ReflTransGen.head_induction_on generalizing chars with
  | refl => rfl
  | head hmoves hsteps ih =>
    obtain ⟨found, hfound, hstep⟩ := hmoves.finds
    obtain ⟨others, hothers, -⟩ := rest_of_steps hsteps
    have htaken := found?_taken hfound
    have hchars : chars = found.word ++ others := by
      rw [htaken.joined, ← hstep.rest, hothers, ← List.append_assoc] at hrest
      exact (List.append_cancel_right hrest).symm
    rw [hchars, List.forall_mem_append] at hwhite
    have hkind := kind_of_white hfound fun c hc => hwhite.1 c (List.mem_of_mem_head? hc)
    rw [ih hothers hwhite.2]
    cases hstep with
    | passing _ => rfl
    | handing _ _ =>
      exact Brackets.pass_white hkind _

/-- A white word ends within a white stretch. -/
theorem white_split {word rest' : List Char} (hsame : word ++ rest' = chars ++ rest)
    (hword : ∀ c ∈ word, isWhite c = true) (hends : ∀ c ∈ rest.head?, isWhite c = false) :
    ∃ others, chars = word ++ others ∧ rest' = others ++ rest := by
  rcases List.append_eq_append_iff.mp hsame with ⟨others, hchars, hrest⟩ | ⟨others, hwords, hrest⟩
  · exact ⟨others, hchars, hrest⟩
  · cases others with
    | nil => exact ⟨[], by simpa using hwords.symm, hrest.symm⟩
    | cons c tail =>
      have hwhite := hword c (by simp [hwords])
      rw [hends c (by simp [hrest])] at hwhite
      cases hwhite

/-- Where line breaks mean nothing, a blank or a line break is next at every white character. -/
theorem found?_white (hhides : reader.brackets.hidesBreaks = true) {c : Char}
    (hrest : reader.cursor.rest = c :: more) (hwhite : isWhite c = true) :
    ∃ found, reader.found? = some found ∧ (∀ c ∈ found.word, isWhite c = true) ∧
      reader.passesOver found.kind = true := by
  cases hbreak : splitNewline reader.cursor.rest with
  | some split =>
    refine ⟨_, found?_newline hbreak, newline_chars (show split? .newline _ = _ from hbreak), ?_⟩
    simp [passesOver, Brackets.drops, hhides]
  | none =>
    have hblank : isBlankChar c = true := by
      rcases isWhite_cases hwhite with rfl | rfl | rfl | rfl | rfl <;> try rfl
      simp [hrest, splitNewline] at hbreak
    obtain ⟨blanks, rest, hjoined, hblanks, hends⟩ :=
      exists_stretch isBlankChar reader.cursor.rest
    refine ⟨_, found?_blank hjoined ?_ hblanks hends ?_, fun c hc => blank_white (hblanks c hc),
      rfl⟩
    · rintro rfl
      rw [← List.nil_append rest, ← hjoined, hrest] at hends
      rw [hends c (by simp)] at hblank
      cases hblank
    · rintro rfl hfeed
      obtain ⟨tail, htail⟩ := List.head?_eq_some_iff.mp hfeed
      rw [hjoined, htail] at hbreak
      cases hbreak

/-- Where line breaks mean nothing, a stretch of blanks and line breaks is passed over. -/
theorem skip_white (hhides : reader.brackets.hidesBreaks = true)
    (hrest : reader.cursor.rest = chars ++ rest) (hwhite : ∀ c ∈ chars, isWhite c = true)
    (hends : ∀ c ∈ rest.head?, isWhite c = false) :
    ∃ next, ReflTransGen Moves reader next ∧ next.cursor.rest = rest ∧
      next.cursor.offset = reader.cursor.offset + chars.length ∧
      next.stack = reader.stack ∧ next.brackets = reader.brackets := by
  induction hlength : chars.length using Nat.strongRecOn generalizing reader chars with
  | _ length ih =>
    cases chars with
    | nil => exact ⟨reader, .refl, hrest, by simp [← hlength], rfl, rfl⟩
    | cons c tail =>
      obtain ⟨found, hfound, hword, hpass⟩ := found?_white hhides hrest (hwhite c (by simp))
      have htaken := found?_taken hfound
      obtain ⟨others, hchars, hothers⟩ :=
        white_split (htaken.joined.symm.trans hrest) hword hends
      have hshorter : others.length < length := by
        have hnonempty := List.length_pos_iff.mpr htaken.nonempty
        rw [← hlength, hchars, List.length_append]
        omega
      have hpassed : (reader.passing found).brackets.hidesBreaks = true := hhides
      obtain ⟨next, hsteps, hnext, hoffset, hstack, hbrackets⟩ :=
        ih _ hshorter hpassed hothers (fun c hc => hwhite c (by simp [hchars, hc])) rfl
      refine ⟨next, hsteps.head (StepTo.moves hfound (.passing hpass)), hnext, ?_, hstack,
        hbrackets⟩
      rw [hoffset, ← hlength, hchars, List.length_append, ← Nat.add_assoc]
      rfl

end Steps

end Reader

section Exchanged

variable {kind : Terminal} {word tail tail' : List Char}

/-- Nothing goes on with a word after an exchange further on, unless that makes a line break. -/
theorem Ends.exchange {more : List Char} (h : Ends kind (more ++ tail)) (hmore : more ≠ [])
    (hreturn : kind = .newline → more = ['\r'] → tail'.head? ≠ some '\n') :
    Ends kind (more ++ tail') := by
  obtain ⟨hhead, hbreak⟩ := h
  match more, hmore with
  | [c], _ =>
    refine ⟨hhead, fun hkind others heq => ?_⟩
    obtain ⟨rfl, htail⟩ := List.cons.inj heq
    exact hreturn hkind rfl (by rw [show tail' = '\n' :: others from htail]; rfl)
  | c :: d :: others, _ =>
    refine ⟨hhead, fun hkind rest heq => ?_⟩
    obtain ⟨rfl, hrest⟩ := List.cons.inj heq
    obtain ⟨rfl, -⟩ := List.cons.inj hrest
    exact hbreak hkind (others ++ tail) rfl

/-- Whether a line break begins somewhere shows by the first two characters. -/
theorem splitNewline_exchange {c d : Char} {rest : List Char}
    (h : splitNewline (c :: d :: tail) = none) : splitNewline (c :: d :: rest) = none := by
  unfold splitNewline at h ⊢
  split <;> simp_all

end Exchanged

/-- The reader finds a comment that runs to the end of its line, up to the index. -/
def Reader.commentsUpTo (reader : Reader) (index : Nat) : Bool :=
  match reader.found? with
  | some found =>
      found.kind = .lineComment && reader.cursor.offset + found.word.length = index
  | none => false

/-- A comment that runs to the end of its line ends at the index. -/
def isBehindComment (text : String) (index : Nat) : Bool :=
  (course text).any (·.commentsUpTo index)

section Behind

variable {reader : Reader} {found : Match} {chars rest : List Char}

/-- Behind no comment no reader finds one up to that place. -/
theorem kind_of_not_behind {text : String} (htext : text.toList = chars ++ rest)
    (hclear : isBehindComment text chars.length = false)
    (hreached : ReflTransGen Reader.Moves (Reader.start text) reader)
    (hfound : reader.found? = some found) (hrest : reader.cursor.rest = found.word ++ rest) :
    found.kind ≠ .lineComment := by
  intro hkind
  obtain ⟨front, hfront, hoffset⟩ := (stands_of_steps hreached).place
  have hchars : chars = front ++ found.word := by
    rw [htext, hrest, ← List.append_assoc] at hfront
    exact List.append_cancel_right hfront
  refine absurd ?_ (List.any_eq_false.mp hclear reader (mem_course.mpr hreached))
  unfold Reader.commentsUpTo
  rw [hfound]
  simp [hkind, hchars, hoffset]

end Behind

section Along

variable {label : Token → Token} {reader other next : Reader} {found : Match}
  {more tail tail' : List Char}

/-- Readers that have read the same step on together over a word that neither of them goes on
with. -/
theorem Peers.again (hlabel : KeepsKind label) (hsteady : Steady label)
    (h : Peers label reader other) (hmoves : reader.Moves next)
    (hfound : reader.found? = some found)
    (hrest : other.cursor.rest = found.word ++ tail) (hends : Ends found.kind tail)
    (hbreak : found.kind = .blank → splitNewline (found.word ++ tail) = none) :
    ∃ next', other.Moves next' ∧ next'.cursor.rest = tail ∧ Peers label next next' :=
  h.moves hlabel hfound (h.found? hfound hrest hends hbreak) rfl
    (h.level found.kind found.word) (hsteady _ _ _ _ rfl h.level) hmoves

/-- Readers that have read the same step on together over a word that something is exchanged
behind, but not right behind it. -/
theorem Peers.along (hlabel : KeepsKind label) (hsteady : Steady label)
    (h : Peers label reader other) (hmoves : reader.Moves next)
    (hfound : reader.found? = some found)
    (hrest : reader.cursor.rest = found.word ++ (more ++ tail))
    (hrest' : other.cursor.rest = found.word ++ (more ++ tail')) (hmore : more ≠ [])
    (hreturn : found.kind = .newline → more = ['\r'] → tail'.head? ≠ some '\n') :
    ∃ next', other.Moves next' ∧ next'.cursor.rest = more ++ tail' ∧ Peers label next next' := by
  have htaken := Reader.found?_taken hfound
  have hjoined : found.rest = more ++ tail :=
    List.append_cancel_left (htaken.joined.symm.trans hrest)
  have hends := htaken.ended
  rw [hjoined] at hends
  have hbreak : found.kind = .blank → splitNewline (found.word ++ (more ++ tail')) = none := by
    intro hkind
    have hnone := (firstMatch?_iff.mp hfound).2.2 .newline (by rw [hkind]; decide)
      (by simp [Reader.allows, Reader.awaits])
    obtain ⟨c, others, hword⟩ := List.exists_cons_of_ne_nil htaken.nonempty
    obtain ⟨d, further, rfl⟩ := List.exists_cons_of_ne_nil hmore
    rw [hrest, hword] at hnone
    rw [hword]
    cases others with
    | nil => exact splitNewline_exchange hnone
    | cons e others => exact splitNewline_exchange hnone
  exact h.again hlabel hsteady hmoves hfound hrest' (hends.exchange hmore hreturn) hbreak

end Along

/-- Two readers come to places where they have read the same, and have the same ahead. -/
def Meet (label : Token → Token) (reader other : Reader) : Prop :=
  ∃ next next', ReflTransGen Reader.Moves reader next ∧ ReflTransGen Reader.Moves other next' ∧
    Peers label next next' ∧ next.cursor.rest = next'.cursor.rest

section Meet

variable {label : Token → Token} {reader other next next' : Reader}

theorem Peers.meet (h : Peers label reader other)
    (hrest : reader.cursor.rest = other.cursor.rest) : Meet label reader other :=
  ⟨reader, other, .refl, .refl, h, hrest⟩

theorem Meet.further (h : Meet label next next') (hsteps : ReflTransGen Reader.Moves reader next)
    (hsteps' : ReflTransGen Reader.Moves other next') : Meet label reader other := by
  obtain ⟨place, place', hplace, hplace', hpeers⟩ := h
  exact ⟨place, place', hsteps.trans hplace, hsteps'.trans hplace', hpeers⟩

theorem Meet.step (h : Meet label next next') (hmoves : reader.Moves next)
    (hmoves' : other.Moves next') : Meet label reader other :=
  h.further (.single hmoves) (.single hmoves')

/-- Only one of the readers has to step on. -/
theorem Meet.behind (h : Meet label reader next') (hmoves' : other.Moves next') :
    Meet label reader other :=
  h.further .refl (.single hmoves')

/-- Texts whose readers meet are read as the same, but for the change of words. -/
theorem Meet.derive {text text' : String} {derivation : Derivation} (hlabel : KeepsKind label)
    (hsteady : Steady label) (hmeet : Meet label (Reader.start text) (Reader.start text'))
    (h : derive text = .ok derivation) :
    ∃ derivation', derive text' = .ok derivation' ∧
      derivation.relabel label = derivation'.relabel label := by
  obtain ⟨last, hsteps, hend, hfed⟩ := derive_iff.mp h
  obtain ⟨next, next', hnext, hnext', hpeers, hahead⟩ := hmeet
  have hon := Reader.steps_through hsteps hnext hend
  obtain ⟨last', derivation', hsteps', hend', hfed', hsame⟩ :=
    hpeers.finish hlabel hsteady hahead hon hend hfed
  exact ⟨derivation', derive_iff.mpr ⟨last', hnext'.trans hsteps', hend', hfed'⟩, hsame⟩

end Meet

end RecipeGraph.Source
