import Mathlib.Data.List.Infix
import RecipeGraph.Proofs.Building
import RecipeGraph.Proofs.Gaps

/-!
Comments between words. A comment that is put in between two words, with a blank on each side, is
passed over, and the blanks are taken together with blanks and line breaks next to them. This does
not hold where the value of a property is awaited: there the comment is taken for the value.
-/
namespace RecipeGraph.Source

open Grammar Recipe Relation

section Spelling

variable {body word rest : List Char}

theorem splitCommentTail_body (h : ¬ ['*', '/'] <:+: body) :
    splitCommentTail (body ++ '*' :: '/' :: rest) = some (body ++ ['*', '/'], rest) := by
  induction body with
  | nil => simp [splitCommentTail]
  | cons c tail ih =>
    have hopen : ∀ others : List Char, c = '*' → tail ++ '*' :: '/' :: rest = '/' :: others →
        False := by
      rintro others rfl heq
      cases tail with
      | nil => simp at heq
      | cons d tail =>
        obtain ⟨rfl, -⟩ := List.cons.inj heq
        exact h ⟨[], tail, rfl⟩
    rw [List.cons_append, splitCommentTail_cons hopen,
      ih fun hfound => h (hfound.trans (List.suffix_cons c tail).isInfix)]
    rfl

/-- One more blank belongs to a line break. -/
theorem splitBreaks_blank (h : splitBreaks word = (word, [])) :
    splitBreaks (word ++ [' ']) = (word ++ [' '], []) := by
  induction word using splitBreaks.induct with
  | case1 tail ih =>
    simp only [splitBreaks, Prod.mk.injEq, List.cons.injEq, true_and] at h
    simp [splitBreaks, ih (Prod.ext h.1 h.2)]
  | case2 c tail hreturn hc ih =>
    have hrest : ∀ tail' : List Char, c = '\r' → tail ++ [' '] = '\n' :: tail' → False := by
      rintro tail' rfl
      simp at hc
    rw [splitBreaks] at h
    · simp only [hc, if_true, Prod.mk.injEq, List.cons.injEq, true_and] at h
      rw [List.cons_append, splitBreaks]
      · simp [hc, ih (Prod.ext h.1 h.2)]
      · exact hrest
    · exact hreturn
  | case3 c tail hreturn hc =>
    rw [splitBreaks] at h
    · simp [hc] at h
    · exact hreturn
  | case4 => simp [splitBreaks]

theorem spells_newline_blank (h : Spells .newline word) : Spells .newline (word ++ [' ']) := by
  obtain ⟨hbreaks, hword⟩ := splitNewline_some h
  have hblank := splitBreaks_blank hbreaks
  rcases hword with ⟨tail, rfl⟩ | ⟨tail, rfl⟩
  · exact congrArg some hblank
  · exact congrArg some hblank

/-- A comment that runs to the end of its line takes in what is put behind it on that line. -/
theorem spells_lineComment_more (h : Spells .lineComment word) (hline : '\n' ∉ rest) :
    Spells .lineComment (word ++ rest) := by
  obtain ⟨tail, rfl⟩ := lineComment_chars h
  simp only [Spells, split?, splitLineComment_cons, Option.some.injEq, Prod.mk.injEq,
    List.dropWhile_eq_nil_iff] at h
  have hall : ∀ c ∈ tail ++ rest, carriesOn .lineComment c = true := by
    rw [List.forall_mem_append]
    refine ⟨h.2, fun c hc => ?_⟩
    simp only [carriesOn, ne_eq, decide_eq_true_eq]
    rintro rfl
    exact hline hc
  simp only [Spells, split?, List.cons_append, splitLineComment_cons,
    List.takeWhile_eq_self_iff.mpr hall, List.dropWhile_eq_nil_iff.mpr hall]

end Spelling

/-- A word begins or ends at the index. -/
def isBoundary (text : String) (index : Nat) : Bool :=
  (course text).any (·.cursor.offset = index)

/-- The value of a property is awaited at the index. -/
def awaitsValue (text : String) (index : Nat) : Bool :=
  (course text).any fun reader =>
    reader.cursor.offset = index && Reader.awaits reader.stack.state .styleValue

/-- A comment with that body, between blanks. -/
def commentary (body : List Char) : List Char :=
  ' ' :: '/' :: '*' :: body ++ ['*', '/', ' ']

theorem commentary_append (body after : List Char) : commentary body ++ after =
    [' '] ++ ('/' :: '*' :: (body ++ '*' :: '/' :: ' ' :: after)) := by
  simp [commentary]

namespace Reader

section Found

variable {reader : Reader} {body rest : List Char}

/-- Where no value of a property is awaited a comment is found. -/
theorem found?_comment (hvalue : awaits reader.stack.state .styleValue = false)
    (hbody : ¬ ['*', '/'] <:+: body)
    (hrest : reader.cursor.rest = '/' :: '*' :: (body ++ '*' :: '/' :: rest)) :
    reader.found? = some ⟨.blockComment, '/' :: '*' :: (body ++ ['*', '/']), rest⟩ := by
  have hsplit : split? .blockComment ('/' :: '*' :: (body ++ '*' :: '/' :: rest)) =
      some ('/' :: '*' :: (body ++ ['*', '/']), rest) := by
    simp [split?, splitBlockComment, splitCommentTail_body hbody]
  obtain ⟨hjoined, hspells, hends⟩ := split?_iff.mp hsplit
  unfold found?
  rw [hrest, hjoined]
  refine firstMatch?_spelled (by simp [allows, Terminal.isSkipped]) hspells hends
    fun other hoverlaps hallowed _ => ?_
  cases other with
  | styleValue =>
    simp only [allows, Terminal.isSkipped, hvalue, Bool.or_self] at hallowed
    cases hallowed
  | _ => cases hoverlaps

/-- A comment that runs to the end of its line is found with whatever is put behind it there. -/
theorem found?_lineComment_more {word more : List Char} {other : Reader}
    (hfound : reader.found? = some ⟨.lineComment, word, rest⟩)
    (hstate : reader.stack.state = other.stack.state) (hline : '\n' ∉ more)
    (hrest : other.cursor.rest = word ++ (more ++ rest)) :
    other.found? = some ⟨.lineComment, word ++ more, rest⟩ := by
  obtain ⟨-, hsplit, hnone⟩ := firstMatch?_iff.mp hfound
  obtain ⟨hjoined, hspells, hends⟩ := split?_iff.mp hsplit
  obtain ⟨tail, rfl⟩ := lineComment_chars hspells
  rw [hstate, hjoined] at hnone
  unfold found?
  rw [hrest, ← List.append_assoc]
  refine firstMatch?_spelled (by simp [allows, Terminal.isSkipped])
    (spells_lineComment_more hspells hline) hends fun kind hoverlaps hallowed hbefore => ?_
  have hfailed := hnone kind hbefore hallowed
  cases kind with
  | styleValue => cases hfailed
  | blockComment => rfl
  | _ => cases hoverlaps

end Found

end Reader

section Insertion

variable {reader other next last : Reader} {before body after : List Char}

/-- Words that the syntax tree leaves out are the same without their places. -/
theorem bare_wordOf {found further : Match} (hkind : further.kind = found.kind)
    (hkept : found.kind.isKept = false) :
    Token.bare (reader.wordOf found) = Token.bare (other.wordOf further) := by
  simp [Token.bare, Reader.wordOf, Cursor.token, hkind, hkept]

/-- Only one of two readers passes over something. -/
theorem Peers.past (h : Peers Token.bare reader other) (found : Match) :
    Peers Token.bare reader (other.passing found) :=
  ⟨h.brackets, h.frames, level_bare _ _⟩

/-- A reader that has a blank more ahead comes to the same. -/
theorem Peers.behind_blank (h : Peers Token.bare reader other)
    (hrest : reader.cursor.rest = after) (hrest' : other.cursor.rest = ' ' :: after)
    (hsteps : ReflTransGen Reader.Moves reader last) (hlast : last.cursor.rest = []) :
    Meet Token.bare reader other := by
  obtain ⟨blanks, rest, rfl, hblanks, hends⟩ := exists_stretch isBlankChar after
  let further : Match := ⟨.blank, ' ' :: blanks, rest⟩
  have hfound' : other.found? = some further :=
    Reader.found?_blank hrest' (by simp) (List.forall_mem_cons.mpr ⟨rfl, hblanks⟩) hends (by simp)
  have hmoves' := Reader.StepTo.moves hfound' (.passing rfl)
  by_cases hnone : blanks = []
  · subst hnone
    exact ((h.past further).meet hrest).behind hmoves'
  by_cases hreturn : blanks = ['\r'] → rest.head? ≠ some '\n'
  · have hfound := Reader.found?_blank hrest hnone hblanks hends hreturn
    have hmoves := Reader.StepTo.moves hfound (.passing rfl)
    have hpeers : Peers Token.bare (reader.passing ⟨.blank, blanks, rest⟩)
        (other.passing further) := ⟨h.brackets, h.frames, level_bare _ _⟩
    exact (hpeers.meet rfl).step hmoves hmoves'
  -- A carriage return is taken with the blank, and the line break is one without it.
  · rw [Classical.not_imp, not_not] at hreturn
    obtain ⟨rfl, hfeed⟩ := hreturn
    obtain ⟨tail, rfl⟩ := List.head?_eq_some_iff.mp hfeed
    rcases hsteps.cases_head with rfl | ⟨middle, hmoves, -⟩
    · rw [hlast] at hrest
      cases hrest
    have hfound : reader.found? =
        some ⟨.newline, '\r' :: '\n' :: (splitBreaks tail).1, (splitBreaks tail).2⟩ :=
      Reader.found?_newline (by rw [hrest]; simp [splitNewline, splitBreaks])
    have hfurther : (other.passing ⟨.blank, [' ', '\r'], '\n' :: tail⟩).found? =
        some ⟨.newline, '\n' :: (splitBreaks tail).1, (splitBreaks tail).2⟩ :=
      Reader.found?_newline
        (show splitNewline ('\n' :: tail) = _ by simp [splitNewline, splitBreaks])
    obtain ⟨next', hnext', hahead, hsame⟩ :=
      (h.past _).moves Token.keepsKind_bare hfound hfurther rfl rfl (level_bare _ _) hmoves
    obtain ⟨found, hfound', hstep⟩ := hmoves.finds
    obtain rfl := Option.some.inj (hfound.symm.trans hfound')
    exact ((hsame.meet (hstep.rest.trans hahead.symm)).step hmoves hnext').behind hmoves'

/-- A reader that has a comment more ahead comes to the same, but where a value is awaited. -/
theorem Peers.behind_comment (h : Peers Token.bare reader other)
    (hvalue : Reader.awaits reader.stack.state .styleValue = false) (hbody : ¬ ['*', '/'] <:+: body)
    (hrest : reader.cursor.rest = after)
    (hrest' : other.cursor.rest = '/' :: '*' :: (body ++ '*' :: '/' :: ' ' :: after))
    (hsteps : ReflTransGen Reader.Moves reader last) (hlast : last.cursor.rest = []) :
    Meet Token.bare reader other := by
  have hfound := Reader.found?_comment (h.state ▸ hvalue) hbody hrest'
  let found : Match := ⟨.blockComment, '/' :: '*' :: (body ++ ['*', '/']), ' ' :: after⟩
  exact ((h.past found).behind_blank hrest rfl hsteps hlast).behind
    (Reader.StepTo.moves hfound (.passing rfl))

/-- So it is with a blank before the comment. -/
theorem Peers.behind_commentary (h : Peers Token.bare reader other)
    (hvalue : Reader.awaits reader.stack.state .styleValue = false) (hbody : ¬ ['*', '/'] <:+: body)
    (hrest : reader.cursor.rest = after)
    (hrest' : other.cursor.rest = commentary body ++ after)
    (hsteps : ReflTransGen Reader.Moves reader last) (hlast : last.cursor.rest = []) :
    Meet Token.bare reader other := by
  rw [commentary_append] at hrest'
  have hfound := Reader.found?_blank hrest' (by simp) (List.forall_mem_singleton.mpr rfl)
    (by simp [isBlankChar]) (by simp)
  let found : Match := ⟨.blank, [' '], '/' :: '*' :: (body ++ '*' :: '/' :: ' ' :: after)⟩
  exact ((h.past found).behind_comment hvalue hbody hrest rfl hsteps hlast).behind
    (Reader.StepTo.moves hfound (.passing rfl))

/-- A blank or a line break takes in the blank before the comment. -/
theorem Peers.into_white {found : Match} (h : Peers Token.bare reader other)
    (hwhite : found.kind = .blank ∨ found.kind = .newline) (hbody : ¬ ['*', '/'] <:+: body)
    (hmoves : reader.Moves next) (hfound : reader.found? = some found)
    (hrest' : other.cursor.rest = found.word ++ (commentary body ++ after))
    (hnext : next.cursor.rest = after)
    (hvalue : Reader.awaits next.stack.state .styleValue = false)
    (hsteps : ReflTransGen Reader.Moves next last) (hlast : last.cursor.rest = []) :
    Meet Token.bare next other := by
  have hsplit := (firstMatch?_iff.mp hfound).2.1
  have hspells := (split?_iff.mp hsplit).2.1
  have hfurther : other.found? = some ⟨found.kind, found.word ++ [' '],
      '/' :: '*' :: (body ++ '*' :: '/' :: ' ' :: after)⟩ := by
    rw [commentary_append, ← List.append_assoc] at hrest'
    rcases hwhite with hkind | hkind
    · rw [hkind] at hsplit ⊢
      refine Reader.found?_blank hrest' (by simp) ?_ (by simp [isBlankChar]) (by simp)
      rw [List.forall_mem_append]
      exact ⟨blank_chars hsplit, List.forall_mem_singleton.mpr rfl⟩
    · rw [hkind] at hspells ⊢
      refine Reader.found?_newline (hrest' ▸ split?_iff.mpr
        ⟨rfl, spells_newline_blank hspells, ?_⟩)
      exact ⟨by simp [carriesOn], by simp⟩
  have hkept : found.kind.isKept = false := by
    rcases hwhite with hkind | hkind <;> rw [hkind] <;> rfl
  obtain ⟨next', hmoves', hnext', hpeers⟩ := h.moves Token.keepsKind_bare hfound hfurther rfl
    (bare_wordOf rfl hkept) (level_bare _ _) hmoves
  exact (hpeers.behind_comment hvalue hbody hnext hnext' hsteps hlast).behind hmoves'

/-- A comment that runs to the end of its line takes in the other one. -/
theorem Peers.into_lineComment {found : Match} (h : Peers Token.bare reader other)
    (hkind : found.kind = .lineComment) (hline : '\n' ∉ body) (hmoves : reader.Moves next)
    (hfound : reader.found? = some found)
    (hrest' : other.cursor.rest = found.word ++ (commentary body ++ after))
    (hnext : next.cursor.rest = after) (hrest : found.rest = after) :
    Meet Token.bare next other := by
  have hfeed : '\n' ∉ commentary body := by
    simp [commentary, hline]
  obtain ⟨kind, word, rest⟩ := found
  obtain rfl : kind = .lineComment := hkind
  obtain rfl : rest = after := hrest
  obtain ⟨next', hmoves', hnext', hpeers⟩ := h.moves Token.keepsKind_bare hfound
    (Reader.found?_lineComment_more hfound h.state hfeed hrest') rfl (bare_wordOf rfl rfl)
    (level_bare _ _) hmoves
  exact (hpeers.meet (hnext.trans hnext'.symm)).behind hmoves'

/-- Readers that have read the same step on together over the word that the comment is put in
behind. A blank, a line break or a comment that runs to the end of its line takes something of
it. -/
theorem Peers.into_comment {found : Match} (h : Peers Token.bare reader other)
    (hbody : ¬ ['*', '/'] <:+: body) (hmoves : reader.Moves next)
    (hfound : reader.found? = some found) (hrest : reader.cursor.rest = found.word ++ after)
    (hrest' : other.cursor.rest = found.word ++ (commentary body ++ after))
    (hline : '\n' ∈ body → found.kind ≠ .lineComment)
    (hvalue : Reader.awaits next.stack.state .styleValue = false)
    (hsteps : ReflTransGen Reader.Moves next last) (hlast : last.cursor.rest = []) :
    Meet Token.bare next other := by
  obtain ⟨found', hfound', hstep⟩ := hmoves.finds
  obtain rfl := Option.some.inj (hfound.symm.trans hfound')
  have hbehind : found.rest = after :=
    List.append_cancel_left ((Reader.found?_taken hfound).joined.symm.trans hrest)
  have hnext : next.cursor.rest = after := hstep.rest.trans hbehind
  by_cases hwhite : found.kind = .blank ∨ found.kind = .newline
  · exact h.into_white hwhite hbody hmoves hfound hrest' hnext hvalue hsteps hlast
  by_cases hcomment : found.kind = .lineComment
  · exact h.into_lineComment hcomment (fun hfeed => hline hfeed hcomment) hmoves hfound hrest'
      hnext hbehind
  rw [not_or] at hwhite
  have hends : Ends found.kind (commentary body ++ after) := by
    refine ⟨fun c hc => ?_, fun hnewline => absurd hnewline hwhite.2⟩
    obtain rfl : ' ' = c := by simpa [commentary_append] using hc
    by_contra hcarries
    rcases carriesOn_white rfl (by simpa using hcarries) with hblank | hnewline | hcomment'
    · exact hwhite.1 hblank
    · exact hwhite.2 hnewline
    · exact hcomment hcomment'
  obtain ⟨next', hmoves', hnext', hpeers⟩ := h.again Token.keepsKind_bare steady_bare hmoves
    hfound hrest' hends fun hblank => absurd hblank hwhite.1
  exact (hpeers.behind_commentary hvalue hbody hnext hnext' hsteps hlast).behind hmoves'

/-- Readers that have read the same and have the same before them, but for a comment that is put in
at the place of one of them, come to the same. -/
theorem Peers.over_comment {place : Reader} {chars : List Char} (h : Peers Token.bare reader other)
    (hbody : ¬ ['*', '/'] <:+: body) (hreached : ReflTransGen Reader.Moves reader place)
    (hplace : place.cursor.rest = after)
    (hvalue : Reader.awaits place.stack.state .styleValue = false)
    (hline : '\n' ∈ body → ∀ reader' found', ReflTransGen Reader.Moves reader reader' →
      reader'.found? = some found' → reader'.cursor.rest = found'.word ++ after →
        found'.kind ≠ .lineComment)
    (hrest : reader.cursor.rest = chars ++ after)
    (hrest' : other.cursor.rest = chars ++ (commentary body ++ after))
    (hsteps : ReflTransGen Reader.Moves place last) (hlast : last.cursor.rest = []) :
    Meet Token.bare place other := by
  induction hreached using ReflTransGen.head_induction_on generalizing other chars with
  | refl =>
    obtain rfl : chars = [] := List.append_left_eq_self.mp (hrest.symm.trans hplace)
    exact h.behind_commentary hvalue hbody hplace hrest' hsteps hlast
  | @head reader middle hmoves hreached ih =>
    obtain ⟨found, hfound, hstep⟩ := hmoves.finds
    obtain ⟨front, hfront, -⟩ := Reader.rest_of_steps hreached
    rw [hplace] at hfront
    have hchars : chars = found.word ++ front := by
      rw [(Reader.found?_taken hfound).joined, ← hstep.rest, hfront, ← List.append_assoc] at hrest
      exact (List.append_cancel_right hrest).symm
    rw [hchars, List.append_assoc] at hrest hrest'
    by_cases hnone : front = []
    · subst hnone
      have hmiddle : middle = place := by
        rcases hreached.cases_head with rfl | ⟨further, hmoves', hfurther⟩
        · rfl
        · have hshorter := hmoves'.shorter
          obtain ⟨others, hothers, -⟩ := Reader.rest_of_steps hfurther
          rw [hfront, hothers, hplace, List.length_append, List.nil_append] at hshorter
          omega
      subst hmiddle
      exact h.into_comment hbody hmoves hfound hrest hrest'
        (fun hfeed => hline hfeed reader found .refl hfound hrest) hvalue hsteps hlast
    · obtain ⟨next', hmoves', hnext', hpeers⟩ := h.along Token.keepsKind_bare steady_bare hmoves
        hfound hrest hrest' hnone fun _ _ => by simp [commentary]
      have hmeet := ih hpeers
        (fun hfeed reader' found' hreader' => hline hfeed reader' found' (hreader'.head hmoves))
        hfront hnext'
      exact hmeet.behind hmoves'

/-- A text is read like one without a comment that stands at a boundary. -/
theorem derive_comment {text text' : String} {derivation : Derivation}
    (h : derive text = .ok derivation) (hbody : ¬ ['*', '/'] <:+: body)
    (htext : text.toList = before ++ after)
    (htext' : text'.toList = before ++ (commentary body ++ after))
    (hboundary : isBoundary text before.length = true)
    (hvalue : awaitsValue text before.length = false)
    (hline : '\n' ∈ body → isBehindComment text before.length = false) :
    ∃ derivation', derive text' = .ok derivation' ∧
      derivation.relabel Token.bare = derivation'.relabel Token.bare := by
  obtain ⟨last, hsteps, hend, -⟩ := derive_iff.mp h
  obtain ⟨place, hplace, hoffset⟩ := List.any_eq_true.mp hboundary
  rw [decide_eq_true_eq] at hoffset
  have hnone := List.any_eq_false.mp hvalue place hplace
  simp only [hoffset, decide_true, Bool.true_and, Bool.not_eq_true] at hnone
  have hreached := mem_course.mp hplace
  have hrest : place.cursor.rest = after := by
    obtain ⟨front, hfront, hlength⟩ := (stands_of_steps hreached).place
    rw [htext] at hfront
    exact (List.append_inj hfront (hoffset.symm.trans hlength.symm)).2.symm
  have hon := Reader.steps_through hsteps hreached hend
  have hpeers : Peers Token.bare (Reader.start text) (Reader.start text') :=
    ⟨rfl, rfl, level_bare _ _⟩
  have hmeet := hpeers.over_comment hbody hreached hrest hnone
    (fun hfeed _ _ => kind_of_not_behind htext (hline hfeed)) htext htext' hon hend
  exact (hmeet.further hreached .refl).derive Token.keepsKind_bare steady_bare h

end Insertion

/-- In an accepted text a comment can be put in at every boundary where no value of a property is
awaited, unless it has a line feed and stands behind a comment that runs to the end of its line,
which it would belong to. The text is accepted as the same recipe, apart from the places. -/
theorem comments_between_words (before comment after filename : String)
    (haccepted : ∃ tree, parse (before ++ after) filename = .ok tree)
    (hboundary : isBoundary (before ++ after) before.length = true)
    (hclosed : ¬ ['*', '/'] <:+: comment.toList)
    (hvalue : awaitsValue (before ++ after) before.length = false)
    (hline : '\n' ∈ comment.toList → isBehindComment (before ++ after) before.length = false) :
    (∃ tree, parse (before ++ (" /*" ++ comment ++ "*/ ") ++ after) filename = .ok tree) ∧
      (ofText (before ++ (" /*" ++ comment ++ "*/ ") ++ after) filename).recipe.toNode.cleared =
        (ofText (before ++ after) filename).recipe.toNode.cleared := by
  have htext : (before ++ after).toList = before.toList ++ after.toList := String.toList_append
  have htext' : (before ++ (" /*" ++ comment ++ "*/ ") ++ after).toList =
      before.toList ++ (commentary comment.toList ++ after.toList) := by
    simp [commentary]
  rw [← String.length_toList] at hboundary hvalue hline
  rw [parse_ok_iff] at haccepted ⊢
  obtain ⟨derivation, h⟩ := haccepted
  obtain ⟨derivation', h', hsame⟩ :=
    derive_comment h hclosed htext htext' hboundary hvalue hline
  exact ⟨⟨derivation', h'⟩, (ofText_bare h h' hsame filename).1.symm⟩

/-- A comment over two lines, with brackets and a quote in it, before the name of a property. -/
theorem comments_between_words_braced :
    (∃ tree, parse ("f()\x7b" ++ (" /*" ++ "]\n\"/*" ++ "*/ ") ++ "color: red\x7d") "" =
        .ok tree) ∧
      (ofText ("f()\x7b" ++ (" /*" ++ "]\n\"/*" ++ "*/ ") ++ "color: red\x7d") ""
          ).recipe.toNode.cleared =
        (ofText ("f()\x7b" ++ "color: red\x7d") "").recipe.toNode.cleared := by
  refine comments_between_words "f()\x7b" "]\n\"/*" "color: red\x7d" ""
    (parse_ok_of_isSome (by decide +kernel)) ?_ ?_ ?_ fun _ => ?_
  · decide +kernel
  · decide +kernel
  · decide +kernel
  · decide +kernel

/-- Where a value is awaited the comment is taken for it, and the value itself cannot follow. -/
theorem comment_taken_for_value :
    (∃ tree, parse ("f()\x7bcolor:" ++ "red\x7d") "" = .ok tree) ∧
      isBoundary ("f()\x7bcolor:" ++ "red\x7d") "f()\x7bcolor:".length = true ∧
      ¬ ['*', '/'] <:+: "c".toList ∧
      ¬ ∃ tree, parse ("f()\x7bcolor:" ++ (" /*" ++ "c" ++ "*/ ") ++ "red\x7d") "" = .ok tree := by
  refine ⟨parse_ok_of_isSome (by decide +kernel), ?_, ?_, ?_⟩
  · decide +kernel
  · decide +kernel
  · rw [parse_ok_iff]
    rintro ⟨derivation, h⟩
    have hrefused : (derive ("f()\x7bcolor:" ++ (" /*" ++ "c" ++ "*/ ") ++ "red\x7d")
        ).toOption.isSome = false := by
      decide +kernel
    rw [h] at hrefused
    cases hrefused

end RecipeGraph.Source
