import RecipeGraph.Proofs.OpenBrackets

/-!
Two ways of telling which brackets are open. The reader keeps a list of its own, by which it drops
line breaks, and looks at nothing but the words that it hands over. The automaton has brackets on
its stack, and takes them off when it reduces. What ties the two together is that the words on the
stack leave open what the reader keeps: handing over a word changes both alike, and a reduction
changes neither.
-/
namespace RecipeGraph.Grammar

open Source Relation

namespace Stack

/-- One reduction that a word brings about. -/
def Reduces (kind : Terminal) (stack below : Stack) : Prop :=
  ∃ production, action? stack.state kind = some (.reduce production) ∧
    stack.reduce? production = some below

/-- The brackets on a stack that await their closers, innermost first. Of the closers that stand
above, the lowest first, each is there for the next bracket below if that is of its sort. -/
def awaitingBelow : List Terminal → Stack → List Token
  | _, [] => []
  | closers, ⟨_, .node _ _⟩ :: below => awaitingBelow closers below
  | closers, ⟨_, .leaf token⟩ :: below =>
      if isCloser token.kind then awaitingBelow (token.kind :: closers) below
      else if isOpener token.kind then
        if closers.head? = Brackets.closerOf? token.kind then awaitingBelow closers.tail below
        else token :: awaitingBelow closers below
      else awaitingBelow closers below

def awaiting (stack : Stack) : List Token :=
  stack.awaitingBelow []

variable {stack below : Stack} {kind : Terminal} {brackets after : Brackets}

/-- What awaits a closer is an opener that stands on the stack for itself. -/
theorem mem_awaitingBelow {closers : List Terminal} {token : Token}
    (h : token ∈ stack.awaitingBelow closers) :
    isOpener token.kind = true ∧ .leaf token ∈ stack.map (·.tree) := by
  fun_induction awaitingBelow closers stack with
  | case1 => cases h
  | case2 _ _ _ _ _ ih | case3 _ _ _ _ _ ih | case4 _ _ _ _ _ _ _ ih | case6 _ _ _ _ _ _ ih =>
    exact (ih h).imp_right (List.mem_cons_of_mem _)
  | case5 closers state other below hcloses hopens hawaits ih =>
    rcases List.mem_cons.mp h with rfl | hlater
    · exact ⟨hopens, List.mem_cons_self ..⟩
    · exact (ih hlater).imp_right (List.mem_cons_of_mem _)

theorem close?_opener (hopens : isOpener kind = true) (h : close? brackets kind = some after) :
    after = kind :: brackets := by
  simpa [close?, hopens] using h.symm

theorem opener_of_closer (hcloses : isCloser kind = true) : isOpener kind = false := by
  cases kind <;> first | rfl | cases hcloses

theorem close?_matching (hcloses : isCloser kind = true) (h : close? brackets kind = some after) :
    ∃ opener, brackets = opener :: after ∧ Brackets.closerOf? opener = some kind := by
  obtain ⟨opener, rfl⟩ := close?_closer (opener_of_closer hcloses) hcloses h
  refine ⟨opener, rfl, ?_⟩
  by_contra hother
  simp [close?, opener_of_closer hcloses, hcloses, hother] at h

theorem close?_other (hopens : isOpener kind = false) (hcloses : isCloser kind = false)
    (h : close? brackets kind = some after) : after = brackets := by
  simpa [close?, hopens, hcloses] using h.symm

/-- What the words on a stack leave open, apart from what the closers above are there for, awaits
its closers on the stack. -/
theorem Sound.awaiting_outer (h : Sound stack) {closers : List Terminal} {inner outer : Brackets}
    (hclosers : inner.map Brackets.closerOf? = closers.map some)
    (hopen : openAfter (stack.words.map (·.kind)) = some (inner ++ outer)) :
    (stack.awaitingBelow closers).map (·.kind) = outer := by
  induction h generalizing closers inner outer with
  | empty =>
    have hnone : inner ++ outer = [] := (Option.some.inj hopen).symm
    rw [(List.append_eq_nil_iff.mp hnone).2]
    rfl
  | @push frame below hbelow hgoto hwell ih =>
    rw [openAfter_push frame below hwell] at hopen
    obtain ⟨brackets, hbrackets, hclosed⟩ := Option.bind_eq_some_iff.mp hopen
    obtain ⟨state, tree⟩ := frame
    cases tree with
    | node head children =>
      cases hclosed
      exact ih hclosers hbrackets
    | leaf token =>
      have hclosed : close? brackets token.kind = some (inner ++ outer) := hclosed
      unfold awaitingBelow
      by_cases hcloses : isCloser token.kind = true
      · obtain ⟨opener, rfl, hmatch⟩ := close?_matching hcloses hclosed
        have hmore : (opener :: inner).map Brackets.closerOf? =
            (token.kind :: closers).map some := by
          rw [List.map_cons, List.map_cons, hmatch, hclosers]
        rw [if_pos hcloses]
        exact ih hmore hbrackets
      rw [if_neg hcloses]
      by_cases hopens : isOpener token.kind = true
      · have hjoined : inner ++ outer = token.kind :: brackets := close?_opener hopens hclosed
        rw [if_pos hopens]
        cases inner with
        | nil =>
          obtain rfl : closers = [] := by simpa using hclosers.symm
          obtain rfl : outer = token.kind :: brackets := hjoined
          have hnone : ([] : List Terminal).head? ≠ Brackets.closerOf? token.kind := by
            intro hsame
            rw [isOpener, ← hsame] at hopens
            cases hopens
          have hrest : (below.awaitingBelow []).map (·.kind) = brackets :=
            ih hclosers hbrackets
          rw [if_neg hnone, List.map_cons, hrest]
        | cons opener inner =>
          obtain ⟨rfl, rfl⟩ := List.cons.inj hjoined
          cases closers with
          | nil => simp at hclosers
          | cons closer closers =>
            rw [List.map_cons, List.map_cons] at hclosers
            obtain ⟨hmatch, hothers⟩ := List.cons.inj hclosers
            rw [List.head?_cons, if_pos hmatch.symm]
            exact ih hothers hbrackets
      · rw [if_neg hopens]
        have hsame : inner ++ outer = brackets := close?_other (eq_false_of_ne_true hopens)
          (eq_false_of_ne_true hcloses) hclosed
        exact ih hclosers (hsame ▸ hbrackets)

theorem Sound.awaiting_eq (h : Sound stack)
    (hopen : openAfter (stack.words.map (·.kind)) = some brackets) :
    stack.awaiting.map (·.kind) = brackets := by
  have hnone : ([] : Brackets).map Brackets.closerOf? = ([] : List Terminal).map some := rfl
  exact h.awaiting_outer hnone hopen

theorem Sound.reductions (h : Sound stack) (hreduces : ReflTransGen (Reduces kind) stack below) :
    Sound below ∧ below.words = stack.words := by
  induction hreduces with
  | refl => exact ⟨h, rfl⟩
  | tail _ hlast ih =>
    obtain ⟨production, haction, hreduce⟩ := hlast
    obtain ⟨hsound, hwords⟩ := ih.1.reduce haction hreduce
    exact ⟨hsound, hwords.trans ih.2⟩

end Stack

end RecipeGraph.Grammar

namespace RecipeGraph.Source

open Grammar Relation

variable {text : String} {reader next : Reader} {found : Match} {kind : Terminal}
  {brackets after : Brackets}

/-- A closer that is that of the innermost bracket takes it away, so passing a word is the same as
closing with it. -/
theorem Brackets.pass_of_close? (h : close? brackets kind = some after) :
    brackets.pass kind = after := by
  unfold pass
  by_cases hopens : isOpener kind = true
  · rw [Stack.close?_opener hopens h]
    exact if_pos hopens
  rw [if_neg (show ¬ (closerOf? kind).isSome = true from hopens)]
  by_cases hcloses : Grammar.isCloser kind = true
  · obtain ⟨opener, rfl, hmatch⟩ := Stack.close?_matching hcloses h
    exact if_pos hmatch
  · have hsame := Stack.close?_other (eq_false_of_ne_true hopens)
      (eq_false_of_ne_true hcloses) h
    cases brackets with
    | nil => exact hsame.symm
    | cons opener outer =>
      have hnot : closerOf? opener ≠ some kind := by
        intro hmatch
        cases opener <;> cases hmatch <;> exact hcloses rfl
      rw [hsame]
      exact if_neg hnot

theorem Brackets.hidesBreaks_cons {opener : Terminal} (hopens : isOpener opener = true)
    {outer : Brackets} : hidesBreaks (opener :: outer) = false ↔ opener = .leftBracket := by
  cases opener <;> simp_all [hidesBreaks, isOpener, closerOf?]

/-- The reader keeps those brackets that the words on the stack leave open. -/
def Reader.Keeps (reader : Reader) : Prop :=
  openAfter (reader.stack.words.map (·.kind)) = some reader.brackets

theorem keeps_start (text : String) : (Reader.start text).Keeps :=
  rfl

/-- A word that is handed over does to the brackets that are kept what it does to those that the
words leave open. -/
theorem Reader.StepTo.close? (hsound : reader.stack.Sound) (hkeeps : reader.Keeps)
    (h : reader.StepTo found next) (hpass : reader.passesOver found.kind = false) :
    Grammar.close? reader.brackets found.kind = some next.brackets ∧ next.Keeps := by
  obtain ⟨hafter, hwords⟩ := h.sound hsound
  rw [hpass, if_neg Bool.false_ne_true] at hwords
  have hopen : openAfter (next.stack.words.map (·.kind)) =
      Grammar.close? reader.brackets found.kind := by
    rw [hwords, List.map_append, openAfter_append, hkeeps]
    exact bind_pure _
  obtain ⟨brackets, hbrackets⟩ := Option.isSome_iff_exists.mp hafter.openAfter_isSome
  cases h with
  | passing hpass' => simp [hpass] at hpass'
  | handing =>
    have hclosed := hopen.symm.trans hbrackets
    have hnext : reader.brackets.pass found.kind = brackets := Brackets.pass_of_close? hclosed
    unfold Reader.Keeps
    rw [hbrackets, hclosed]
    exact ⟨congrArg some hnext.symm, congrArg some hnext.symm⟩

theorem keeps_moves (hsound : reader.stack.Sound) (hkeeps : reader.Keeps) (h : reader.Moves next) :
    next.Keeps := by
  obtain ⟨found, -, hstep⟩ := h.finds
  cases hpass : reader.passesOver found.kind with
  | false => exact (hstep.close? hsound hkeeps hpass).2
  | true =>
    cases hstep with
    | passing _ => exact hkeeps
    | handing hhands _ => simp [hpass] at hhands

theorem keeps_of_steps (h : ReflTransGen Reader.Moves (Reader.start text) reader) :
    reader.Keeps := by
  induction h with
  | refl => exact keeps_start text
  | tail hsteps hmoves ih => exact keeps_moves (stands_of_steps hsteps).sound ih hmoves

/-- The reader and the automaton agree on what is open. -/
structure Reader.Coupled (reader : Reader) : Prop where
  /-- Whatever reductions a word brings about, the end of the text among them. -/
  awaited : ∀ (kind : Terminal) (stack : Stack),
    ReflTransGen (Stack.Reduces kind) reader.stack stack →
      stack.awaiting.map (·.kind) = reader.brackets
  /-- A closer that is taken in is that of the innermost bracket. -/
  closes : ∀ (found : Match) (next : Reader), reader.found? = some found →
    Grammar.isCloser found.kind = true → reader.Moves next →
      ∃ opener, reader.brackets = opener :: next.brackets ∧
        Brackets.closerOf? opener = some found.kind
  /-- A line break comes to the automaton if the innermost bracket there is a square one, or none
  is there. -/
  breaks : ∀ found : Match, reader.found? = some found → found.kind = .newline →
    (reader.passesOver found.kind = false ↔
      ∀ token ∈ reader.stack.awaiting.head?, token.kind = .leftBracket)

theorem passesOver_newline : reader.passesOver .newline = reader.brackets.hidesBreaks := by
  simp [Reader.passesOver, Brackets.drops, Terminal.isSkipped]

theorem passesOver_closer (hcloses : Grammar.isCloser kind = true) :
    reader.passesOver kind = false := by
  cases kind <;> first | rfl | cases hcloses

/-- At every moment of reading a text, accepted or not, the reader keeps the brackets that await
their closers on the stack of the automaton. -/
theorem brackets_coupled (hreader : reader ∈ course text) : reader.Coupled := by
  have hreached := mem_course.mp hreader
  have hsound := (stands_of_steps hreached).sound
  have hkeeps := keeps_of_steps hreached
  have hawaited : ∀ (kind : Terminal) (stack : Stack),
      ReflTransGen (Stack.Reduces kind) reader.stack stack →
        stack.awaiting.map (·.kind) = reader.brackets := by
    intro kind stack hreduces
    obtain ⟨hbelow, hwords⟩ := hsound.reductions hreduces
    exact hbelow.awaiting_eq (hwords ▸ hkeeps)
  refine ⟨hawaited, fun found next hfound hcloses hmoves => ?_, fun found hfound hbreak => ?_⟩
  · obtain ⟨found', hfound', hstep⟩ := hmoves.finds
    obtain rfl : found = found' := Option.some.inj (hfound.symm.trans hfound')
    have hclosed := (hstep.close? hsound hkeeps (passesOver_closer hcloses)).1
    exact Stack.close?_matching hcloses hclosed
  · rw [hbreak, passesOver_newline, ← hawaited .newline reader.stack .refl]
    cases hstack : reader.stack.awaiting with
    | nil => simp [Brackets.hidesBreaks]
    | cons token rest =>
      have hopens : isOpener token.kind = true :=
        (Stack.mem_awaitingBelow (hstack ▸ List.mem_cons_self ..)).1
      rw [List.map_cons, Brackets.hidesBreaks_cons hopens]
      simp

/-- Before the closer of a call in a scope, when a line break in the call was dropped. -/
theorem brackets_coupled_nested :
    ∃ reader ∈ course "n[g(a,\nb)\n]", reader.brackets = [.leftParen, .leftBracket] ∧
      reader.found?.map (·.kind) = some .rightParen ∧ reader.Coupled := by
  have hthere : (course "n[g(a,\nb)\n]").any (fun reader =>
      reader.brackets = [.leftParen, .leftBracket] &&
        reader.found?.map (·.kind) = some .rightParen) = true := by
    decide +kernel
  obtain ⟨reader, hreader, hplace⟩ := List.any_eq_true.mp hthere
  simp only [Bool.and_eq_true, decide_eq_true_eq] at hplace
  exact ⟨reader, hreader, hplace.1, hplace.2, brackets_coupled hreader⟩

end RecipeGraph.Source
