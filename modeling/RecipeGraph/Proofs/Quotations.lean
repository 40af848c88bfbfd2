import Mathlib.Data.List.Chain
import RecipeGraph.Proofs.Moves
import RecipeGraph.Proofs.Nesting
import RecipeGraph.Proofs.Referrals

/-!
What stands at the place of a diagnostic. Between two words of a text there is nothing but blanks,
comments and line breaks. So the extent of a reference covers its path as it is written there, with
such fillers between the words of it, and whatever is reported of the reference points at it.
-/
namespace RecipeGraph.Source

open Grammar Relation

/-- A stretch of characters stands from one offset to another. -/
def StandsAt (chars : List Char) (start stop : Nat) (stretch : List Char) : Prop :=
  ∃ before after, chars = before ++ (stretch ++ after) ∧ start = before.length ∧
    stop = before.length + stretch.length

/-- What may stand between two words: blanks, comments and line breaks. -/
inductive Filler : List Char → Prop
  | nil : Filler []
  | snoc {filler word : List Char} {kind : Terminal} (hfiller : Filler filler)
      (hkind : kind.isSkipped = true ∨ kind = .newline) (hword : Spells kind word) :
      Filler (filler ++ word)

/-- Words that are spelled as their terminals say, with fillers between them. -/
inductive Strewn : List (Terminal × List Char) → List Char → Prop
  | single {kind : Terminal} {word : List Char} (hword : Spells kind word) :
      Strewn [(kind, word)] word
  | cons {kind : Terminal} {word filler chars : List Char} {words : List (Terminal × List Char)}
      (hword : Spells kind word) (hfiller : Filler filler) (hrest : Strewn words chars) :
      Strewn ((kind, word) :: words) (word ++ (filler ++ chars))

/-- A word as it is spelled. -/
def spelling (token : Token) : Terminal × List Char :=
  (token.kind, token.text.toList)

/-- From one word to the next there is a filler. -/
def Linked (chars : List Char) (token next : Token) : Prop :=
  ∃ filler, Filler filler ∧ StandsAt chars token.stop next.start filler

/-- Words of a text that follow each other there. -/
structure Threaded (chars : List Char) (words : List Token) : Prop where
  placed : ∀ token ∈ words, InPlace chars token
  spelled : ∀ token ∈ words, Spells token.kind token.text.toList
  linked : words.IsChain (Linked chars)

section Stretches

variable {chars first second stretch : List Char} {start middle stop : Nat}

theorem StandsAt.append (h : StandsAt chars start middle first)
    (h' : StandsAt chars middle stop second) : StandsAt chars start stop (first ++ second) := by
  obtain ⟨before, after, hchars, hstart, hmiddle⟩ := h
  obtain ⟨before', after', hchars', hmiddle', hstop⟩ := h'
  have hsame : before ++ first ++ after = before' ++ (second ++ after') := by
    rw [List.append_assoc, ← hchars, hchars']
  have hlength : (before ++ first).length = before'.length := by
    rw [List.length_append]
    omega
  obtain ⟨-, hafter⟩ := List.append_inj hsame hlength
  refine ⟨before, after', ?_, hstart, ?_⟩
  · rw [hchars, hafter, List.append_assoc]
  · rw [List.length_append]
    omega

/-- A stretch is what is cut out from where it starts to where it stops. -/
theorem StandsAt.slice (h : StandsAt chars start stop stretch) :
    Text.slice chars start stop = stretch := by
  obtain ⟨before, after, rfl, rfl, rfl⟩ := h
  have hplace : ∀ offset : Nat, Text.placeOf (before ++ (stretch ++ after)) offset = offset := by
    intro offset
    have hoffset : ¬ (offset : Int) < 0 := by omega
    simp [Text.placeOf, hoffset]
  rw [Text.slice, hplace, hplace, List.drop_left, Nat.add_sub_cancel_left, List.take_left]

end Stretches

section Threads

variable {chars : List Char} {words more : List Token} {token : Token} {span : Span}

theorem Threaded.left (h : Threaded chars (words ++ more)) : Threaded chars words :=
  ⟨fun token hin => h.placed token (List.mem_append_left _ hin),
    fun token hin => h.spelled token (List.mem_append_left _ hin),
    (List.isChain_append.mp h.linked).1⟩

theorem Threaded.right (h : Threaded chars (words ++ more)) : Threaded chars more :=
  ⟨fun token hin => h.placed token (List.mem_append_right _ hin),
    fun token hin => h.spelled token (List.mem_append_right _ hin),
    (List.isChain_append.mp h.linked).2.1⟩

theorem Threaded.snoc (h : Threaded chars words) (hplaced : InPlace chars token)
    (hspelled : Spells token.kind token.text.toList)
    (hlinked : ∀ last ∈ words.getLast?, Linked chars last token) :
    Threaded chars (words ++ [token]) where
  placed := List.forall_mem_append.mpr ⟨h.placed, by simpa using hplaced⟩
  spelled := List.forall_mem_append.mpr ⟨h.spelled, by simpa using hspelled⟩
  linked := List.isChain_append.mpr ⟨h.linked, List.isChain_singleton _, by simpa using hlinked⟩

/-- From the first of some words to the last there are these words and nothing but fillers. -/
theorem Threaded.strewn : ∀ {word : Token} {rest : List Token}, Threaded chars (word :: rest) →
    ∃ stretch,
      StandsAt chars word.start ((word :: rest).getLast (List.cons_ne_nil _ _)).stop stretch ∧
      Strewn ((word :: rest).map spelling) stretch
  | word, [], h =>
    ⟨word.text.toList, h.placed word List.mem_cons_self,
      .single (h.spelled word List.mem_cons_self)⟩
  | word, next :: rest, h => by
    have hsplit : Threaded chars ([word] ++ next :: rest) := h
    obtain ⟨stretch, hstands, hstrewn⟩ := hsplit.right.strewn
    have hword : StandsAt chars word.start word.stop word.text.toList :=
      h.placed word List.mem_cons_self
    obtain ⟨filler, hfiller, hbetween⟩ := (List.isChain_cons_cons.mp h.linked).1
    refine ⟨word.text.toList ++ (filler ++ stretch), ?_,
      .cons (h.spelled word List.mem_cons_self) hfiller hstrewn⟩
    rw [List.getLast_cons (List.cons_ne_nil _ _)]
    exact hword.append (hbetween.append hstands)

end Threads

/-- The words that a reader has taken follow each other, and from the last of them to where the
reader is there is a filler. -/
structure Reader.Threads (text : String) (reader : Reader) : Prop where
  words : Threaded text.toList reader.stack.words
  behind : ∀ last ∈ reader.stack.words.getLast?, ∃ filler, Filler filler ∧
    StandsAt text.toList last.stop reader.cursor.offset filler

section Reading

variable {text : String} {reader next : Reader} {found : Match} {derivation : Derivation}

theorem Reader.found?_spelled (h : reader.found? = some found) : Spells found.kind found.word :=
  (split?_iff.mp (firstMatch?_iff.mp h).2.1).2.1

/-- A word that is found stands where the reader is. -/
theorem Stands.ahead (h : Stands text reader) (hfound : reader.found? = some found) :
    StandsAt text.toList reader.cursor.offset (reader.cursor.offset + found.word.length)
      found.word := by
  obtain ⟨before, hjoined, hoffset⟩ := h.place
  refine ⟨before, found.rest, ?_, hoffset.symm, by rw [hoffset]⟩
  rw [hjoined, (Reader.found?_taken hfound).joined]

theorem StandsAt.empty {chars stretch : List Char} {start stop : Nat}
    (h : StandsAt chars start stop stretch) : StandsAt chars stop stop [] := by
  obtain ⟨before, after, hchars, -, hstop⟩ := h
  refine ⟨before ++ stretch, after, ?_, ?_, ?_⟩
  · rw [hchars, List.nil_append, List.append_assoc]
  · rw [hstop, List.length_append]
  · rw [hstop, List.length_append, List.length_nil, Nat.add_zero]

theorem Reader.passed_kind {kind : Terminal} (h : reader.passesOver kind = true) :
    kind.isSkipped = true ∨ kind = .newline := by
  unfold Reader.passesOver Brackets.drops at h
  simp only [Bool.or_eq_true, Bool.and_eq_true, decide_eq_true_eq] at h
  exact h.imp_right And.left

theorem Reader.Threads.moves (hstands : Stands text reader) (h : Reader.Threads text reader)
    (hmoves : reader.Moves next) : Reader.Threads text next := by
  obtain ⟨found, hfound, hstep⟩ := hmoves.finds
  have hplace := hstands.ahead hfound
  have hspelled := Reader.found?_spelled hfound
  have hwords := (hstep.sound hstands.sound).2
  have hoffset : next.cursor.offset = reader.cursor.offset + found.word.length := by
    rw [hstep.cursor]
    rfl
  cases hpass : reader.passesOver found.kind with
  | true =>
    rw [hpass, if_pos rfl, List.append_nil] at hwords
    refine ⟨hwords ▸ h.words, fun last hlast => ?_⟩
    obtain ⟨filler, hfiller, hbehind⟩ := h.behind last (hwords ▸ hlast)
    rw [hoffset]
    exact ⟨filler ++ found.word, hfiller.snoc (Reader.passed_kind hpass) hspelled,
      hbehind.append hplace⟩
  | false =>
    rw [hpass, if_neg Bool.false_ne_true] at hwords
    have htext : (reader.wordOf found).text.toList = found.word := String.toList_ofList
    have hplaced : InPlace text.toList (reader.wordOf found) := by
      change StandsAt _ _ _ (reader.wordOf found).text.toList
      rw [htext]
      exact hplace
    refine ⟨?_, fun last hlast => ?_⟩
    · rw [hwords]
      exact h.words.snoc hplaced (htext.symm ▸ hspelled) h.behind
    · rw [hwords, List.getLast?_append_cons, List.getLast?_singleton, Option.mem_some_iff] at hlast
      rw [hoffset, ← hlast]
      exact ⟨[], .nil, hplace.empty⟩

theorem threads_of_steps (h : ReflTransGen Reader.Moves (Reader.start text) reader) :
    Reader.Threads text reader := by
  induction h with
  | refl =>
    have hwords : (Reader.start text).stack.words = [] := rfl
    refine ⟨?_, ?_⟩
    · rw [hwords]
      exact ⟨by simp, by simp, .nil⟩
    · rw [hwords]
      simp
  | tail hsteps hmoves ih => exact ih.moves (stands_of_steps hsteps) hmoves

/-- The words that a text is read as follow each other in it. -/
theorem threaded_of_derive (h : derive text = .ok derivation) :
    Threaded text.toList derivation.tokens := by
  obtain ⟨last, hsteps, -, hfed⟩ := derive_iff.mp h
  have hsound := (stands_of_steps hsteps).sound.feed_sound last.endToken
  rw [hfed] at hsound
  rw [hsound.2.2]
  exact (threads_of_steps hsteps).words

end Reading

end RecipeGraph.Source

namespace RecipeGraph.Recipe

open Source Grammar

/-- The words of a path: its segments with dots between them. -/
def pathWords (path : Path) : List (Terminal × List Char) :=
  (path.map fun segment => (.identifier, segment.toList)).intersperse (.dot, ['.'])

section Names

variable {chars : List Char}

theorem intersperse_cons {α : Type} (gap first : α) (rest : List α) :
    (first :: rest).intersperse gap = first :: rest.flatMap fun item => [gap, item] := by
  induction rest generalizing first with
  | nil => rfl
  | cons next rest ih => rw [List.intersperse_cons_cons, ih, List.flatMap_cons]; rfl

/-- A mark is spelled with its own character. -/
theorem spelled_mark {mark : Terminal} {c : Char} {word : List Char}
    (hsplit : ∀ chars, split? mark chars = splitMark c chars) (h : Spells mark word) :
    word = [c] :=
  (splitMark_some ((hsplit word).symm.trans h)).2

theorem spelling_segments : ∀ items : Reading (.atLeastOnce (.mark .dot ++ .word .identifier)),
    (∀ token ∈ items.tokens, Spells token.kind token.text.toList) →
      items.tokens.map spelling = (items.parts.map Part.text).flatMap fun segment =>
        [(.dot, ['.']), (.identifier, segment.toList)]
  | .once (.both (.mark dot hdot) (.word token htoken)), h => by
    have hmark : dot.text.toList = ['.'] :=
      spelled_mark (fun _ => rfl) (hdot ▸ h dot List.mem_cons_self)
    change [spelling dot, spelling token] = [_, (Terminal.identifier, token.text.toList)]
    simp [spelling, hdot, htoken, hmark]
  | .further items (.both (.mark dot hdot) (.word token htoken)), h => by
    have hsplit : (Reading.further items (.both (.mark dot hdot) (.word token htoken))).tokens =
      items.tokens ++ [dot, token] := rfl
    rw [hsplit] at h ⊢
    have hmark : dot.text.toList = ['.'] := by
      refine spelled_mark (fun _ => rfl) (hdot ▸ h dot ?_)
      simp
    have hitems := spelling_segments items fun token hin => h token (List.mem_append_left _ hin)
    rw [List.map_append, hitems, Reading.parts_further, List.map_append, List.flatMap_append]
    change _ ++ [spelling dot, spelling token] = _ ++ [_, (Terminal.identifier, token.text.toList)]
    simp [spelling, hdot, htoken, hmark]

/-- The words of a qualified name are those of its path. -/
theorem spelling_path : ∀ reading : Reading (definition (.rule .qualifiedName)),
    (∀ token ∈ reading.tokens, Spells token.kind token.text.toList) →
      reading.tokens.map spelling = pathWords (reading.parts.map Part.text)
  | .both (.word token htoken) .empty, h => by
    change [spelling token] = pathWords [token.text]
    simp [spelling, htoken, pathWords]
  | .both (.word token htoken) (.filled items), h => by
    have hitems := spelling_segments items fun word hin => h word (List.mem_cons_of_mem _ hin)
    change spelling token :: items.tokens.map spelling =
      pathWords (token.text :: items.parts.map Part.text)
    rw [hitems, pathWords, List.map_cons, intersperse_cons]
    simp [List.flatMap_map, spelling, htoken]

/-- A reference covers some words of a text, with fillers between them. -/
def Covers (text : String) (extent : Option Span) (words : List (Terminal × List Char)) : Prop :=
  ∃ span, extent = some span ∧ Strewn words (Text.slice text.toList span.start span.stop)

/-- A reference covers its path, after a hash if it is one to a style. A package stands somewhere
in the text. -/
def Node.Quotes (text : String) : Node → Prop
  | .variable path extent => Covers text extent (pathWords path)
  | .styleTag path extent => Covers text extent ((.hash, ['#']) :: pathWords path)
  | .package _ _ extent => ∃ span, extent = some span
  | _ => True

theorem covers_spanOf {text : String} {words : List Token}
    (h : Threaded text.toList words) (hwords : words ≠ []) :
    Covers text (Derivation.spanOf words) (words.map spelling) := by
  cases words with
  | nil => exact absurd rfl hwords
  | cons word rest =>
    obtain ⟨stretch, hstands, hstrewn⟩ := h.strewn
    refine ⟨⟨word.start, ((word :: rest).getLast (List.cons_ne_nil _ _)).stop⟩, ?_, ?_⟩
    · unfold Derivation.spanOf
      rw [List.head?_cons, List.getLast?_eq_some_getLast (List.cons_ne_nil _ _)]
    · rw [hstands.slice]
      exact hstrewn

theorem tokens_path : ∀ reading : Reading (definition (.rule .qualifiedName)),
    reading.tokens ≠ []
  | .both (.word _ _) _ => by simp [Reading.tokens]

theorem tokens_package : ∀ reading : Reading (definition (.rule .package)), reading.tokens ≠ []
  | .both (.both _ (.mark _ _)) _ => by simp [Reading.tokens]

/-- What a rule makes of words that follow each other covers its path. -/
theorem quotes_made {text : String} (rule : Rule) (reading : Reading (definition (.rule rule)))
    {made : Node} (h : Threaded text.toList reading.tokens)
    (hmade : Part.made rule reading.parts (Derivation.spanOf reading.tokens) = .node made) :
    made.Quotes text := by
  cases rule with
  | reference =>
    cases reading with
    | name inner =>
      obtain rfl := Part.node.inj hmade
      change Covers text (Derivation.spanOf inner.tokens) (pathWords (inner.parts.map Part.text))
      rw [← spelling_path inner h.spelled]
      exact covers_spanOf h (tokens_path inner)
  | styleTag =>
    cases reading with
    | both mark named =>
      cases mark with
      | mark hash hhash =>
        cases named with
        | name inner =>
          obtain rfl := Part.node.inj hmade
          have hmark : hash.text.toList = ['#'] :=
            spelled_mark (fun _ => rfl) (hhash ▸ h.spelled hash List.mem_cons_self)
          have hspelling : spelling hash = (.hash, ['#']) := by rw [spelling, hhash, hmark]
          change Covers text (Derivation.spanOf (hash :: inner.tokens))
            ((.hash, ['#']) :: pathWords (inner.parts.map Part.text))
          rw [← spelling_path inner (Threaded.right h).spelled, ← hspelling]
          exact covers_spanOf h (List.cons_ne_nil _ _)
  | package =>
    obtain rfl := Part.node.inj hmade
    cases hspan : Derivation.spanOf reading.tokens with
    | some span => exact ⟨span, rfl⟩
    | none => exact absurd (spanOf_eq_none hspan) (tokens_package reading)
  | recipe | body | argList | call | assignment | target | scope | namedStyle | styleBinding |
      styleBlock =>
    obtain rfl := Part.node.inj hmade
    trivial
  | qualifiedName | tagBlock | property | propertyValue | description => cases hmade

end Names

section Read

variable {text filename : String} {tree : Tree} {derivation : Derivation}

theorem IsBlank.quotes {node : Node} (h : Node.IsBlank node) : node.Quotes text := by
  cases h <;> trivial

/-- Whatever is read from words that follow each other, the references in it cover their paths. -/
theorem quotes_parts {pattern : Pattern} (reading : Reading pattern)
    (hwords : Threaded text.toList reading.tokens) :
    ∀ node ∈ reading.parts.flatMap Part.nodes, node.Throughout (Node.Quotes text) :=
  throughout_parts_of_words (Threaded text.toList) (fun h => ⟨h.left, h.right⟩)
    (fun _ => IsBlank.quotes)
    (fun rule reading _ hwords hmade _ => quotes_made rule reading hwords hmade) reading hwords

theorem quotes_read (h : derive text = .ok derivation) (filename : String) :
    (ofText text filename).recipe.toNode.Throughout (Node.Quotes text) := by
  obtain ⟨reading, htokens, hparts, -⟩ := statements_read h
  have hquotes := quotes_parts reading (htokens ▸ threaded_of_derive h)
  rw [hparts, Part.flatMap_nodes] at hquotes
  rw [ofText_read h filename]
  exact Node.throughout_iff.mpr ⟨trivial, hquotes⟩

end Read

end RecipeGraph.Recipe

namespace RecipeGraph

open Source Recipe Compile

/-- The words of the reference that a problem is about. -/
def Problem.wording : Problem → Option (List (Grammar.Terminal × List Char))
  | undefinedVariable path | undefinedAliasTarget path _ => some (pathWords path)
  | undefinedStyleTag path => some ((.hash, ['#']) :: pathWords path)
  | _ => none

/-- A diagnostic lies in the text, and one on a reference covers the words of the reference. -/
structure Diagnostic.Points (text : String) (diagnostic : Diagnostic) : Prop where
  within : 0 ≤ diagnostic.extent.start ∧ diagnostic.extent.start ≤ diagnostic.extent.stop ∧
    diagnostic.extent.stop ≤ text.length
  quoted : ∀ words ∈ diagnostic.problem.wording,
    Strewn words (Text.slice text.toList diagnostic.extent.start diagnostic.extent.stop)

/-- The diagnostics of a text point at references of the text itself, at each of them at most once
and in their order. -/
structure Faithful (text : String) (statements : List Node) (diagnostics : List Diagnostic) :
    Prop where
  points : ∀ diagnostic ∈ diagnostics, diagnostic.Points text
  own : ∃ kept, List.Sublist kept (Node.referralsOfAll statements) ∧
    List.Forall₂ Diagnostic.Concerns kept diagnostics

section Compiling

variable {text filename : String} {tree : Tree} {node : Node} {diagnostic : Diagnostic}

/-- What is said of a reference stands where the reference does. -/
theorem Diagnostic.Concerns.extent (h : diagnostic.Concerns node) (hquotes : node.Quotes text) :
    node.extent = some diagnostic.extent := by
  cases h with
  | «variable» path extent | synonym path extent targets | tag path extent =>
    obtain ⟨span, rfl, -⟩ := hquotes
    rfl
  | package location label extent reason =>
    obtain ⟨span, rfl⟩ := hquotes
    rfl

/-- What is said of a reference that covers its path points at it. -/
theorem Diagnostic.Concerns.points (h : diagnostic.Concerns node) (hquotes : node.Quotes text)
    (hinside : ∀ span, node.extent = some span →
      0 ≤ span.start ∧ span.start ≤ span.stop ∧ span.stop ≤ text.length) :
    diagnostic.Points text := by
  refine ⟨hinside _ (h.extent hquotes), ?_⟩
  cases h with
  | «variable» path extent | synonym path extent targets | tag path extent =>
    obtain ⟨span, rfl, hstrewn⟩ := hquotes
    rintro words ⟨⟩
    exact hstrewn
  | package location label extent reason => rintro words ⟨⟩

/-- What is reported of a text concerns references in it that cover their paths. -/
theorem compile_concerns (h : parse text filename = .ok tree) (compiler : Compiler)
    (name : String) (chain : List String) (world : Package.World) : ∃ kept,
      List.Sublist kept (Node.referralsOfAll (ofTree tree text).recipe.statements) ∧
        (∀ node ∈ kept, (ofTree tree text).recipe.toNode.Reaches node ∧ node.Quotes text) ∧
        List.Forall₂ Diagnostic.Concerns kept
          (compiler.compile text name chain world).1.diagnostics := by
  obtain ⟨derivation, hderive⟩ := parse_ok_iff.mp ⟨tree, h⟩
  have htext := ofText_of_parse h
  have hstatements :
      (ofText text name).recipe.statements = (ofTree tree text).recipe.statements := by
    rw [← htext, ofText_read hderive, ofText_read hderive]
  obtain ⟨kept, hkept, hconcern⟩ := compile_accounts hderive compiler name chain world
  rw [hstatements] at hkept
  refine ⟨kept, hkept, fun node hnode => ?_, hconcern⟩
  obtain ⟨statement, hin, hbelow⟩ := Node.reaches_referralsOfAll _ (hkept.subset hnode)
  have hreaches : (ofTree tree text).recipe.toNode.Reaches node := Node.reaches_child hin hbelow
  have hquotes := quotes_read hderive filename
  rw [htext] at hquotes
  exact ⟨hreaches, hquotes node hreaches⟩

theorem compile_faithful (h : parse text filename = .ok tree) (compiler : Compiler)
    (name : String) (chain : List String) (world : Package.World) :
    Faithful text (ofTree tree text).recipe.statements
      (compiler.compile text name chain world).1.diagnostics := by
  obtain ⟨kept, hkept, hplaced, hconcern⟩ := compile_concerns h compiler name chain world
  refine ⟨fun diagnostic hin => ?_, kept, hkept, hconcern⟩
  obtain ⟨node, hnode, hconcerns⟩ := Diagnostic.exists_concern hconcern diagnostic hin
  obtain ⟨hreaches, hquotes⟩ := hplaced node hnode
  refine hconcerns.points hquotes fun span hextent => ?_
  obtain ⟨hstart, hordered, hstop, -⟩ := (positions_nested h).inside node span hreaches hextent
  exact ⟨hstart, hordered, hstop⟩

/-- A path over two lines, a tag with a comment in it, and a package. -/
def strewnText : String :=
  "f(a /*c*/ .\n b)\x7b#s // d\n .t\x7d\n@\"p.fiz\""

/-- A package with a mistake of its own. -/
def mistaken : Package.Library :=
  ⟨fun _ => .ok "g(missing)", 1⟩

theorem compile_faithful_strewn :
    ∃ tree, parse strewnText "" = .ok tree ∧
      ((Compiler.mk tally mistaken).compile strewnText "" [] {}).1.diagnostics =
        [⟨⟨16, 27⟩, .undefinedStyleTag ["s", "t"]⟩, ⟨⟨2, 14⟩, .undefinedVariable ["a", "b"]⟩] ∧
      Faithful strewnText (ofTree tree strewnText).recipe.statements
        ((Compiler.mk tally mistaken).compile strewnText "" [] {}).1.diagnostics := by
  obtain ⟨tree, h⟩ : ∃ tree, parse strewnText "" = .ok tree :=
    parse_ok_of_isSome (by decide +kernel)
  exact ⟨tree, h, by decide +kernel, compile_faithful h (Compiler.mk tally mistaken) "" [] {}⟩

end Compiling

end RecipeGraph
