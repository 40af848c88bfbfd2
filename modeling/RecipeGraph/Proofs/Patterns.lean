import RecipeGraph.Proofs.Stacks
import RecipeGraph.Source.Tree

/-!
The grammar as it is written, with optional parts and repetitions, and how its readings of a text
are those of the expanded grammar. A reading of a pattern becomes a list of derivations; it has the
words and trees of them, it is the only one that becomes them, and every list of derivations of one
of the expansions of the pattern comes from a reading.
-/
namespace RecipeGraph.Grammar

open Source

/-- What the grammar as it is written has a name for. -/
inductive Name
  | rule (rule : Rule)
  | separator | statement | value | rightSide
  deriving DecidableEq

namespace Name

def all : List Name :=
  Rule.all.map .rule ++ [separator, statement, value, rightSide]

def text : Name → String
  | rule kind => kind.name
  | separator => "_sep"
  | statement => "_statement"
  | value => "_value"
  | rightSide => "_rhs"

/-- Only its children are kept of what has a name that begins with a low line. -/
def isInlined (name : Name) : Bool :=
  name.text.toList.head? = some '_'

def nonterminal : Name → Nonterminal
  | rule kind => .rule kind
  | separator => .separator
  | statement => .statement
  | value => .value
  | rightSide => .rightSide

theorem mem_all (name : Name) : name ∈ all := by
  cases name with
  | rule kind => cases kind <;> decide
  | _ => decide

end Name

/-- What is on the right side of a definition. A word is one of a terminal with a name, a mark one
of a terminal that is written as it is. -/
inductive Pattern
  | word (terminal : Terminal)
  | mark (terminal : Terminal)
  | name (name : Name)
  | both (first second : Pattern)
  | either (first second : Pattern)
  | optional (inner : Pattern)
  | repeated (inner : Pattern)
  | atLeastOnce (inner : Pattern)
  deriving DecidableEq

namespace Pattern

instance : Append Pattern := ⟨both⟩

instance : OrOp Pattern := ⟨either⟩

end Pattern

section Definitions

open Pattern

/-- Statements with separators between them, before them and after them. -/
def statementLines : Pattern :=
  repeated (optional (name .statement) ++ name .separator) ++ optional (name .statement)

/-- The grammar of recipes as it is written. -/
def definition : Name → Pattern
  | .rule .recipe => statementLines
  | .separator => word .newline ||| mark .semicolon
  | .statement =>
      name (.rule .call) ||| name (.rule .assignment) ||| name (.rule .reference) |||
      name (.rule .scope) ||| name (.rule .package) ||| name (.rule .namedStyle) |||
      name (.rule .styleBinding)
  | .rule .call =>
      word .identifier ++ word .leftParen ++ optional (name (.rule .argList)) ++
      word .rightParen ++ optional (name (.rule .styleBlock))
  | .rule .argList => name .value ++ repeated (mark .comma ++ name .value)
  | .value => name (.rule .call) ||| name (.rule .reference)
  | .rule .assignment =>
      name (.rule .target) ++ repeated (mark .comma ++ name (.rule .target)) ++ mark .equal ++
      name .rightSide
  | .rightSide =>
      name (.rule .call) ||| name (.rule .reference) ||| name (.rule .scope) |||
      name (.rule .package)
  | .rule .target => word .identifier ++ optional (name (.rule .styleBlock))
  | .rule .reference => name (.rule .qualifiedName)
  | .rule .qualifiedName => word .identifier ++ repeated (mark .dot ++ word .identifier)
  | .rule .scope =>
      optional (word .identifier) ++ word .leftBracket ++ name (.rule .body) ++
      word .rightBracket ++
      optional (word .leftParen ++ optional (name (.rule .argList)) ++ word .rightParen) ++
      optional (name (.rule .styleBlock))
  | .rule .body => statementLines
  | .rule .package =>
      optional (word .identifier) ++ mark .atSign ++ atLeastOnce (word .stringLiteral)
  | .rule .namedStyle =>
      mark .hash ++ word .identifier ++ optional (name (.rule .styleBlock))
  | .rule .styleBinding =>
      mark .percent ++ word .identifier ++ optional (name (.rule .tagBlock))
  | .rule .styleBlock =>
      word .leftBrace ++
      repeated (name (.rule .property) ||| name (.rule .styleTag) |||
        name (.rule .description) ||| mark .semicolon) ++
      word .rightBrace
  | .rule .tagBlock =>
      word .leftBrace ++ repeated (name (.rule .styleTag) ||| mark .semicolon) ++ word .rightBrace
  | .rule .property =>
      word .propertyName ++ mark .colon ++ name (.rule .propertyValue) ++
      repeated (mark .comma ++ name (.rule .propertyValue))
  | .rule .propertyValue => word .styleValue ||| word .stringLiteral
  | .rule .styleTag => mark .hash ++ name (.rule .qualifiedName)
  | .rule .description => word .stringLiteral

/-- What the repetitions are of, and the nonterminals that stand for them. -/
def repetitions : List (Pattern × Nonterminal) :=
  [(optional (name .statement) ++ name .separator, .statements),
   (mark .comma ++ name .value, .moreArgs),
   (mark .comma ++ name (.rule .target), .moreTargets),
   (mark .dot ++ word .identifier, .moreSegments),
   (word .stringLiteral, .locations),
   (name (.rule .property) ||| name (.rule .styleTag) ||| name (.rule .description) |||
     mark .semicolon, .styleItems),
   (name (.rule .styleTag) ||| mark .semicolon, .tagItems),
   (mark .comma ++ name (.rule .propertyValue), .moreValues)]

end Definitions

namespace Pattern

/-- The nonterminal for one or more of a pattern. -/
def helper (inner : Pattern) : Nonterminal :=
  (repetitions.lookup inner).getD .statements

/-- The symbols that a pattern stands for once every choice in it is made. -/
def expansions : Pattern → List (List Symbol)
  | word terminal | mark terminal => [[.terminal terminal]]
  | .name head => [[.nonterminal head.nonterminal]]
  | both first second =>
      first.expansions.flatMap fun symbols => second.expansions.map (symbols ++ ·)
  | either first second => first.expansions ++ second.expansions
  | optional inner => inner.expansions ++ [[]]
  | repeated inner => [[.nonterminal inner.helper], []]
  | atLeastOnce inner => [[.nonterminal inner.helper]]

/-- The bodies of the nonterminal for a repetition: it grows to the left. -/
def grows (inner : Pattern) : Bool :=
  bodies inner.helper =
      inner.expansions ++ inner.expansions.map (.nonterminal inner.helper :: ·) &&
    inner.expansions.all fun symbols => symbols.head? ≠ some (.nonterminal inner.helper)

/-- The expansions show which choices were made, words without a low line are kept and marks are
not, and repetitions grow to the left. -/
def isClear : Pattern → Bool
  | word terminal => terminal.isKept = (terminal.name.toList.head? ≠ some '_')
  | mark terminal => !terminal.isKept
  | .name _ => true
  | both first second =>
      first.isClear && second.isClear && first.expansions.all fun symbols =>
        first.expansions.all fun others =>
          symbols.length = others.length || second.expansions.all fun rest =>
            second.expansions.all fun further => symbols ++ rest ≠ others ++ further
  | either first second =>
      first.isClear && second.isClear && first.expansions.all (!second.expansions.contains ·)
  | optional inner => inner.isClear && !inner.expansions.contains []
  | repeated inner | atLeastOnce inner => inner.isClear && inner.grows

end Pattern

section Clear

variable {first second inner : Pattern}

theorem Pattern.clear_both (h : (both first second).isClear = true) :
    first.isClear = true ∧ second.isClear = true ∧
      ∀ symbols ∈ first.expansions, ∀ others ∈ first.expansions, ∀ rest ∈ second.expansions,
        ∀ further ∈ second.expansions, symbols ++ rest = others ++ further →
          symbols.length = others.length := by
  simp only [isClear, Bool.and_eq_true, Bool.or_eq_true, List.all_eq_true,
    decide_eq_true_eq] at h
  obtain ⟨⟨hfirst, hsecond⟩, hsplit⟩ := h
  refine ⟨hfirst, hsecond, fun symbols hin others hin' rest hrest further hfurther heq => ?_⟩
  rcases hsplit symbols hin others hin' with hlength | hdiffers
  · exact hlength
  · exact absurd heq (hdiffers rest hrest further hfurther)

theorem Pattern.clear_either (h : (either first second).isClear = true) :
    first.isClear = true ∧ second.isClear = true ∧
      ∀ symbols ∈ first.expansions, symbols ∉ second.expansions := by
  simp only [isClear, Bool.and_eq_true, List.all_eq_true, Bool.not_eq_true',
    List.contains_eq_mem, decide_eq_false_iff_not] at h
  exact ⟨h.1.1, h.1.2, h.2⟩

theorem Pattern.clear_optional (h : (optional inner).isClear = true) :
    inner.isClear = true ∧ [] ∉ inner.expansions := by
  simpa [isClear] using h

theorem Pattern.clear_atLeastOnce (h : (atLeastOnce inner).isClear = true) :
    inner.isClear = true ∧
      bodies inner.helper =
        inner.expansions ++ inner.expansions.map (.nonterminal inner.helper :: ·) ∧
      ∀ symbols ∈ inner.expansions, symbols.head? ≠ some (.nonterminal inner.helper) := by
  simp only [isClear, grows, Bool.and_eq_true, List.all_eq_true, decide_eq_true_eq] at h
  exact h

end Clear

section Table

/-- The expanded grammar is the expansion of the written one. -/
theorem bodies_expand : (Name.all.all fun name =>
    bodies name.nonterminal = (definition name).expansions) = true := by
  decide +kernel

theorem definitions_clear : (Name.all.all fun name => (definition name).isClear) = true := by
  decide +kernel

theorem bodies_nonterminal (name : Name) :
    bodies name.nonterminal = (definition name).expansions := by
  simpa using List.all_eq_true.mp bodies_expand name name.mem_all

theorem definition_clear (name : Name) : (definition name).isClear = true :=
  List.all_eq_true.mp definitions_clear name name.mem_all

end Table

/-- A derivation in the grammar as it is written. -/
inductive Reading : Pattern → Type
  | word {terminal : Terminal} (token : Token) (hkind : token.kind = terminal) :
      Reading (.word terminal)
  | mark {terminal : Terminal} (token : Token) (hkind : token.kind = terminal) :
      Reading (.mark terminal)
  | name {head : Name} (inner : Reading (definition head)) : Reading (.name head)
  | both {first second : Pattern} (left : Reading first) (right : Reading second) :
      Reading (.both first second)
  | first {first second : Pattern} (inner : Reading first) : Reading (.either first second)
  | second {first second : Pattern} (inner : Reading second) : Reading (.either first second)
  | present {inner : Pattern} (reading : Reading inner) : Reading (.optional inner)
  | absent {inner : Pattern} : Reading (.optional inner)
  | empty {inner : Pattern} : Reading (.repeated inner)
  | filled {inner : Pattern} (items : Reading (.atLeastOnce inner)) : Reading (.repeated inner)
  | once {inner : Pattern} (item : Reading inner) : Reading (.atLeastOnce inner)
  | further {inner : Pattern} (items : Reading (.atLeastOnce inner)) (item : Reading inner) :
      Reading (.atLeastOnce inner)

namespace Reading

/-- The words of a reading, from left to right. -/
def tokens {pattern : Pattern} : Reading pattern → List Token
  | word token _ | mark token _ => [token]
  | name inner | first inner | second inner => inner.tokens
  | both left right => left.tokens ++ right.tokens
  | present reading => reading.tokens
  | absent | empty => []
  | filled items => items.tokens
  | once item => item.tokens
  | further items item => items.tokens ++ item.tokens

/-- The trees of a reading. Marks, and words and rules with a low line, are left out. -/
def trees {pattern : Pattern} : Reading pattern → List Tree
  | @word terminal token _ =>
      if terminal.name.toList.head? = some '_' then [] else [.leaf (.ofToken token)]
  | mark _ _ => []
  | @name head inner =>
      if head.isInlined then inner.trees
      else [.branch head.text inner.trees (Derivation.spanOf inner.tokens)]
  | both left right => left.trees ++ right.trees
  | first inner | second inner => inner.trees
  | present reading => reading.trees
  | absent | empty => []
  | filled items => items.trees
  | once item => item.trees
  | further items item => items.trees ++ item.trees

/-- What becomes of a reading in the expanded grammar. -/
def derivations {pattern : Pattern} : Reading pattern → List Derivation
  | word token _ | mark token _ => [.leaf token]
  | @name head inner => [.node head.nonterminal inner.derivations]
  | both left right => left.derivations ++ right.derivations
  | first inner | second inner => inner.derivations
  | present reading => reading.derivations
  | absent | empty => []
  | filled items => items.derivations
  | @once inner item => [.node inner.helper item.derivations]
  | @further inner items item => [.node inner.helper (items.derivations ++ item.derivations)]

section Expanding

variable {pattern inner : Pattern}

theorem tokensOfAll_derivations (reading : Reading pattern) :
    Derivation.tokensOfAll reading.derivations = reading.tokens := by
  induction reading with
  | word | mark => rfl
  | absent | empty => rfl
  | name _ ih | once _ ih =>
    simp only [derivations, Derivation.tokensOfAll, Derivation.tokens, List.append_nil]
    exact ih
  | both _ _ ih ih' =>
    rw [derivations, Derivation.tokensOfAll_append, ih, ih']
    rfl
  | first _ ih | second _ ih | present _ ih | filled _ ih => exact ih
  | further _ _ ih ih' =>
    simp only [derivations, Derivation.tokensOfAll, Derivation.tokens, List.append_nil]
    rw [Derivation.tokensOfAll_append, ih, ih']
    rfl

theorem helper_not_rule (inner : Pattern) (rule : Rule) : inner.helper ≠ .rule rule := by
  unfold Pattern.helper
  cases hlookup : repetitions.lookup inner with
  | none => simp
  | some head =>
    have hhead := mem_of_lookup hlookup
    simp only [repetitions, List.mem_cons, Prod.mk.injEq, List.not_mem_nil, or_false] at hhead
    rcases hhead with h | h | h | h | h | h | h | h <;> obtain ⟨-, rfl⟩ := h <;> simp

/-- A nonterminal for a repetition hands its children to its parent. -/
theorem trees_helper (inner : Pattern) (children : List Derivation) :
    Derivation.trees (.node inner.helper children) = Derivation.treesOfAll children := by
  cases hhelper : inner.helper with
  | rule rule => exact absurd hhelper (helper_not_rule inner rule)
  | _ => rfl

theorem trees_nonterminal (head : Name) (children : List Derivation) :
    Derivation.trees (.node head.nonterminal children) =
      if head.isInlined then Derivation.treesOfAll children
      else [.branch head.text (Derivation.treesOfAll children)
        (Derivation.spanOf (Derivation.tokensOfAll children))] := by
  cases head with
  | rule kind => cases kind <;> rfl
  | _ => rfl

theorem treesOfAll_append (derivations others : List Derivation) :
    Derivation.treesOfAll (derivations ++ others) =
      Derivation.treesOfAll derivations ++ Derivation.treesOfAll others := by
  induction derivations with
  | nil => rfl
  | cons first rest ih =>
    rw [List.cons_append, Derivation.treesOfAll, Derivation.treesOfAll, ih, List.append_assoc]

theorem treesOfAll_derivations (hclear : pattern.isClear = true) (reading : Reading pattern) :
    Derivation.treesOfAll reading.derivations = reading.trees := by
  induction reading with
  | @word terminal token hkind =>
    simp only [Pattern.isClear, decide_eq_true_eq] at hclear
    simp [derivations, trees, Derivation.treesOfAll, Derivation.trees, hkind, hclear]
  | mark token hkind =>
    simp only [Pattern.isClear, Bool.not_eq_true'] at hclear
    simp [derivations, trees, Derivation.treesOfAll, Derivation.trees, hkind, hclear]
  | absent | empty => rfl
  | @name head inner ih =>
    simp only [derivations, trees, Derivation.treesOfAll, List.append_nil]
    rw [trees_nonterminal, ih (definition_clear head), tokensOfAll_derivations]
  | both left right ih ih' =>
    obtain ⟨hfirst, hsecond, -⟩ := Pattern.clear_both hclear
    rw [derivations, treesOfAll_append, ih hfirst, ih' hsecond, trees]
  | first inner ih => exact ih (Pattern.clear_either hclear).1
  | second inner ih => exact ih (Pattern.clear_either hclear).2.1
  | present reading ih => exact ih (Pattern.clear_optional hclear).1
  | filled items ih => exact ih hclear
  | once item ih =>
    have hinner := (Pattern.clear_atLeastOnce hclear).1
    simp only [derivations, trees, Derivation.treesOfAll, List.append_nil]
    rw [trees_helper, ih hinner]
  | further items item ih ih' =>
    have hinner := (Pattern.clear_atLeastOnce hclear).1
    simp only [derivations, trees, Derivation.treesOfAll, List.append_nil]
    rw [trees_helper, treesOfAll_append, ih hclear, ih' hinner]

/-- What becomes of a reading are derivations of one of the expansions. -/
theorem derivations_sound (hclear : pattern.isClear = true) (reading : Reading pattern) :
    reading.derivations.map Derivation.symbol ∈ pattern.expansions ∧
      Derivation.AllWellformed reading.derivations := by
  induction reading with
  | word token hkind | mark token hkind =>
    simp [derivations, Pattern.expansions, Derivation.symbol, hkind, Derivation.AllWellformed,
      Derivation.Wellformed]
  | absent => simp [derivations, Pattern.expansions, Derivation.AllWellformed]
  | empty => simp [derivations, Pattern.expansions, Derivation.AllWellformed]
  | @name head inner ih =>
    obtain ⟨hsymbols, hwell⟩ := ih (definition_clear head)
    refine ⟨by simp [derivations, Pattern.expansions, Derivation.symbol], ⟨?_, hwell⟩, trivial⟩
    rw [bodies_nonterminal]
    exact hsymbols
  | both left right ih ih' =>
    obtain ⟨hfirst, hsecond, -⟩ := Pattern.clear_both hclear
    obtain ⟨hleft, hwell⟩ := ih hfirst
    obtain ⟨hright, hwell'⟩ := ih' hsecond
    rw [Derivation.allWellformed_iff] at hwell hwell' ⊢
    simp only [derivations, List.map_append, List.forall_mem_append]
    exact ⟨List.mem_flatMap.mpr ⟨_, hleft, List.mem_map.mpr ⟨_, hright, rfl⟩⟩, hwell, hwell'⟩
  | first inner ih =>
    obtain ⟨hsymbols, hwell⟩ := ih (Pattern.clear_either hclear).1
    exact ⟨List.mem_append_left _ hsymbols, hwell⟩
  | second inner ih =>
    obtain ⟨hsymbols, hwell⟩ := ih (Pattern.clear_either hclear).2.1
    exact ⟨List.mem_append_right _ hsymbols, hwell⟩
  | present reading ih =>
    obtain ⟨hsymbols, hwell⟩ := ih (Pattern.clear_optional hclear).1
    exact ⟨List.mem_append_left _ hsymbols, hwell⟩
  | filled items ih =>
    obtain ⟨hsymbols, hwell⟩ := ih hclear
    exact ⟨List.mem_cons.mpr (.inl (List.mem_singleton.mp hsymbols)), hwell⟩
  | once item ih =>
    obtain ⟨hinner, hbodies, -⟩ := Pattern.clear_atLeastOnce hclear
    obtain ⟨hsymbols, hwell⟩ := ih hinner
    refine ⟨by simp [derivations, Pattern.expansions, Derivation.symbol], ⟨?_, hwell⟩, trivial⟩
    rw [hbodies]
    exact List.mem_append_left _ hsymbols
  | @further inner items item ih ih' =>
    obtain ⟨hinner, hbodies, -⟩ := Pattern.clear_atLeastOnce hclear
    obtain ⟨hitems, hwell⟩ := ih hclear
    obtain ⟨hsymbols, hwell'⟩ := ih' hinner
    rw [Derivation.allWellformed_iff] at hwell hwell'
    refine ⟨by simp [derivations, Pattern.expansions, Derivation.symbol], ⟨?_, ?_⟩, trivial⟩
    · rw [hbodies, List.map_append, List.mem_singleton.mp hitems]
      exact List.mem_append_right _ (List.mem_map.mpr ⟨_, hsymbols, rfl⟩)
    · rw [Derivation.allWellformed_iff, List.forall_mem_append]
      exact ⟨hwell, hwell'⟩

theorem derivations_atLeastOnce (items : Reading (.atLeastOnce inner)) :
    ∃ children, items.derivations = [.node inner.helper children] := by
  cases items with
  | once item => exact ⟨_, rfl⟩
  | further items item => exact ⟨_, rfl⟩

section Apart

variable {first second : Pattern}

theorem derivations_either (hclear : (Pattern.either first second).isClear = true)
    (reading : Reading first) (other : Reading second) :
    reading.derivations ≠ other.derivations := by
  obtain ⟨hfirst, hsecond, hapart⟩ := Pattern.clear_either hclear
  intro h
  have hother := (derivations_sound hsecond other).1
  rw [← h] at hother
  exact hapart _ (derivations_sound hfirst reading).1 hother

theorem derivations_present (hclear : (Pattern.optional inner).isClear = true)
    (reading : Reading inner) : reading.derivations ≠ [] := by
  obtain ⟨hinner, hempty⟩ := Pattern.clear_optional hclear
  intro h
  have hsymbols := (derivations_sound hinner reading).1
  rw [h] at hsymbols
  exact hempty hsymbols

theorem derivations_once (hclear : (Pattern.atLeastOnce inner).isClear = true)
    (item other : Reading inner) (items : Reading (.atLeastOnce inner)) :
    item.derivations ≠ items.derivations ++ other.derivations := by
  obtain ⟨hinner, -, hfront⟩ := Pattern.clear_atLeastOnce hclear
  obtain ⟨children, hitems⟩ := derivations_atLeastOnce items
  intro h
  refine hfront _ (derivations_sound hinner item).1 ?_
  rw [h, hitems]
  rfl

/-- Where the first of two patterns ends can be told from what becomes of both. -/
theorem derivations_both (hclear : (Pattern.both first second).isClear = true)
    {left left' : Reading first} {right right' : Reading second}
    (h : left.derivations ++ right.derivations = left'.derivations ++ right'.derivations) :
    left.derivations = left'.derivations ∧ right.derivations = right'.derivations := by
  obtain ⟨hfirst, hsecond, hsplit⟩ := Pattern.clear_both hclear
  have hsymbols := congrArg (List.map Derivation.symbol) h
  rw [List.map_append, List.map_append] at hsymbols
  have hlength := hsplit _ (derivations_sound hfirst left).1 _
    (derivations_sound hfirst left').1 _ (derivations_sound hsecond right).1 _
    (derivations_sound hsecond right').1 hsymbols
  rw [List.length_map, List.length_map] at hlength
  exact List.append_inj h hlength

end Apart

/-- No other reading becomes the same derivations. -/
theorem derivations_injective (hclear : pattern.isClear = true) (reading other : Reading pattern)
    (h : reading.derivations = other.derivations) : reading = other := by
  induction reading with
  | word token hkind =>
    cases other with
    | word other hother =>
      simp only [derivations, List.cons.injEq, Derivation.leaf.injEq, and_true] at h
      subst h
      rfl
  | mark token hkind =>
    cases other with
    | mark other hother =>
      simp only [derivations, List.cons.injEq, Derivation.leaf.injEq, and_true] at h
      subst h
      rfl
  | @name head inner ih =>
    cases other with
    | name other =>
      simp only [derivations, List.cons.injEq, Derivation.node.injEq, true_and, and_true] at h
      rw [ih (definition_clear head) other h]
  | both left right ih ih' =>
    cases other with
    | both left' right' =>
      obtain ⟨hfirst, hsecond, -⟩ := Pattern.clear_both hclear
      obtain ⟨hleft, hright⟩ := derivations_both hclear h
      rw [ih hfirst left' hleft, ih' hsecond right' hright]
  | first inner ih =>
    cases other with
    | first other => rw [ih (Pattern.clear_either hclear).1 other h]
    | second other => exact absurd h (derivations_either hclear inner other)
  | second inner ih =>
    cases other with
    | first other => exact absurd h.symm (derivations_either hclear other inner)
    | second other => rw [ih (Pattern.clear_either hclear).2.1 other h]
  | present reading ih =>
    cases other with
    | present other => rw [ih (Pattern.clear_optional hclear).1 other h]
    | absent => exact absurd h (derivations_present hclear reading)
  | absent =>
    cases other with
    | present other => exact absurd h.symm (derivations_present hclear other)
    | absent => rfl
  | empty =>
    cases other with
    | empty => rfl
    | filled other => cases other <;> simp [derivations] at h
  | filled items ih =>
    cases other with
    | empty => cases items <;> simp [derivations] at h
    | filled other => rw [ih hclear other h]
  | once item ih =>
    cases other with
    | once other =>
      simp only [derivations, List.cons.injEq, Derivation.node.injEq, true_and, and_true] at h
      rw [ih (Pattern.clear_atLeastOnce hclear).1 other h]
    | further items other =>
      simp only [derivations, List.cons.injEq, Derivation.node.injEq, true_and, and_true] at h
      exact absurd h (derivations_once hclear item other items)
  | further items item ih ih' =>
    cases other with
    | once other =>
      simp only [derivations, List.cons.injEq, Derivation.node.injEq, true_and, and_true] at h
      exact absurd h.symm (derivations_once hclear other item items)
    | further items' item' =>
      simp only [derivations, List.cons.injEq, Derivation.node.injEq, true_and, and_true] at h
      -- All items but the last become one derivation, so both lists end after it.
      obtain ⟨children, hitems⟩ := derivations_atLeastOnce items
      obtain ⟨children', hitems'⟩ := derivations_atLeastOnce items'
      obtain ⟨hfirst, hrest⟩ := List.append_inj h (by rw [hitems, hitems']; rfl)
      rw [ih hclear items' hfirst, ih' (Pattern.clear_atLeastOnce hclear).1 item' hrest]

end Expanding

end Reading

section Reading

variable {pattern inner : Pattern} {children : List Derivation} {derivation : Derivation}
  {head : Name}

/-- A derivation of what has a name, or of a repetition, comes from a reading. -/
def Derivation.Readable (derivation : Derivation) : Prop :=
  (∀ head : Name, derivation.symbol = .nonterminal head.nonterminal →
    ∃ reading : Reading (.name head), reading.derivations = [derivation]) ∧
  ∀ inner : Pattern, (Pattern.atLeastOnce inner).isClear = true →
    derivation.symbol = .nonterminal inner.helper →
    ∃ reading : Reading (.atLeastOnce inner), reading.derivations = [derivation]

theorem symbol_terminal {terminal : Terminal} (h : derivation.symbol = .terminal terminal) :
    ∃ token : Token, derivation = .leaf token ∧ token.kind = terminal := by
  cases derivation with
  | leaf token => exact ⟨token, rfl, Symbol.terminal.inj h⟩
  | node head children => cases h

theorem map_symbol_singleton {symbol : Symbol} (h : children.map Derivation.symbol = [symbol]) :
    ∃ derivation, children = [derivation] ∧ derivation.symbol = symbol :=
  List.map_eq_singleton_iff.mp h

/-- If the derivations of names and repetitions come from readings, so do those of a pattern. -/
theorem Pattern.exists_reading (hclear : pattern.isClear = true)
    (hsymbols : children.map Derivation.symbol ∈ pattern.expansions)
    (hreadable : ∀ derivation ∈ children, derivation.Readable) :
    ∃ reading : Reading pattern, reading.derivations = children := by
  induction pattern generalizing children with
  | word terminal =>
    obtain ⟨derivation, rfl, hsymbol⟩ := map_symbol_singleton (List.mem_singleton.mp hsymbols)
    obtain ⟨token, rfl, hkind⟩ := symbol_terminal hsymbol
    exact ⟨.word token hkind, rfl⟩
  | mark terminal =>
    obtain ⟨derivation, rfl, hsymbol⟩ := map_symbol_singleton (List.mem_singleton.mp hsymbols)
    obtain ⟨token, rfl, hkind⟩ := symbol_terminal hsymbol
    exact ⟨.mark token hkind, rfl⟩
  | name head =>
    obtain ⟨derivation, rfl, hsymbol⟩ := map_symbol_singleton (List.mem_singleton.mp hsymbols)
    exact (hreadable derivation (by simp)).1 head hsymbol
  | both first second ih ih' =>
    obtain ⟨hfirst, hsecond, -⟩ := clear_both hclear
    simp only [expansions, List.mem_flatMap, List.mem_map] at hsymbols
    obtain ⟨symbols, hleft, rest, hright, happend⟩ := hsymbols
    obtain ⟨front, back, rfl, rfl, rfl⟩ := List.map_eq_append_iff.mp happend.symm
    rw [List.forall_mem_append] at hreadable
    obtain ⟨left, rfl⟩ := ih hfirst hleft hreadable.1
    obtain ⟨right, rfl⟩ := ih' hsecond hright hreadable.2
    exact ⟨.both left right, rfl⟩
  | either first second ih ih' =>
    obtain ⟨hfirst, hsecond, -⟩ := clear_either hclear
    rcases List.mem_append.mp hsymbols with hleft | hright
    · obtain ⟨reading, rfl⟩ := ih hfirst hleft hreadable
      exact ⟨.first reading, rfl⟩
    · obtain ⟨reading, rfl⟩ := ih' hsecond hright hreadable
      exact ⟨.second reading, rfl⟩
  | optional inner ih =>
    obtain ⟨hinner, -⟩ := clear_optional hclear
    rcases List.mem_append.mp hsymbols with hpresent | habsent
    · obtain ⟨reading, rfl⟩ := ih hinner hpresent hreadable
      exact ⟨.present reading, rfl⟩
    · rw [List.mem_singleton, List.map_eq_nil_iff] at habsent
      exact ⟨.absent, habsent.symm⟩
  | repeated inner ih =>
    simp only [expansions, List.mem_cons, List.not_mem_nil, or_false] at hsymbols
    rcases hsymbols with hfilled | hempty
    · obtain ⟨derivation, rfl, hsymbol⟩ := map_symbol_singleton hfilled
      obtain ⟨items, hitems⟩ := (hreadable derivation (by simp)).2 inner hclear hsymbol
      exact ⟨.filled items, hitems⟩
    · rw [List.map_eq_nil_iff] at hempty
      exact ⟨.empty, hempty.symm⟩
  | atLeastOnce inner ih =>
    obtain ⟨derivation, rfl, hsymbol⟩ := map_symbol_singleton (List.mem_singleton.mp hsymbols)
    exact (hreadable derivation (by simp)).2 inner hclear hsymbol

theorem readable_leaf (token : Token) : (Derivation.leaf token).Readable := by
  constructor
  · intro _ h
    cases h
  · intro _ _ h
    cases h

theorem readable_node {head : Nonterminal}
    (hbody : children.map Derivation.symbol ∈ bodies head)
    (hreadable : ∀ derivation ∈ children, derivation.Readable) :
    (Derivation.node head children).Readable := by
  refine ⟨fun name hsymbol => ?_, fun inner hclear hsymbol => ?_⟩
  · obtain rfl := Symbol.nonterminal.inj hsymbol
    rw [bodies_nonterminal] at hbody
    obtain ⟨reading, rfl⟩ := Pattern.exists_reading (definition_clear name) hbody hreadable
    exact ⟨.name reading, rfl⟩
  · obtain rfl := Symbol.nonterminal.inj hsymbol
    obtain ⟨hinner, hbodies, -⟩ := Pattern.clear_atLeastOnce hclear
    rw [hbodies] at hbody
    rcases List.mem_append.mp hbody with honce | hfurther
    · obtain ⟨item, rfl⟩ := Pattern.exists_reading hinner honce hreadable
      exact ⟨.once item, rfl⟩
    -- A longer repetition has a shorter one as its first child.
    · obtain ⟨symbols, hin, hsymbols⟩ := List.mem_map.mp hfurther
      obtain ⟨first, rest, rfl, hfirst, rfl⟩ := List.map_eq_cons_iff.mp hsymbols.symm
      rw [List.forall_mem_cons] at hreadable
      obtain ⟨items, hitems⟩ := hreadable.1.2 inner hclear hfirst
      obtain ⟨item, rfl⟩ := Pattern.exists_reading hinner hin hreadable.2
      refine ⟨.further items item, ?_⟩
      rw [Reading.derivations, hitems]
      rfl

mutual

theorem Derivation.readable : ∀ derivation : Derivation,
    derivation.Wellformed → derivation.Readable
  | .leaf token, _ => readable_leaf token
  | .node _ children, h => readable_node h.1 (Derivation.readableAll children h.2)

theorem Derivation.readableAll : ∀ children : List Derivation,
    Derivation.AllWellformed children → ∀ derivation ∈ children, derivation.Readable
  | [], _ => by simp
  | first :: rest, h =>
    List.forall_mem_cons.mpr
      ⟨Derivation.readable first h.1, Derivation.readableAll rest h.2⟩

end

end Reading

end RecipeGraph.Grammar
