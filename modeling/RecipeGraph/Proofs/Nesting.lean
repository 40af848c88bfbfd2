import RecipeGraph.Proofs.Shapes

/-!
Where the nodes of a recipe stand in the text it was read from. The words that a text is read as
stand one after the other. A node spans words that follow each other, and the nodes in it span some
of these, in the order in which the node lists them.
-/
namespace RecipeGraph.Grammar

open Source Relation

/-- Words that stand one after the other, none of them empty. -/
structure InOrder (words : List Token) : Prop where
  nonempty : ∀ word ∈ words, word.start < word.stop
  apart : words.Pairwise fun word next => word.stop ≤ next.start

/-- A stretch that begins and ends within some of the words. -/
structure Within (words : List Token) (span : Span) : Prop where
  nonempty : span.start < span.stop
  begun : ∃ word ∈ words, (word.start : Int) ≤ span.start
  ended : ∃ word ∈ words, span.stop ≤ (word.stop : Int)

section Words

variable {words others : List Token} {span further : Span} {word : Token}

theorem InOrder.left (h : InOrder (words ++ others)) : InOrder words :=
  ⟨fun word hin => h.nonempty word (List.mem_append_left _ hin),
    (List.pairwise_append.mp h.apart).1⟩

theorem InOrder.right (h : InOrder (words ++ others)) : InOrder others :=
  ⟨fun word hin => h.nonempty word (List.mem_append_right _ hin),
    (List.pairwise_append.mp h.apart).2.1⟩

theorem Within.left (h : Within words span) : Within (words ++ others) span := by
  obtain ⟨hspan, ⟨first, hfirst, hbegun⟩, last, hlast, hended⟩ := h
  exact ⟨hspan, ⟨first, List.mem_append_left _ hfirst, hbegun⟩,
    ⟨last, List.mem_append_left _ hlast, hended⟩⟩

theorem Within.right (h : Within others span) : Within (words ++ others) span := by
  obtain ⟨hspan, ⟨first, hfirst, hbegun⟩, last, hlast, hended⟩ := h
  exact ⟨hspan, ⟨first, List.mem_append_right _ hfirst, hbegun⟩,
    ⟨last, List.mem_append_right _ hlast, hended⟩⟩

/-- What is within the first words ends before what is within the others begins. -/
theorem InOrder.before (h : InOrder (words ++ others)) (hspan : Within words span)
    (hfurther : Within others further) : span.stop ≤ further.start := by
  obtain ⟨-, -, last, hlast, hended⟩ := hspan
  obtain ⟨-, ⟨first, hfirst, hbegun⟩, -⟩ := hfurther
  have happart : last.stop ≤ first.start :=
    (List.pairwise_append.mp h.apart).2.2 last hlast first hfirst
  omega

theorem spanOf_eq_some (h : Derivation.spanOf words = some span) : ∃ first last,
    words.head? = some first ∧ words.getLast? = some last ∧ span = ⟨first.start, last.stop⟩ := by
  unfold Derivation.spanOf at h
  split at h
  · rename_i first last hfirst hlast
    exact ⟨first, last, hfirst, hlast, (Option.some.inj h).symm⟩
  · cases h

theorem spanOf_eq_none (h : Derivation.spanOf words = none) : words = [] := by
  unfold Derivation.spanOf at h
  split at h
  · cases h
  · rename_i hnone
    cases words with
    | nil => rfl
    | cons first rest => exact absurd List.getLast?_cons (hnone first _ rfl)

theorem not_within_nil : ¬ Within [] span := by
  rintro ⟨-, ⟨first, hfirst, -⟩, -⟩
  cases hfirst

/-- All words lie in the stretch from the first to the last. -/
theorem InOrder.bounds (h : InOrder words) (hspan : Derivation.spanOf words = some span)
    (hin : word ∈ words) : span.start ≤ word.start ∧ (word.stop : Int) ≤ span.stop := by
  obtain ⟨first, last, hfirst, hlast, rfl⟩ := spanOf_eq_some hspan
  constructor
  · obtain ⟨rest, rfl⟩ := List.head?_eq_some_iff.mp hfirst
    rcases List.mem_cons.mp hin with rfl | hrest
    · exact Int.le_refl _
    · have hnonempty := h.nonempty first List.mem_cons_self
      have happart := (List.pairwise_cons.mp h.apart).1 word hrest
      change (first.start : Int) ≤ word.start
      omega
  · obtain ⟨init, rfl⟩ := List.getLast?_eq_some_iff.mp hlast
    rcases List.mem_append.mp hin with hinit | hend
    · have hnonempty := h.nonempty last (List.mem_append_right _ (List.mem_singleton_self last))
      have happart := (List.pairwise_append.mp h.apart).2.2 word hinit last
        (List.mem_singleton_self last)
      change (word.stop : Int) ≤ last.stop
      omega
    · obtain rfl := List.mem_singleton.mp hend
      exact Int.le_refl _

theorem InOrder.within (h : InOrder words) (hspan : Derivation.spanOf words = some span) :
    Within words span := by
  obtain ⟨first, last, hfirst, hlast, rfl⟩ := spanOf_eq_some hspan
  have hin : first ∈ words := List.mem_of_mem_head? hfirst
  have hnonempty := h.nonempty first hin
  have hstop : (first.stop : Int) ≤ last.stop := (h.bounds hspan hin).2
  refine ⟨?_, ⟨first, hin, Int.le_refl _⟩, ⟨last, List.mem_of_getLast? hlast, Int.le_refl _⟩⟩
  change (first.start : Int) < last.stop
  omega

theorem Within.bounds (h : Within words span) (hwords : InOrder words)
    (hfurther : Derivation.spanOf words = some further) :
    further.start ≤ span.start ∧ span.stop ≤ further.stop := by
  obtain ⟨-, ⟨first, hfirst, hbegun⟩, last, hlast, hended⟩ := h
  have hstart := (hwords.bounds hfurther hfirst).1
  have hstop := (hwords.bounds hfurther hlast).2
  omega

theorem InOrder.snoc (h : InOrder words) (hword : word.start < word.stop)
    (hpassed : ∀ earlier ∈ words, earlier.stop ≤ word.start) : InOrder (words ++ [word]) where
  nonempty := List.forall_mem_append.mpr ⟨h.nonempty, by simpa using hword⟩
  apart := List.pairwise_append.mpr ⟨h.apart, List.pairwise_singleton _ _, by simpa using hpassed⟩

/-- The words that a reader has taken stand one after the other, up to where it is. -/
theorem inOrder_of_steps {text : String} {reader : Reader}
    (h : ReflTransGen Reader.Moves (Reader.start text) reader) :
    InOrder reader.stack.words ∧
      ∀ word ∈ reader.stack.words, word.stop ≤ reader.cursor.offset := by
  induction h with
  | refl =>
    have hwords : (Reader.start text).stack.words = [] := rfl
    rw [hwords]
    exact ⟨⟨by simp, .nil⟩, by simp⟩
  | @tail reader next hsteps hmoves ih =>
    obtain ⟨hwords, hpassed⟩ := ih
    obtain ⟨found, hfound, hstep⟩ := hmoves.finds
    have hlength := List.length_pos_iff.mpr (Reader.found?_taken hfound).nonempty
    have hoffset : next.cursor.offset = reader.cursor.offset + found.word.length := by
      rw [hstep.cursor]
      rfl
    rw [(hstep.sound (stands_of_steps hsteps).sound).2]
    split
    · rw [List.append_nil]
      exact ⟨hwords, fun word hin => by have := hpassed word hin; omega⟩
    · refine ⟨hwords.snoc (Nat.lt_add_of_pos_right hlength) hpassed, ?_⟩
      refine List.forall_mem_append.mpr ⟨fun word hin => by have := hpassed word hin; omega, ?_⟩
      intro word hin
      rw [List.mem_singleton.mp hin, hoffset]
      exact le_rfl

theorem inOrder_of_derive {text : String} {derivation : Derivation}
    (h : derive text = .ok derivation) : InOrder derivation.tokens := by
  obtain ⟨last, hsteps, -, hfed⟩ := derive_iff.mp h
  have hsound := (stands_of_steps hsteps).sound.feed_sound last.endToken
  rw [hfed] at hsound
  obtain ⟨-, -, htokens⟩ := hsound
  rw [htokens]
  exact (inOrder_of_steps hsteps).1

end Words

end RecipeGraph.Grammar

namespace RecipeGraph.Recipe

open Source Grammar

namespace Node

/-- The stretch is that of the node or of one below it. -/
def Shows (node : Node) (span : Span) : Prop :=
  ∃ below, node.Reaches below ∧ below.extent = some span

/-- All of the node stands before all of the other one. -/
def Before (node other : Node) : Prop :=
  ∀ span further, node.Shows span → other.Shows further → span.stop ≤ further.start

/-- The node stands around what is below it, and its children stand one after the other. -/
structure Nested (node : Node) : Prop where
  around : ∀ span inner, node.extent = some span → node.Shows inner →
    span.start ≤ inner.start ∧ inner.stop ≤ span.stop
  ordered : node.children.Pairwise Before

/-- Nodes that stand one after the other within some words. -/
structure Laid (words : List Token) (nodes : List Node) : Prop where
  nested : ∀ node ∈ nodes, node.Throughout Nested
  within : ∀ node ∈ nodes, ∀ span, node.Shows span → Within words span
  ordered : nodes.Pairwise Before

section Laid

variable {words others : List Token} {nodes more : List Node} {node child : Node} {span : Span}

theorem shows_iff : node.Shows span ↔ node.extent = some span ∨
    ∃ child ∈ node.children, child.Shows span := by
  constructor
  · rintro ⟨below, hbelow, hextent⟩
    rcases reaches_iff.mp hbelow with rfl | ⟨child, hchild, hreaches⟩
    · exact Or.inl hextent
    · exact Or.inr ⟨child, hchild, below, hreaches, hextent⟩
  · rintro (hextent | ⟨child, hchild, below, hreaches, hextent⟩)
    · exact ⟨node, .refl, hextent⟩
    · exact ⟨below, reaches_iff.mpr (Or.inr ⟨child, hchild, hreaches⟩), hextent⟩

theorem IsBlank.shows_nothing (h : IsBlank node) : ¬ node.Shows span := by
  rw [shows_iff, h.extent, h.children]
  simp

theorem IsBlank.nested (h : IsBlank node) : node.Throughout Nested := by
  refine throughout_iff.mpr ⟨⟨fun span inner _ hshows => absurd hshows h.shows_nothing, ?_⟩, ?_⟩
  · rw [h.children]
    exact .nil
  · simp [h.children]

theorem laid_nil (words : List Token) : Laid words [] :=
  ⟨by simp, by simp, .nil⟩

theorem Laid.append (hwords : InOrder (words ++ others)) (h : Laid words nodes)
    (h' : Laid others more) : Laid (words ++ others) (nodes ++ more) where
  nested := List.forall_mem_append.mpr ⟨h.nested, h'.nested⟩
  within := List.forall_mem_append.mpr
    ⟨fun node hin span hspan => (h.within node hin span hspan).left,
      fun node hin span hspan => (h'.within node hin span hspan).right⟩
  ordered := List.pairwise_append.mpr ⟨h.ordered, h'.ordered,
    fun node hnode other hother span further hspan hfurther =>
      hwords.before (h.within node hnode span hspan) (h'.within other hother further hfurther)⟩

theorem gathered_laid (words : List Token) : Gathered (Laid words) where
  sublist h hkept :=
    ⟨fun node hin => h.nested node (hkept.subset hin),
      fun node hin => h.within node (hkept.subset hin), h.ordered.sublist hkept⟩
  spread {values extent rest} h := by
    obtain ⟨hnested, hwithin, hordered⟩ := h
    rw [List.forall_mem_cons] at hnested hwithin
    rw [List.pairwise_cons] at hordered
    have hbelow : ∀ value ∈ values, ∀ span, value.Shows span →
        (Node.valueList values extent).Shows span :=
      fun value hin span hspan => shows_iff.mpr (Or.inr ⟨value, hin, hspan⟩)
    refine ⟨List.forall_mem_append.mpr ⟨fun value hin => hnested.1.child hin, hnested.2⟩,
      List.forall_mem_append.mpr ⟨fun value hin span hspan => ?_, hwithin.2⟩,
      List.pairwise_append.mpr ⟨(hnested.1 _ .refl).ordered, hordered.2, ?_⟩⟩
    · exact hwithin.1 span (hbelow value hin span hspan)
    · exact fun value hin other hother span further hspan hfurther =>
        hordered.1 other hother span further (hbelow value hin span hspan) hfurther
  blank {before blank after} h hblank := by
    obtain ⟨hnested, hwithin, hordered⟩ := h
    rw [List.forall_mem_append] at hnested hwithin
    obtain ⟨hbefore, hafter, hapart⟩ := List.pairwise_append.mp hordered
    have hnothing : ∀ span, ¬ blank.Shows span := fun span => hblank.shows_nothing
    refine ⟨?_, ?_, ?_⟩
    · exact List.forall_mem_append.mpr
        ⟨hnested.1, List.forall_mem_cons.mpr ⟨hblank.nested, hnested.2⟩⟩
    · refine List.forall_mem_append.mpr ⟨hwithin.1, List.forall_mem_cons.mpr ⟨?_, hwithin.2⟩⟩
      exact fun span hshows => absurd hshows (hnothing span)
    · refine List.pairwise_append.mpr ⟨hbefore, List.pairwise_cons.mpr ⟨?_, hafter⟩, ?_⟩
      · exact fun other _ span further hshows => absurd hshows (hnothing span)
      · intro node hnode
        refine List.forall_mem_cons.mpr ⟨?_, hapart node hnode⟩
        exact fun span further _ hshows => absurd hshows (hnothing further)

/-- A node around nodes that stand one after the other within the words it spans. -/
theorem Laid.around (hwords : InOrder words) (h : Laid words node.children)
    (hextent : node.extent = Derivation.spanOf words) : Laid words [node] := by
  have hwithin : ∀ span, node.Shows span → Within words span := by
    intro span hspan
    rcases shows_iff.mp hspan with hown | ⟨child, hchild, hshows⟩
    · exact hwords.within (hextent ▸ hown)
    · exact h.within child hchild span hshows
  refine ⟨?_, by simpa using hwithin, List.pairwise_singleton _ _⟩
  rw [List.forall_mem_singleton, throughout_iff]
  refine ⟨⟨fun span inner hspan hinner => ?_, h.ordered⟩, h.nested⟩
  exact (hwithin inner hinner).bounds hwords (hextent ▸ hspan)

end Laid

end Node

theorem Part.Makes.extent {extent : Option Span} {parts : List Part} {made : Node}
    (h : Part.Makes extent parts (.node made)) : made.extent = extent := by
  cases h <;> rfl

theorem Part.Makes.laid {words : List Token} {parts : List Part} {part : Part}
    (h : Part.Makes (Derivation.spanOf words) parts part) (hwords : InOrder words)
    (hparts : Node.Laid words (parts.flatMap nodes)) : Node.Laid words part.nodes := by
  have hinner := h.inner (Node.gathered_laid words) hparts
  cases part with
  | node made => exact Node.Laid.around hwords hinner h.extent
  | tags made => exact hinner
  | _ => exact Node.laid_nil words

section Read

variable {text filename : String} {tree : Tree} {derivation : Derivation}

/-- Whatever is read, the nodes that come of it stand one after the other within its words. -/
theorem laid_parts {pattern : Pattern} (reading : Reading pattern)
    (hwords : InOrder reading.tokens) :
    Node.Laid reading.tokens (reading.parts.flatMap Part.nodes) := by
  induction reading with
  | word token hkind | mark token hkind =>
    unfold Reading.parts
    split <;> exact Node.laid_nil _
  | @name head inner ih =>
    cases head with
    | rule rule =>
      rw [Reading.parts_rule, List.flatMap_singleton]
      exact (Part.makes rule inner).laid hwords (ih hwords)
    | _ => exact ih hwords
  | both left right ih ih' | further left right ih ih' =>
    rw [Reading.parts, List.flatMap_append]
    exact (ih hwords.left).append hwords (ih' hwords.right)
  | first _ ih | second _ ih | present _ ih | filled _ ih | once _ ih => exact ih hwords
  | absent | empty => exact Node.laid_nil _

/-- The statements of a text stand one after the other within its words. -/
theorem laid_read (h : derive text = .ok derivation) :
    Node.Laid derivation.tokens (statementsOf derivation) := by
  obtain ⟨reading, htokens, hparts, -⟩ := statements_read h
  have hlaid := laid_parts reading (htokens ▸ inOrder_of_derive h)
  rwa [hparts, Part.flatMap_nodes, htokens] at hlaid

/-- A recipe stands around its words if there are any. -/
theorem laid_root (h : derive text = .ok derivation) (filename : String) {span : Span}
    (hwords : Derivation.spanOf derivation.tokens = some span) :
    Node.Laid derivation.tokens [(ofText text filename).recipe.toNode] := by
  rw [ofText_read h filename, hwords]
  exact Node.Laid.around (inOrder_of_derive h) (laid_read h) hwords.symm

/-- What a recipe shows lies within its words, but for the whole of a text that has none. -/
theorem shown_read (h : derive text = .ok derivation) (filename : String) {node : Node}
    {span : Span} (hreaches : (ofText text filename).recipe.toNode.Reaches node)
    (hextent : node.extent = some span) : Within derivation.tokens span ∨
      node = (ofText text filename).recipe.toNode ∧ derivation.tokens = [] ∧
        span = ⟨0, text.length⟩ := by
  cases hwords : Derivation.spanOf derivation.tokens with
  | some further =>
    have hlaid := laid_root h filename hwords
    exact Or.inl (hlaid.within _ (List.mem_singleton_self _) span ⟨node, hreaches, hextent⟩)
  | none =>
    have hnone := spanOf_eq_none hwords
    rcases Node.reaches_iff.mp hreaches with rfl | ⟨child, hchild, hbelow⟩
    · rw [ofText_read h filename, hwords] at hextent
      exact Or.inr ⟨rfl, hnone, (Option.some.inj hextent).symm⟩
    · rw [ofText_read h filename] at hchild
      exact Or.inl ((laid_read h).within child hchild span ⟨node, hbelow, hextent⟩)

theorem nested_read (h : derive text = .ok derivation) (filename : String) :
    (ofText text filename).recipe.toNode.Throughout Node.Nested := by
  cases hwords : Derivation.spanOf derivation.tokens with
  | some span => exact (laid_root h filename hwords).nested _ (List.mem_singleton_self _)
  | none =>
    have hwhole : ∀ {node : Node} {span : Span},
        (ofText text filename).recipe.toNode.Reaches node → node.extent = some span →
          span = ⟨0, text.length⟩ := by
      intro node span hreaches hextent
      rcases shown_read h filename hreaches hextent with hwithin | ⟨-, -, hspan⟩
      · exact absurd (spanOf_eq_none hwords ▸ hwithin) not_within_nil
      · exact hspan
    refine Node.throughout_iff.mpr ⟨⟨fun span inner hspan hinner => ?_, ?_⟩, ?_⟩
    · obtain ⟨below, hbelow, hextent⟩ := hinner
      rw [hwhole .refl hspan, hwhole hbelow hextent]
      exact ⟨Int.le_refl _, Int.le_refl _⟩
    · rw [ofText_read h filename]
      exact (laid_read h).ordered
    · rw [ofText_read h filename]
      exact (laid_read h).nested

theorem within_text (h : derive text = .ok derivation) {span : Span}
    (hspan : Within derivation.tokens span) : 0 ≤ span.start ∧ span.stop ≤ text.length := by
  obtain ⟨-, ⟨first, -, hbegun⟩, last, hlast, hended⟩ := hspan
  obtain ⟨before, after, htext, hstart, hstop⟩ := (derive_sound h).2.2 last hlast
  have hlength := congrArg List.length htext
  rw [List.length_append, List.length_append, String.length_toList] at hlength
  omega

/-- The nodes of a recipe stand in its text, and none of them is empty but a whole text without
words. Each node stands around those below it, and its children stand one after the other. -/
structure WellPlaced (text : String) (root : Node) : Prop where
  inside : ∀ node span, root.Reaches node → node.extent = some span →
    0 ≤ span.start ∧ span.start ≤ span.stop ∧ span.stop ≤ text.length ∧
      (span.start < span.stop ∨
        node = root ∧ ∀ derivation, derive text = .ok derivation → derivation.tokens = [])
  around : ∀ ancestor node outer inner, root.Reaches ancestor → ancestor.Reaches node →
    ancestor.extent = some outer → node.extent = some inner →
      outer.start ≤ inner.start ∧ inner.stop ≤ outer.stop
  apart : ∀ node, root.Reaches node →
    (node.children.filterMap Node.extent).Pairwise fun span next => span.stop ≤ next.start

theorem positions_nested (h : parse text filename = .ok tree) :
    WellPlaced text (ofTree tree text).recipe.toNode := by
  obtain ⟨derivation, hderive⟩ := parse_ok_iff.mp ⟨tree, h⟩
  have htext := ofText_of_parse h
  rw [← htext]
  have hnested := nested_read hderive filename
  refine ⟨fun node span hreaches hextent => ?_, fun ancestor node outer inner hancestor hreaches
    houter hinner => ?_, fun node hreaches => ?_⟩
  · rcases shown_read hderive filename hreaches hextent with hwithin | ⟨hroot, hnone, rfl⟩
    · obtain ⟨hstart, hstop⟩ := within_text hderive hwithin
      have hnonempty := hwithin.nonempty
      exact ⟨hstart, Int.le_of_lt hnonempty, hstop, Or.inl hnonempty⟩
    · refine ⟨Int.le_refl _, Int.natCast_nonneg _, Int.le_refl _, Or.inr ⟨hroot, ?_⟩⟩
      intro other hother
      obtain rfl : derivation = other := Except.ok.inj (hderive.symm.trans hother)
      exact hnone
  · exact (hnested ancestor hancestor).around outer inner houter ⟨node, hreaches, hinner⟩
  · refine List.pairwise_filterMap.mpr ((hnested node hreaches).ordered.imp ?_)
    intro first second hbefore span hspan next hnext
    exact hbefore span next ⟨first, .refl, hspan⟩ ⟨second, .refl, hnext⟩

theorem positions_nested_small :
    ∃ tree, parse " a = n[ /* b */ f(x.y);](z, g()) \x7b#s\x7d\n" "" = .ok tree ∧
      WellPlaced " a = n[ /* b */ f(x.y);](z, g()) \x7b#s\x7d\n"
        (ofTree tree " a = n[ /* b */ f(x.y);](z, g()) \x7b#s\x7d\n").recipe.toNode := by
  obtain ⟨tree, h⟩ : ∃ tree,
      parse " a = n[ /* b */ f(x.y);](z, g()) \x7b#s\x7d\n" "" = .ok tree :=
    parse_ok_of_isSome (by decide +kernel)
  exact ⟨tree, h, positions_nested h⟩

end Read

end RecipeGraph.Recipe
