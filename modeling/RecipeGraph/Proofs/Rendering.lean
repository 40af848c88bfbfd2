import Mathlib.Data.List.Induction
import RecipeGraph.Proofs.Rereading

/-!
Characters that write down a reading of a pattern. What such characters are read as shows by the
parts of the reading, and they can be put together as the pattern is, if each of them may be
followed by what comes next.
-/
namespace RecipeGraph.Source

open Grammar Recipe Recipe.Part

/-- The characters write down the words of a reading of the pattern, before all that may follow. The
reading has these parts, apart from where they stand. -/
def Renders (follow : List Char → Prop) (pattern : Pattern) (chars : List Char)
    (parts : List Part) : Prop :=
  ∃ reading : Reading pattern,
    (Derivation.partsOfAll reading.derivations).map (seen fun _ => none) = parts ∧
      ∀ (more : List Token) (rest : List Char), follow rest → Spelled more rest →
        Spelled (reading.tokens ++ more) (chars ++ rest)

/-- The characters begin with one that is no blank and no line feed. -/
def StartsWord (chars : List Char) : Prop :=
  ∃ c tail, chars = c :: tail ∧ isWhite c = false

/-- What a word leaves, apart from where it stands. -/
def wordParts (kind : Terminal) (text : String) : List Part :=
  if kind.isKept then [.word ⟨kind.name, text, none, 0, 0⟩] else []

theorem StartsWord.append {chars : List Char} (h : StartsWord chars) (others : List Char) :
    StartsWord (chars ++ others) := by
  obtain ⟨c, tail, rfl, hc⟩ := h
  exact ⟨c, tail ++ others, rfl, hc⟩

/-- A line break does not go on where a word begins. -/
theorem StartsWord.ends_newline {chars : List Char} (h : StartsWord chars) (rest : List Char) :
    Ends .newline (chars ++ rest) := by
  obtain ⟨c, tail, rfl, hc⟩ := h
  have hnone : ∀ d : Char, isWhite d = true → c ≠ d := by
    rintro d hd rfl
    rw [hc] at hd
    cases hd
  refine ⟨fun d hd => ?_, fun _ others heq => ?_⟩
  · obtain rfl : c = d := by simpa using hd
    simp [carriesOn, hnone '\n' rfl, hnone '\t' rfl, hnone ' ' rfl]
  · exact hnone '\r' rfl (List.cons.inj heq).1

section Parts

theorem partsOfAll_append (derivations others : List Derivation) :
    Derivation.partsOfAll (derivations ++ others) =
      Derivation.partsOfAll derivations ++ Derivation.partsOfAll others := by
  induction derivations with
  | nil => rfl
  | cons first rest ih => simp [Derivation.partsOfAll, ih]

theorem partsOfAll_single (derivation : Derivation) :
    Derivation.partsOfAll [derivation] = derivation.parts := by
  simp [Derivation.partsOfAll]

theorem parts_helper (inner : Pattern) (children : List Derivation) :
    Derivation.parts (.node inner.helper children) = Derivation.partsOfAll children := by
  cases hhelper : inner.helper with
  | rule rule => exact absurd hhelper (Reading.helper_not_rule inner rule)
  | _ => rfl

theorem parts_word (kind : Terminal) (text : String) :
    (Derivation.partsOfAll [.leaf ⟨kind, text, 0, 0, 0, 0⟩]).map (seen fun _ => none) =
      wordParts kind text := by
  rw [partsOfAll_single, Derivation.parts, wordParts]
  split <;> rfl

end Parts

namespace Renders

variable {follow before : List Char → Prop} {first second inner pattern : Pattern}
  {kind : Terminal} {text : String} {rule : Rule} {head : Name} {chars others : List Char}
  {parts further : List Part}

theorem word (hspells : Spells kind text.toList) (hfollow : ∀ rest, follow rest → Ends kind rest) :
    Renders follow (.word kind) text.toList (wordParts kind text) :=
  ⟨.word ⟨kind, text, 0, 0, 0, 0⟩ rfl, parts_word kind text,
    fun _ rest hrest hmore => hmore.word hspells (hfollow rest hrest)⟩

theorem mark (hspells : Spells kind text.toList) (hfollow : ∀ rest, follow rest → Ends kind rest) :
    Renders follow (.mark kind) text.toList (wordParts kind text) :=
  ⟨.mark ⟨kind, text, 0, 0, 0, 0⟩ rfl, parts_word kind text,
    fun _ rest hrest hmore => hmore.word hspells (hfollow rest hrest)⟩

theorem spells_mark {c : Char} (hkind : kind.mark? = some c) :
    Spells kind [c] ∧ kind.isKept = false ∧ ∀ rest, Ends kind rest := by
  have hsplit : splitMark c [c] = some ([c], []) := by simp [splitMark]
  cases kind <;> cases hkind <;> exact ⟨hsplit, rfl, ends_fixed _ (fun _ => rfl) (by decide)⟩

/-- A mark may be followed by anything. -/
theorem sign {c : Char} (hkind : kind.mark? = some c) : Renders follow (.mark kind) [c] [] := by
  obtain ⟨hspells, hkept, hends⟩ := spells_mark hkind
  rw [← String.toList_ofList (l := [c])] at hspells ⊢
  have hmark := mark hspells fun rest (_ : follow rest) => hends rest
  rwa [wordParts, hkept] at hmark

theorem bracket {c : Char} (hkind : kind.mark? = some c) : Renders follow (.word kind) [c] [] := by
  obtain ⟨hspells, hkept, hends⟩ := spells_mark hkind
  rw [← String.toList_ofList (l := [c])] at hspells ⊢
  have hword := word hspells fun rest (_ : follow rest) => hends rest
  rwa [wordParts, hkept] at hword

theorem blank (h : Renders follow pattern chars parts) (hstarts : StartsWord chars) :
    Renders follow pattern (' ' :: chars) parts := by
  obtain ⟨reading, hparts, hspelled⟩ := h
  refine ⟨reading, hparts, fun more rest hrest hmore => .blank (hspelled more rest hrest hmore) ?_⟩
  obtain ⟨c, tail, rfl, hc⟩ := hstarts
  rw [isWhite, Bool.or_eq_false_iff] at hc
  simpa using hc.1

theorem both (h : Renders before first chars parts) (h' : Renders follow second others further)
    (hnext : ∀ rest, follow rest → before (others ++ rest)) :
    Renders follow (first ++ second) (chars ++ others) (parts ++ further) := by
  obtain ⟨left, hleft, hspelled⟩ := h
  obtain ⟨right, hright, hspelled'⟩ := h'
  refine ⟨.both left right, ?_, fun more rest hrest hmore => ?_⟩
  · rw [Reading.derivations, partsOfAll_append, List.map_append, hleft, hright]
  · rw [Reading.tokens, List.append_assoc, List.append_assoc]
    exact hspelled _ _ (hnext rest hrest) (hspelled' more rest hrest hmore)

theorem after_sign {c : Char} (hkind : kind.mark? = some c)
    (h : Renders follow pattern chars parts) :
    Renders follow (.mark kind ++ pattern) (c :: chars) parts := by
  have hsign : Renders (fun _ => True) (.mark kind) [c] [] := sign hkind
  exact hsign.both h fun _ _ => trivial

theorem left (h : Renders follow first chars parts) :
    Renders follow (first ||| second) chars parts := by
  obtain ⟨reading, h⟩ := h
  exact ⟨.first reading, h⟩

theorem right (h : Renders follow second chars parts) :
    Renders follow (first ||| second) chars parts := by
  obtain ⟨reading, h⟩ := h
  exact ⟨.second reading, h⟩

theorem present (h : Renders follow inner chars parts) :
    Renders follow (.optional inner) chars parts := by
  obtain ⟨reading, h⟩ := h
  exact ⟨.present reading, h⟩

theorem absent : Renders follow (.optional inner) [] [] :=
  ⟨.absent, rfl, fun _ _ _ hmore => hmore⟩

theorem empty : Renders follow (.repeated inner) [] [] :=
  ⟨.empty, rfl, fun _ _ _ hmore => hmore⟩

/-- A name for a choice hands the parts on. -/
theorem choice (hhead : ∀ rule, head ≠ .rule rule)
    (h : Renders follow (definition head) chars parts) :
    Renders follow (.name head) chars parts := by
  obtain ⟨reading, hparts, hspelled⟩ := h
  refine ⟨.name reading, ?_, hspelled⟩
  rw [Reading.derivations, partsOfAll_single, ← hparts]
  cases head with
  | rule rule => exact absurd rfl (hhead rule)
  | _ => rfl

/-- A rule makes a part of the parts. -/
theorem named {part : Part} (h : Renders follow (definition (.rule rule)) chars parts)
    (hpart : made rule parts none = part) : Renders follow (.name (.rule rule)) chars [part] := by
  obtain ⟨reading, hparts, hspelled⟩ := h
  refine ⟨.name reading, ?_, hspelled⟩
  rw [Reading.derivations, partsOfAll_single, ← hpart, ← hparts, Derivation.parts.eq_def]
  simp [Name.nonterminal, made_seen]

theorem once (h : Renders follow inner chars parts) :
    Renders follow (.atLeastOnce inner) chars parts := by
  obtain ⟨reading, hparts, hspelled⟩ := h
  refine ⟨.once reading, ?_, hspelled⟩
  rw [Reading.derivations, partsOfAll_single, parts_helper, hparts]

/-- Items of which all but the first may follow others, one or more of them. -/
theorem atLeastOnce {items : List (List Char × List Part)} (hitems : items ≠ [])
    (h : ∀ item ∈ items, Renders follow inner item.1 item.2)
    (hnext : ∀ item ∈ items.tail, ∀ rest, follow (item.1 ++ rest)) :
    Renders follow (.atLeastOnce inner) (items.flatMap (·.1)) (items.flatMap (·.2)) := by
  induction items using List.reverseRecOn with
  | nil => exact absurd rfl hitems
  | append_singleton init item ih =>
    rw [List.forall_mem_append, List.forall_mem_singleton] at h
    rw [List.flatMap_append, List.flatMap_append, List.flatMap_singleton, List.flatMap_singleton]
    by_cases hinit : init = []
    · subst hinit
      exact h.2.once
    · obtain ⟨last, hparts, hspelled⟩ := h.2
      rw [List.tail_append_of_ne_nil hinit, List.forall_mem_append,
        List.forall_mem_singleton] at hnext
      obtain ⟨items, hparts', hspelled'⟩ := ih hinit h.1 hnext.1
      refine ⟨.further items last, ?_, fun more rest hrest hmore => ?_⟩
      · rw [Reading.derivations, partsOfAll_single, parts_helper, partsOfAll_append,
          List.map_append, hparts', hparts]
      · rw [Reading.tokens, List.append_assoc, List.append_assoc]
        exact hspelled' _ _ (hnext.2 rest) (hspelled more rest hrest hmore)

theorem repeated {items : List (List Char × List Part)}
    (h : ∀ item ∈ items, Renders follow inner item.1 item.2)
    (hnext : ∀ item ∈ items.tail, ∀ rest, follow (item.1 ++ rest)) :
    Renders follow (.repeated inner) (items.flatMap (·.1)) (items.flatMap (·.2)) := by
  by_cases hitems : items = []
  · subst hitems
    exact empty
  · obtain ⟨reading, h⟩ := atLeastOnce hitems h hnext
    exact ⟨.filled reading, h⟩

theorem intercalate_cons (between chars : List Char) (texts : List (List Char)) :
    between.intercalate (chars :: texts) = chars ++ texts.flatMap (between ++ ·) := by
  induction texts generalizing chars with
  | nil => simp
  | cons text rest ih => simp [List.intercalate_cons_cons, ih]

/-- Items with marks between them. -/
theorem separated {between : List Char} {items : List (List Char × List Part)} (hitems : items ≠ [])
    (h : ∀ item ∈ items, Renders follow inner item.1 item.2)
    (hbetween : ∀ item ∈ items, Renders follow inner item.1 item.2 →
      Renders follow (.mark kind ++ inner) (between ++ item.1) item.2)
    (hnext : ∀ rest, follow (between ++ rest)) :
    Renders follow (inner ++ .repeated (.mark kind ++ inner))
      (between.intercalate (items.map (·.1))) (items.flatMap (·.2)) := by
  obtain ⟨item, rest, rfl⟩ := List.exists_cons_of_ne_nil hitems
  rw [List.forall_mem_cons] at h hbetween
  have hmore : ∀ other ∈ rest.map fun other => (between ++ other.1, other.2),
      Renders follow (.mark kind ++ inner) other.1 other.2 := by
    rw [List.forall_mem_map]
    exact fun other hother => hbetween.2 other hother (h.2 other hother)
  have hfollow : ∀ other ∈ rest.map fun other => (between ++ other.1, other.2),
      ∀ chars, follow (other.1 ++ chars) := by
    rw [List.forall_mem_map]
    intro other _ chars
    rw [List.append_assoc]
    exact hnext _
  have hrest := repeated hmore fun other hother => hfollow other (List.mem_of_mem_tail hother)
  rw [List.flatMap_map, List.flatMap_map] at hrest
  rw [List.map_cons, intercalate_cons, List.flatMap_map, List.flatMap_cons]
  refine h.1.both hrest fun chars hchars => ?_
  -- What comes next is one more item or what follows them all.
  cases rest with
  | nil => simpa using hchars
  | cons other rest =>
    rw [List.flatMap_cons, List.append_assoc, List.append_assoc]
    exact hnext _

end Renders

end RecipeGraph.Source
