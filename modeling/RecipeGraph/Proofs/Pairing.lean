import RecipeGraph.Proofs.Driving
import RecipeGraph.Source.Brackets

/-!
Brackets in derivations. In what is derived from a nonterminal every bracket has its partner, so the
open brackets are the same before and after it. A line break is only derived right inside of square
brackets or outside of all brackets. So none is derived where it would be dropped.
-/
namespace RecipeGraph.Source.Brackets

open Grammar

/-- The open brackets after some words. -/
def passAll (brackets : Brackets) (tokens : List Token) : Brackets :=
  tokens.foldl (fun brackets token => brackets.pass token.kind) brackets

/-- None of the words is dropped. -/
def KeepsAll : Brackets → List Token → Prop
  | _, [] => True
  | brackets, token :: rest =>
      brackets.drops token.kind = false ∧ KeepsAll (brackets.pass token.kind) rest

def isCloser (kind : Terminal) : Bool :=
  [.rightParen, .rightBrace, .rightBracket].contains kind

section Words

variable {inner outer : Brackets} {kind : Terminal} {tokens others : List Token}

theorem passAll_append (brackets : Brackets) (tokens others : List Token) :
    brackets.passAll (tokens ++ others) = (brackets.passAll tokens).passAll others :=
  List.foldl_append

theorem keepsAll_append {brackets : Brackets} : brackets.KeepsAll (tokens ++ others) ↔
    brackets.KeepsAll tokens ∧ (brackets.passAll tokens).KeepsAll others := by
  induction tokens generalizing brackets with
  | nil => simp [KeepsAll, passAll]
  | cons token rest ih =>
    simp only [List.cons_append, KeepsAll, ih, and_assoc]
    rfl

/-- A word that does not close any of the outer brackets only concerns the inner ones. -/
theorem pass_append (h : inner ≠ [] ∨ isCloser kind = false) :
    (inner ++ outer).pass kind = inner.pass kind ++ outer := by
  cases inner with
  | nil =>
    have hcloser : isCloser kind = false := h.resolve_left (by simp)
    cases outer with
    | nil => simp
    | cons opener rest =>
      cases kind <;> first | rfl | (cases opener <;> rfl) | cases hcloser
  | cons opener rest =>
    unfold pass
    simp only [List.cons_append]
    split
    · rfl
    · split <;> rfl

end Words

end RecipeGraph.Source.Brackets

namespace RecipeGraph.Grammar

open Source

/-- The symbol may give line breaks that are not within brackets of its own. -/
def Symbol.hasBreaks : Symbol → Bool
  | .terminal kind => kind = .newline
  | .nonterminal head => [.rule .recipe, .rule .body, .statements, .separator].contains head

/-- Brackets pair up in the symbols, and line breaks come right inside of square brackets, or
outside of the brackets if they may do so. -/
def isPaired (breaks : Bool) : Brackets → List Symbol → Bool
  | inner, [] => inner.isEmpty
  | inner, symbol :: rest =>
      (!symbol.hasBreaks || if inner.isEmpty then breaks else !inner.hidesBreaks) &&
        match symbol with
        | .nonterminal _ => isPaired breaks inner rest
        | .terminal kind =>
            (!inner.isEmpty || !Brackets.isCloser kind) && isPaired breaks (inner.pass kind) rest

theorem bodies_paired : (Nonterminal.all.all fun head => (bodies head).all fun body =>
    isPaired (Symbol.nonterminal head).hasBreaks [] body) = true := by
  decide +kernel

namespace Derivation

section Pairing

variable {inner outer : Brackets} {breaks : Bool}

theorem hidesBreaks_append (h : (if inner.isEmpty then breaks else !inner.hidesBreaks) = true)
    (houter : breaks = true → outer.hidesBreaks = false) :
    (inner ++ outer).hidesBreaks = false := by
  cases inner with
  | nil => exact houter (by simpa using h)
  | cons opener rest =>
    have hopener : Brackets.hidesBreaks (opener :: rest) = false := by simpa using h
    cases opener <;> first | rfl | cases hopener

mutual

/-- Words that are derived from a nonterminal leave the open brackets as they are, and none of them
is dropped. -/
theorem keeps_words : ∀ derivation : Derivation, derivation.Wellformed →
    ∀ {head : Nonterminal}, derivation.symbol = .nonterminal head → ∀ {brackets : Brackets},
      ((Symbol.nonterminal head).hasBreaks = true → brackets.hidesBreaks = false) →
        brackets.passAll derivation.tokens = brackets ∧ brackets.KeepsAll derivation.tokens
  | .leaf _, _, _, hsymbol, _, _ => nomatch hsymbol
  | .node head children, hwell, _, hsymbol, brackets, hbreaks => by
    obtain rfl := Symbol.nonterminal.inj hsymbol
    have hpaired := bodies_paired
    simp only [List.all_eq_true] at hpaired
    exact keeps_children children hwell.2 (hpaired head head.mem_all _ hwell.1) hbreaks

/-- Within the brackets that are open in the body so far, the words of its rest leave nothing but
the brackets around the body. -/
theorem keeps_children : ∀ children : List Derivation, AllWellformed children →
    ∀ {inner outer : Brackets} {breaks : Bool},
      isPaired breaks inner (children.map symbol) = true →
      (breaks = true → outer.hidesBreaks = false) →
        (inner ++ outer).passAll (tokensOfAll children) = outer ∧
          (inner ++ outer).KeepsAll (tokensOfAll children)
  | [], _, inner, outer, _, hpaired, _ => by
    obtain rfl : inner = [] := by simpa [isPaired] using hpaired
    exact ⟨rfl, trivial⟩
  | child :: rest, hwell, inner, outer, breaks, hpaired, houter => by
    simp only [List.map_cons, isPaired, Bool.and_eq_true, Bool.or_eq_true,
      Bool.not_eq_true'] at hpaired
    obtain ⟨hbreaks, hpaired⟩ := hpaired
    have hkept : child.symbol.hasBreaks = true → (inner ++ outer).hidesBreaks = false := by
      intro hchild
      refine hidesBreaks_append (hbreaks.resolve_left ?_) houter
      simp [hchild]
    rw [tokensOfAll, Brackets.passAll_append, Brackets.keepsAll_append]
    cases child with
    | leaf token =>
      simp only [symbol, Bool.and_eq_true, Bool.or_eq_true, Bool.not_eq_true'] at hpaired
      have hpass : (inner ++ outer).pass token.kind = Brackets.pass inner token.kind ++ outer :=
        Brackets.pass_append (hpaired.1.imp_left fun hinner => by simpa using hinner)
      have hrest := keeps_children rest hwell.2 hpaired.2 houter
      rw [← hpass] at hrest
      refine ⟨hrest.1, ⟨?_, trivial⟩, hrest.2⟩
      by_cases hnewline : token.kind = .newline
      · simp [Brackets.drops, hkept (by simp [symbol, Symbol.hasBreaks, hnewline])]
      · simp [Brackets.drops, hnewline]
    | node head inside =>
      obtain ⟨hsame, hinside⟩ := keeps_words (.node head inside) hwell.1 rfl hkept
      have hrest := keeps_children rest hwell.2 hpaired houter
      rw [hsame]
      exact ⟨hrest.1, hinside, hrest.2⟩

end

end Pairing

end Derivation

end RecipeGraph.Grammar
