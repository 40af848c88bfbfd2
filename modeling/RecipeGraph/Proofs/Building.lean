import RecipeGraph.Proofs.Parts
import RecipeGraph.Proofs.ReadingSteps
import RecipeGraph.Recipe.OfText

/-!
What a recipe that was read depends on. In a derivation every rule finds words and paths when it
looks for names. So texts whose words are the same are read as the same recipe, whatever lies
between the words, but for where its nodes stand.
-/
namespace RecipeGraph.Grammar.Derivation

open Source Recipe Recipe.Part

mutual

/-- The parts that a derivation hands to its parent. -/
def parts : Derivation → List Part
  | leaf token => if token.kind.isKept then [.word (.ofToken token)] else []
  | node (.rule rule) children =>
      [made rule (partsOfAll children) (spanOf (tokensOfAll children))]
  | node _ children => partsOfAll children

def partsOfAll : List Derivation → List Part
  | [] => []
  | child :: rest => parts child ++ partsOfAll rest

end

/-- The symbol is more than a mark. -/
def isTelling : Symbol → Bool
  | .terminal kind => kind.isKept
  | .nonterminal _ => true

/-- The first of the symbols that is more than a mark. -/
def lead? (symbols : List Symbol) : Option Symbol :=
  symbols.find? isTelling

/-- Nothing but words comes of the symbol. -/
def isWordy : Symbol → Bool
  | .terminal _ => true
  | .nonterminal head => head = .moreSegments

section Table

theorem bodies_lead_with_words :
    ([.call, .target, .namedStyle, .styleBinding, .property, .propertyValue,
        .description].all fun rule : Rule => (bodies (.rule rule)).all fun body =>
      match lead? body with
      | some (.terminal _) => true
      | _ => false) = true := by
  decide +kernel

theorem bodies_lead_with_paths : ([.reference, .styleTag].all fun rule : Rule =>
    (bodies (.rule rule)).all fun body =>
      lead? body = some (.nonterminal (.rule .qualifiedName))) = true := by
  decide +kernel

theorem bodies_wordy : ([.moreSegments, .rule .qualifiedName].all fun head : Nonterminal =>
    (bodies head).all fun body => body.all isWordy) = true := by
  decide +kernel

/-- A recipe is no part of anything else. -/
theorem bodies_without_recipe : (Nonterminal.all.all fun head => (bodies head).all fun body =>
    body.all (· ≠ .nonterminal (.rule .recipe))) = true := by
  decide +kernel

end Table

section Parts

variable {children : List Derivation} {lead : Symbol} {rule : Rule} {source : List Char}

theorem partsOfAll_lead (h : lead? (children.map symbol) = some lead) :
    ∃ (first : Derivation) (more : List Part),
      first.symbol = lead ∧ partsOfAll children = first.parts ++ more := by
  induction children with
  | nil => cases h
  | cons child rest ih =>
    rw [List.map_cons, lead?, List.find?_cons] at h
    split at h
    · exact ⟨child, partsOfAll rest, Option.some.inj h, rfl⟩
    · rename_i hmark
      obtain ⟨first, more, hfirst, hparts⟩ := ih h
      refine ⟨first, more, hfirst, ?_⟩
      cases child with
      | leaf token =>
        have hkept : token.kind.isKept = false := hmark
        simp [partsOfAll, parts, hkept, hparts]
      | node head inner => cases hmark

theorem parts_lead_word {kind : Terminal}
    (h : lead? (children.map symbol) = some (.terminal kind)) :
    ∃ leaf, (partsOfAll children).head? = some (.word leaf) := by
  have hkept : isTelling (.terminal kind) = true := List.find?_some h
  unfold isTelling at hkept
  obtain ⟨first, more, hfirst, hparts⟩ := partsOfAll_lead h
  cases first with
  | leaf token =>
    obtain rfl : token.kind = kind := Symbol.terminal.inj hfirst
    exact ⟨.ofToken token, by simp [hparts, parts, hkept]⟩
  | node head inner => cases hfirst

theorem parts_lead_path
    (h : lead? (children.map symbol) = some (.nonterminal (.rule .qualifiedName))) :
    ∃ names, (partsOfAll children).head? = some (.path names) := by
  obtain ⟨first, more, hfirst, hparts⟩ := partsOfAll_lead h
  cases first with
  | leaf token => cases hfirst
  | node head inner =>
    obtain rfl : head = .rule .qualifiedName := Symbol.nonterminal.inj hfirst
    exact ⟨(partsOfAll inner).map text, by simp [hparts, parts, made]⟩

theorem wordy_body {head : Nonterminal} {body : List Symbol}
    (hhead : head = .moreSegments ∨ head = .rule .qualifiedName) (hbody : body ∈ bodies head) :
    ∀ symbol ∈ body, isWordy symbol = true := by
  have hwordy := bodies_wordy
  simp only [List.all_eq_true] at hwordy
  exact hwordy head (by rcases hhead with rfl | rfl <;> simp) body hbody

mutual

theorem parts_wordy : ∀ derivation : Derivation, derivation.Wellformed →
    isWordy derivation.symbol = true → ∀ part ∈ derivation.parts, ∃ leaf, part = .word leaf
  | leaf token, _, _ => by
    intro part hpart
    unfold parts at hpart
    split at hpart
    · exact ⟨_, List.mem_singleton.mp hpart⟩
    · cases hpart
  | node head children, hwell, hwordy => by
    obtain rfl : head = .moreSegments := of_decide_eq_true hwordy
    refine partsOfAll_wordy children hwell.2 fun child hchild => ?_
    exact wordy_body (.inl rfl) hwell.1 _ (List.mem_map_of_mem hchild)

theorem partsOfAll_wordy : ∀ children : List Derivation, AllWellformed children →
    (∀ child ∈ children, isWordy child.symbol = true) →
      ∀ part ∈ partsOfAll children, ∃ leaf, part = .word leaf
  | [], _, _ => by simp [partsOfAll]
  | child :: rest, hwell, hwordy => by
    rw [List.forall_mem_cons] at hwordy
    intro part hpart
    rcases List.mem_append.mp hpart with hfirst | hrest
    · exact parts_wordy child hwell.1 hwordy.1 part hfirst
    · exact partsOfAll_wordy rest hwell.2 hwordy.2 part hrest

end

/-- In a derivation every rule finds what it looks for. -/
theorem fits (hbody : children.map symbol ∈ bodies (.rule rule)) (hwell : AllWellformed children) :
    Fits (partsOfAll children) rule := by
  have hwords := bodies_lead_with_words
  have hpaths := bodies_lead_with_paths
  simp only [List.all_eq_true] at hwords hpaths
  cases rule with
  | call | target | namedStyle | styleBinding | property | propertyValue | description =>
    have hlead := hwords _ (by decide) _ hbody
    split at hlead
    · rename_i hfound
      exact parts_lead_word hfound
    · cases hlead
  | reference | styleTag =>
    exact parts_lead_path (of_decide_eq_true (hpaths _ (by decide) _ hbody))
  | qualifiedName =>
    exact partsOfAll_wordy children hwell fun child hchild =>
      wordy_body (.inr rfl) hbody _ (List.mem_map_of_mem hchild)
  | _ => trivial

mutual

theorem words_of_parts : ∀ (derivation : Derivation) {found : Leaf},
    .word found ∈ derivation.parts →
    ∃ token ∈ derivation.tokens, found = .ofToken token
  | leaf token, found, h => by
    unfold parts at h
    split at h
    · exact ⟨token, by simp [tokens], Part.word.inj (List.mem_singleton.mp h)⟩
    · cases h
  | node head children, found, h => by
    cases head with
    | rule rule =>
      have hmade := List.mem_singleton.mp h
      cases rule <;> cases hmade
    | _ => exact words_of_partsOfAll children h

theorem words_of_partsOfAll : ∀ (children : List Derivation) {found : Leaf},
    .word found ∈ partsOfAll children → ∃ token ∈ tokensOfAll children, found = .ofToken token
  | [], _, h => by cases h
  | child :: rest, found, h => by
    rcases List.mem_append.mp h with hfirst | hrest
    · obtain ⟨token, htoken, hfound⟩ := words_of_parts child hfirst
      exact ⟨token, List.mem_append_left _ htoken, hfound⟩
    · obtain ⟨token, htoken, hfound⟩ := words_of_partsOfAll rest hrest
      exact ⟨token, List.mem_append_right _ htoken, hfound⟩

end

theorem wordText_ofToken {token : Token} (h : InPlace source token) :
    wordText source (.ofToken token) = token.text := by
  obtain ⟨before, after, hsource, hstart, hstop⟩ := h
  unfold wordText
  dsimp only [Leaf.ofToken]
  split
  · rfl
  · have hplace : ∀ place : Nat, Text.placeOf source place = place := by
      intro place
      rw [Text.placeOf, if_neg (by omega), Int.toNat_natCast]
    have hslice : Text.slice source token.start token.stop = token.text.toList := by
      rw [Text.slice, hplace, hplace, hsource, hstart, hstop]
      simp
    rw [hslice, String.ofList_toList]

theorem ofName?_name (rule : Rule) : Rule.ofName? rule.name = some rule := by
  cases rule <;> decide

theorem piecesOfTrees_append (trees others : List Tree) :
    piecesOfTrees source (trees ++ others) =
      ((piecesOfTrees source trees).1 ++ (piecesOfTrees source others).1,
        (piecesOfTrees source trees).2 ++ (piecesOfTrees source others).2) := by
  induction trees with
  | nil => rfl
  | cons tree rest ih => simp [piecesOfTrees, ih]

theorem body_without_recipe {head : Nonterminal}
    (hbody : children.map symbol ∈ bodies head) :
    ∀ child ∈ children, child.symbol ≠ .nonterminal (.rule .recipe) := by
  have hwithout := bodies_without_recipe
  simp only [List.all_eq_true, decide_eq_true_eq] at hwithout
  exact fun child hchild => hwithout head head.mem_all _ hbody _ (List.mem_map_of_mem hchild)

mutual

/-- The pieces of a derivation whose words are read as what they are, and nothing wrong with
them. -/
theorem pieces_of_trees : ∀ derivation : Derivation, derivation.Wellformed →
    derivation.symbol ≠ .nonterminal (.rule .recipe) →
    (∀ token ∈ derivation.tokens, wordText source (.ofToken token) = token.text) →
      (piecesOfTrees source derivation.trees).1.map (·.part) = derivation.parts ∧
        (piecesOfTrees source derivation.trees).2 = []
  | leaf token, _, _, _ => by
    unfold trees parts
    split <;> exact ⟨rfl, rfl⟩
  | node head children, hwell, hrecipe, hwords => by
    obtain ⟨hparts, hnothing⟩ := pieces_of_treesOfAll children hwell.2
      (body_without_recipe hwell.1) hwords
    cases head with
    | rule rule =>
      have hrule : rule ≠ .recipe := by
        rintro rfl
        exact hrecipe rfl
      have hread : ∀ leaf, Part.word leaf ∈
          (piecesOfTrees source (treesOfAll children)).1.map (·.part) →
            wordText source leaf = leaf.text := by
        rw [hparts]
        intro leaf hleaf
        obtain ⟨token, htoken, rfl⟩ := words_of_partsOfAll children hleaf
        exact hwords token htoken
      have hfits := fits hwell.1 hwell.2
      rw [← hparts] at hfits
      have hmade := partOf_eq_made hrule hfits hread (spanOf (tokensOfAll children))
      rw [hparts] at hmade
      simp only [trees, parts, piecesOfTrees, pieceOfTree, ofName?_name, List.map_cons,
        List.map_nil, hnothing, List.append_nil, and_true]
      exact congrArg (fun part => [part]) hmade
    | _ => exact ⟨hparts, hnothing⟩

theorem pieces_of_treesOfAll : ∀ children : List Derivation, AllWellformed children →
    (∀ child ∈ children, child.symbol ≠ .nonterminal (.rule .recipe)) →
    (∀ token ∈ tokensOfAll children, wordText source (.ofToken token) = token.text) →
      (piecesOfTrees source (treesOfAll children)).1.map (·.part) = partsOfAll children ∧
        (piecesOfTrees source (treesOfAll children)).2 = []
  | [], _, _, _ => ⟨rfl, rfl⟩
  | child :: rest, hwell, hrecipe, hwords => by
    rw [List.forall_mem_cons] at hrecipe
    rw [tokensOfAll, List.forall_mem_append] at hwords
    obtain ⟨hparts, hnothing⟩ := pieces_of_trees child hwell.1 hrecipe.1 hwords.1
    obtain ⟨hothers, hnothing'⟩ := pieces_of_treesOfAll rest hwell.2 hrecipe.2 hwords.2
    rw [treesOfAll, piecesOfTrees_append, partsOfAll]
    simp [hparts, hnothing, hothers, hnothing']

end

end Parts

/-- A change of words that is not seen in what is made of them: only what lies in extents is
changed, and the move of extents takes that away. -/
structure Unseen (label : Token → Token) (move : Option Span → Option Span) : Prop where
  kind : KeepsKind label
  text : ∀ token : Token, token.kind.isKept = true → (label token).text = token.text
  extent : ∀ tokens : List Token, move (spanOf (tokens.map label)) = move (spanOf tokens)
  absent : move none = none

section Unseen

variable {label : Token → Token} {move : Option Span → Option Span}

theorem unseen_bare : Unseen Token.bare fun _ => none :=
  ⟨Token.keepsKind_bare, fun token h => by simp [Token.bare, h], fun _ => rfl, rfl⟩

theorem unseen_unlined : Unseen Token.unlined id := by
  refine ⟨Token.keepsKind_unlined, fun _ _ => rfl, fun tokens => ?_, rfl⟩
  unfold spanOf
  rw [List.head?_map, List.getLast?_map]
  cases tokens.head? <;> cases tokens.getLast? <;> rfl

mutual

theorem parts_relabel (h : Unseen label move) : ∀ derivation : Derivation,
    (derivation.relabel label).parts.map (seen move) = derivation.parts.map (seen move)
  | leaf token => by
    unfold relabel parts
    rw [h.kind token]
    split
    · rename_i hkept
      simp [seen, Leaf.ofToken, h.kind token, h.text token hkept]
    · rfl
  | node head children => by
    have hchildren := partsOfAll_relabel h children
    cases head with
    | rule rule =>
      simp only [relabel, parts, List.map_cons, List.map_nil, made_seen h.absent, hchildren,
        tokensOfAll_relabelAll, h.extent]
    | _ => exact hchildren

theorem partsOfAll_relabel (h : Unseen label move) : ∀ children : List Derivation,
    (partsOfAll (relabelAll label children)).map (seen move) =
      (partsOfAll children).map (seen move)
  | [] => rfl
  | child :: rest => by
    simp only [relabelAll, partsOfAll, List.map_append, parts_relabel h child,
      partsOfAll_relabel h rest]

end

end Unseen

end RecipeGraph.Grammar.Derivation

namespace RecipeGraph.Recipe

open Source Grammar

section Read

variable {text : String} {derivation other : Derivation}

/-- The statements of a recipe that was read. -/
def statementsOf (derivation : Derivation) : List Node :=
  match derivation with
  | .leaf _ => []
  | .node _ children => (Derivation.partsOfAll children).filterMap Part.node?

/-- The tree of a text that is read gives a recipe, from whatever source its words are read as what
they are, and nothing is wrong with it. -/
theorem ofTree_read {tree : Tree} {filename : String} (h : derive text = .ok derivation)
    (htree : parse text filename = .ok tree) (source : String)
    (hwords : ∀ token ∈ derivation.tokens,
      wordText source.toList (.ofToken token) = token.text) :
    ofTree tree source =
      ⟨⟨statementsOf derivation,
        some ((Derivation.spanOf derivation.tokens).getD ⟨0, source.length⟩)⟩, []⟩ := by
  obtain ⟨hwell, hsymbol, -⟩ := derive_sound h
  cases derivation with
  | leaf token => cases hsymbol
  | node head children =>
    obtain rfl : head = .rule .recipe := Grammar.Symbol.nonterminal.inj hsymbol
    obtain ⟨hparts, hnothing⟩ := Derivation.pieces_of_treesOfAll children hwell.2
      (Derivation.body_without_recipe hwell.1) hwords
    unfold parse at htree
    rw [h] at htree
    obtain rfl := Except.ok.inj htree
    simp [ofTree, pieceOfTree, Derivation.ofName?_name, partOf, Piece.of, hparts,
      hnothing, statementsOf, Derivation.tokens, String.length_toList]

theorem ofText_of_parse {filename : String} {tree : Tree} (h : parse text filename = .ok tree) :
    ofText text filename = ofTree tree text := by
  unfold ofText
  rw [h]

/-- A text that is read gives a recipe, and nothing is wrong with it. -/
theorem ofText_read (h : derive text = .ok derivation) (filename : String) :
    ofText text filename =
      ⟨⟨statementsOf derivation,
        some ((Derivation.spanOf derivation.tokens).getD ⟨0, text.length⟩)⟩, []⟩ := by
  obtain ⟨-, -, hplaced⟩ := derive_sound h
  obtain ⟨tree, htree⟩ : ∃ tree, parse text filename = .ok tree := by
    unfold parse
    cases htrees : derivation.trees <;> simp [h, htrees]
  rw [ofText_of_parse htree]
  exact ofTree_read h htree text fun token htoken =>
    Derivation.wordText_ofToken (hplaced token htoken)

/-- Texts with derivations that are the same to a change of words that is not seen give the same
statements, but for what the move of extents takes away. -/
theorem statementsOf_alike {label : Token → Token} {move : Option Span → Option Span}
    (h : Derivation.Unseen label move) (hsame : derivation.relabel label = other.relabel label) :
    Node.allMoved move (statementsOf derivation) = Node.allMoved move (statementsOf other) := by
  have hparts : ∀ derivation : Derivation,
      Node.allMoved move (statementsOf (derivation.relabel label)) =
        Node.allMoved move (statementsOf derivation) := by
    intro derivation
    cases derivation with
    | leaf token => rfl
    | node head children =>
      have hchildren := congrArg (List.filterMap Part.node?)
        (Derivation.partsOfAll_relabel h children)
      rw [Part.filterMap_seen Part.node?_seen, Part.filterMap_seen Part.node?_seen,
        ← Node.allMoved_eq_map, ← Node.allMoved_eq_map] at hchildren
      exact hchildren
  rw [← hparts derivation, hsame, hparts other]

/-- Texts of one length with words that only differ in their lines and columns are the same recipe
at the same places. -/
theorem ofText_unlined {further : String} (h : derive text = .ok derivation)
    (h' : derive further = .ok other)
    (hsame : derivation.relabel Token.unlined = other.relabel Token.unlined)
    (hlength : text.length = further.length) (filename : String) :
    ofText text filename = ofText further filename := by
  have hstatements := statementsOf_alike Derivation.unseen_unlined hsame
  rw [Node.allMoved_id, Node.allMoved_id] at hstatements
  have hspans := congrArg (fun derivation => Derivation.spanOf derivation.tokens) hsame
  rw [Derivation.tokens_relabel, Derivation.tokens_relabel] at hspans
  have hextents : Derivation.spanOf derivation.tokens = Derivation.spanOf other.tokens := by
    have hkept := Derivation.unseen_unlined.extent
    simp only [id_eq] at hkept
    rw [← hkept derivation.tokens, hspans, hkept other.tokens]
  rw [ofText_read h, ofText_read h', hstatements, hextents, hlength]

/-- Texts whose words only differ in their places are the same recipe, but for where its nodes
stand. -/
theorem ofText_bare {further : String} (h : derive text = .ok derivation)
    (h' : derive further = .ok other)
    (hsame : derivation.relabel Token.bare = other.relabel Token.bare) (filename : String) :
    (ofText text filename).recipe.toNode.cleared =
        (ofText further filename).recipe.toNode.cleared ∧
      (ofText text filename).diagnostics = [] ∧ (ofText further filename).diagnostics = [] := by
  have hstatements := statementsOf_alike Derivation.unseen_bare hsame
  rw [Node.allMoved_none, Node.allMoved_none] at hstatements
  rw [ofText_read h, ofText_read h']
  exact ⟨congrArg (Node.recipe · none) hstatements, rfl, rfl⟩

/-- Whether a text is a recipe shows by its derivation. -/
theorem parse_ok_iff {filename : String} :
    (∃ tree, parse text filename = .ok tree) ↔ ∃ derivation, derive text = .ok derivation := by
  unfold parse
  cases hderive : derive text with
  | error rejection => simp
  | ok derivation => cases htrees : derivation.trees <;> simp [htrees]

theorem parse_ok_of_isSome {filename : String} (h : (derive text).toOption.isSome = true) :
    ∃ tree, parse text filename = .ok tree := by
  rw [parse_ok_iff]
  cases hderive : derive text with
  | ok derivation => exact ⟨derivation, rfl⟩
  | error rejection =>
    rw [hderive] at h
    cases h

end Read

end RecipeGraph.Recipe
