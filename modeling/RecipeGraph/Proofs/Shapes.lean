import RecipeGraph.Proofs.Rendering
import RecipeGraph.Proofs.Writing

/-!
How the parts are arranged that a rule takes over from its children. The definition of a rule says
in which order its parts come and of which kinds they are, and so it says what the rule makes of
them. This is gathered in one relation, with a constructor for each way in which a rule is read.
-/
namespace RecipeGraph.Grammar

open Source Recipe Recipe.Part

/-- The parts that a reading hands to the rule above it. -/
def Reading.parts {pattern : Pattern} : Reading pattern → List Part
  | @word terminal token _ | @mark terminal token _ =>
      if terminal.isKept then [.word (.ofToken token)] else []
  | @name (.rule rule) inner => [made rule inner.parts (Derivation.spanOf inner.tokens)]
  | name inner | first inner | second inner => inner.parts
  | both left right => left.parts ++ right.parts
  | present reading => reading.parts
  | absent | empty => []
  | filled items => items.parts
  | once item => item.parts
  | further items item => items.parts ++ item.parts

namespace Reading

variable {terminal : Terminal} {rule : Rule} {first second inner : Pattern}

@[simp] theorem parts_word (token : Token) (hkind : token.kind = terminal) :
    (word token hkind).parts = if terminal.isKept then [.word (.ofToken token)] else [] :=
  rfl

@[simp] theorem parts_mark (token : Token) (hkind : token.kind = terminal) :
    (mark token hkind).parts = if terminal.isKept then [.word (.ofToken token)] else [] :=
  rfl

@[simp] theorem parts_rule (inner : Reading (definition (.rule rule))) :
    (name inner).parts = [made rule inner.parts (Derivation.spanOf inner.tokens)] :=
  rfl

@[simp] theorem parts_both (left : Reading first) (right : Reading second) :
    (both left right).parts = left.parts ++ right.parts :=
  rfl

@[simp] theorem parts_present (reading : Reading inner) :
    (present reading).parts = reading.parts :=
  rfl

@[simp] theorem parts_further (items : Reading (.atLeastOnce inner)) (item : Reading inner) :
    (further items item).parts = items.parts ++ item.parts :=
  rfl

end Reading

theorem Reading.partsOfAll_derivations {pattern : Pattern} (reading : Reading pattern) :
    Derivation.partsOfAll reading.derivations = reading.parts := by
  induction reading with
  | word token hkind | mark token hkind =>
    rw [derivations, partsOfAll_single, Derivation.parts, hkind, parts]
  | absent | empty => rfl
  | @name head inner ih =>
    rw [derivations, partsOfAll_single]
    cases head with
    | rule rule =>
      change [made rule (Derivation.partsOfAll inner.derivations)
        (Derivation.spanOf (Derivation.tokensOfAll inner.derivations))] = _
      rw [ih, tokensOfAll_derivations, parts]
    | _ => exact ih
  | both left right ih ih' => rw [derivations, partsOfAll_append, ih, ih', parts]
  | first _ ih | second _ ih | present _ ih | filled _ ih => exact ih
  | once item ih => rw [derivations, partsOfAll_single, parts_helper, ih, parts]
  | further items item ih ih' =>
    rw [derivations, partsOfAll_single, parts_helper, partsOfAll_append, ih, ih', parts]

/-- Nothing but nodes of a kind comes of a pattern. -/
def Pattern.Gives (kind : Node → Bool) (pattern : Pattern) : Prop :=
  ∀ reading : Reading pattern,
    ∃ nodes : List Node, reading.parts = nodes.map .node ∧ ∀ node ∈ nodes, kind node = true

namespace Pattern.Gives

variable {kind : Node → Bool} {first second inner : Pattern} {terminal : Terminal}

theorem word (h : terminal.isKept = false) : (Pattern.word terminal).Gives kind
  | .word _ _ => ⟨[], by simp [h], by simp⟩

theorem mark (h : terminal.isKept = false) : (Pattern.mark terminal).Gives kind
  | .mark _ _ => ⟨[], by simp [h], by simp⟩

theorem both (h : first.Gives kind) (h' : second.Gives kind) : (first ++ second).Gives kind
  | .both left right => by
    obtain ⟨nodes, hparts, hkind⟩ := h left
    obtain ⟨others, hparts', hkind'⟩ := h' right
    refine ⟨nodes ++ others, by rw [Reading.parts_both, hparts, hparts', List.map_append], ?_⟩
    exact List.forall_mem_append.mpr ⟨hkind, hkind'⟩

theorem either (h : first.Gives kind) (h' : second.Gives kind) : (first ||| second).Gives kind
  | .first inner => h inner
  | .second inner => h' inner

theorem optional (h : inner.Gives kind) : (Pattern.optional inner).Gives kind
  | .present reading => h reading
  | .absent => ⟨[], rfl, by simp⟩

theorem atLeastOnce (h : inner.Gives kind) : (Pattern.atLeastOnce inner).Gives kind
  | .once item => h item
  | .further items item => by
    obtain ⟨nodes, hparts, hkind⟩ := atLeastOnce h items
    obtain ⟨others, hparts', hkind'⟩ := h item
    refine ⟨nodes ++ others, by rw [Reading.parts_further, hparts, hparts', List.map_append], ?_⟩
    exact List.forall_mem_append.mpr ⟨hkind, hkind'⟩

theorem repeated (h : inner.Gives kind) : (Pattern.repeated inner).Gives kind
  | .empty => ⟨[], rfl, by simp⟩
  | .filled items => atLeastOnce h items

/-- Every rule that makes a node of the kind gives one. -/
theorem rule {rule : Rule}
    (h : ∀ parts extent, ∃ node : Node, made rule parts extent = .node node ∧ kind node = true) :
    (Pattern.name (.rule rule)).Gives kind
  | .name inner => by
    obtain ⟨node, hmade, hkind⟩ := h inner.parts (Derivation.spanOf inner.tokens)
    exact ⟨[node], by simp [hmade], by simpa using hkind⟩

end Pattern.Gives

section Kinds

open Node Pattern

theorem gives_separator (kind : Node → Bool) : (name .separator).Gives kind
  | .name inner => Gives.either (.word rfl) (.mark rfl) inner

theorem gives_value : (name .value).Gives isArgument
  | .name inner => by
    have hcall : (name (.rule .call)).Gives isArgument := .rule fun _ _ => ⟨_, rfl, rfl⟩
    have hreference : (name (.rule .reference)).Gives isArgument := .rule fun _ _ => ⟨_, rfl, rfl⟩
    exact hcall.either hreference inner

theorem gives_statement : (name .statement).Gives isStatement
  | .name inner => by
    have hcall : (name (.rule .call)).Gives isStatement := .rule fun _ _ => ⟨_, rfl, rfl⟩
    have hassignment : (name (.rule .assignment)).Gives isStatement :=
      .rule fun _ _ => ⟨_, rfl, rfl⟩
    have hreference : (name (.rule .reference)).Gives isStatement := .rule fun _ _ => ⟨_, rfl, rfl⟩
    have hscope : (name (.rule .scope)).Gives isStatement := .rule fun _ _ => ⟨_, rfl, rfl⟩
    have hpackage : (name (.rule .package)).Gives isStatement := .rule fun _ _ => ⟨_, rfl, rfl⟩
    have hnamed : (name (.rule .namedStyle)).Gives isStatement := .rule fun _ _ => ⟨_, rfl, rfl⟩
    have hbinding : (name (.rule .styleBinding)).Gives isStatement := .rule fun _ _ => ⟨_, rfl, rfl⟩
    exact ((((((hcall.either hassignment).either hreference).either hscope).either hpackage).either
      hnamed).either hbinding) inner

theorem gives_statements : statementLines.Gives isStatement :=
  .both (.repeated (.both (.optional gives_statement) (gives_separator _)))
    (.optional gives_statement)

theorem gives_target : (name (.rule .target)).Gives isTarget :=
  .rule fun _ _ => ⟨_, rfl, rfl⟩

end Kinds

end RecipeGraph.Grammar

namespace RecipeGraph.Recipe

open Source Grammar Relation

/-- The list of the values of a call or a scope. -/
def Node.ofValues (list : List Node × Option Span) : Node :=
  .valueList list.1 list.2

/-- What a rule makes of parts that are arranged as in its definition. -/
inductive Part.Makes (extent : Option Span) : List Part → Part → Prop
  | recipe (statements : List Node) (h : ∀ node ∈ statements, node.isStatement = true) :
      Makes extent (statements.map .node) (.node (.recipe statements extent))
  | body (statements : List Node) (h : ∀ node ∈ statements, node.isStatement = true) :
      Makes extent (statements.map .node) (.node (.statementList statements extent))
  | argList (values : List Node) (h : ∀ node ∈ values, node.isArgument = true) :
      Makes extent (values.map .node) (.node (.valueList values extent))
  | call (leaf : Leaf) (args : Option (List Node × Option Span)) (styling : Option Node)
      (h : ∀ style ∈ styling, style.isStyle = true) :
      Makes extent
        (.word leaf ::
          ((args.map Node.ofValues).toList ++ styling.toList).map .node)
        (.node (.call leaf.text ((args.map (·.1)).getD []) styling extent))
  | assignment (first : Node) (targets : List Node) (value : Node)
      (h : ∀ target ∈ first :: targets, target.isTarget = true)
      (hvalue : value.isRightSide = true) :
      Makes extent ((first :: targets ++ [value]).map .node)
        (.node (.assignment (first :: targets) (some value) extent))
  | target (leaf : Leaf) (styling : Option Node) (h : ∀ style ∈ styling, style.isStyle = true) :
      Makes extent (.word leaf :: styling.toList.map .node)
        (.node (.target leaf.text styling extent))
  | reference (name : String) (names : Path) :
      Makes extent [.path (name :: names)] (.node (.variable (name :: names) extent))
  | qualifiedName (leaf : Leaf) (words : List Part) :
      Makes extent (.word leaf :: words) (.path (leaf.text :: words.map Part.text))
  | scope (leaf : Option Leaf) (body : List Node) (place : Option Span)
      (args : Option (List Node × Option Span)) (styling : Option Node)
      (h : ∀ style ∈ styling, style.isStyle = true) :
      Makes extent
        (leaf.toList.map .word ++
          (.statementList body place ::
            ((args.map Node.ofValues).toList ++ styling.toList)).map .node)
        (.node (.scope ((leaf.map (·.text)).getD "") body place ((args.map (·.1)).getD [])
          (args.bind (·.2)) styling extent))
  | package (parts : List Part) (location : String) (label : Option String) :
      Makes extent parts (.node (.package location label extent))
  | namedStyle (leaf : Leaf) (styling : Option Node) (h : ∀ style ∈ styling, style.isStyle = true) :
      Makes extent (.word leaf :: styling.toList.map .node)
        (.node (.namedStyle leaf.text (styling.getD (.style {} [] none)) extent))
  | styleBinding (leaf : Leaf) (tags : Option (List Node)) :
      Makes extent (.word leaf :: tags.toList.map .tags)
        (.node (.styleBinding leaf.text (tags.getD []) extent))
  | styleBlock (parts : List Part) (properties : OrderedMap String) :
      Makes extent parts (.node (.style properties (parts.filterMap Part.styleTag?) extent))
  | tagBlock (parts : List Part) : Makes extent parts (.tags (parts.filterMap Part.styleTag?))
  | styleTag (name : String) (names : Path) :
      Makes extent [.path (name :: names)] (.node (.styleTag (name :: names) extent))
  | property (parts : List Part) (name content : String) :
      Makes extent parts (.property name content)
  | value (parts : List Part) (text : String) : Makes extent parts (.value text)
  | description (parts : List Part) (text : String) : Makes extent parts (.description text)

namespace Part

variable {extent : Option Span}

theorem filterMap_node? (nodes : List Node) : (nodes.map Part.node).filterMap node? = nodes := by
  rw [List.filterMap_map]
  exact List.filterMap_some

theorem eq_style {styling : Option Node} (h : ∀ style ∈ styling, style.isStyle = true) :
    styling = none ∨ ∃ properties tags place, styling = some (.style properties tags place) := by
  cases styling with
  | none => exact Or.inl rfl
  | some style =>
    have hstyle : style.isStyle = true := h style rfl
    cases style with
    | style properties tags place => exact Or.inr ⟨properties, tags, place, rfl⟩
    | _ => cases hstyle

theorem parts_args : ∀ reading : Reading (.optional (.name (.rule .argList))),
    ∃ args : Option (List Node × Option Span), reading.parts =
      (args.map Node.ofValues).toList.map .node
  | .present (.name _) => ⟨some (_, _), rfl⟩
  | .absent => ⟨none, rfl⟩

theorem parts_style : ∀ reading : Reading (.optional (.name (.rule .styleBlock))),
    ∃ styling : Option Node, reading.parts = styling.toList.map .node ∧
      ∀ style ∈ styling, style.isStyle = true
  | .present (.name _) => ⟨some _, rfl, by rintro _ ⟨⟩; rfl⟩
  | .absent => ⟨none, rfl, by simp⟩

theorem parts_target : ∀ reading : Reading (.name (.rule .target)),
    ∃ target : Node, reading.parts = [node target] ∧ target.isTarget = true
  | .name _ => ⟨_, rfl, rfl⟩

theorem parts_body : ∀ reading : Reading (.name (.rule .body)),
    ∃ statements place, reading.parts = [node (.statementList statements place)]
  | .name _ => ⟨_, _, rfl⟩

theorem parts_rightSide : ∀ reading : Reading (.name .rightSide),
    ∃ value : Node, reading.parts = [node value] ∧ value.isRightSide = true
  | .name (.first (.first (.first (.name _)))) => ⟨_, rfl, rfl⟩
  | .name (.first (.first (.second (.name _)))) => ⟨_, rfl, rfl⟩
  | .name (.first (.second (.name _))) => ⟨_, rfl, rfl⟩
  | .name (.second (.name _)) => ⟨_, rfl, rfl⟩

theorem parts_parens : ∀ reading : Reading (.optional
    (.word .leftParen ++ .optional (.name (.rule .argList)) ++ .word .rightParen)),
    ∃ args : Option (List Node × Option Span),
      reading.parts = (args.map Node.ofValues).toList.map node
  | .present (.both (.both (.word _ _) args) (.word _ _)) => by
    obtain ⟨args, hargs⟩ := parts_args args
    exact ⟨args, by simp [Terminal.isKept, hargs]⟩
  | .absent => ⟨none, rfl⟩

theorem parts_label : ∀ reading : Reading (.optional (.word .identifier)),
    ∃ leaf : Option Leaf, reading.parts = leaf.toList.map word
  | .present (.word token _) => ⟨some (.ofToken token), rfl⟩
  | .absent => ⟨none, rfl⟩

theorem parts_tags : ∀ reading : Reading (.optional (.name (.rule .tagBlock))),
    ∃ referred : Option (List Node), reading.parts = referred.toList.map tags
  | .present (.name _) => ⟨some _, rfl⟩
  | .absent => ⟨none, rfl⟩

theorem made_call (leaf : Leaf) (args : Option (List Node × Option Span)) {styling : Option Node}
    (h : ∀ style ∈ styling, style.isStyle = true) :
    made .call (word leaf :: ((args.map Node.ofValues).toList ++ styling.toList).map node) extent =
      node (.call leaf.text ((args.map (·.1)).getD []) styling extent) := by
  rcases eq_style h with rfl | ⟨properties, tags, place, rfl⟩ <;> cases args <;> rfl

theorem made_scope (leaf : Option Leaf) (body : List Node) (place : Option Span)
    (args : Option (List Node × Option Span)) {styling : Option Node}
    (h : ∀ style ∈ styling, style.isStyle = true) :
    made .scope (leaf.toList.map word ++
        (.statementList body place ::
          ((args.map Node.ofValues).toList ++ styling.toList)).map node) extent =
      node (.scope ((leaf.map (·.text)).getD "") body place ((args.map (·.1)).getD [])
        (args.bind (·.2)) styling extent) := by
  rcases eq_style h with rfl | ⟨properties, tags, place, rfl⟩ <;> cases args <;> cases leaf <;> rfl

theorem made_named (leaf : Leaf) {styling : Option Node}
    (h : ∀ style ∈ styling, style.isStyle = true) :
    made .target (word leaf :: styling.toList.map node) extent =
        node (.target leaf.text styling extent) ∧
      made .namedStyle (word leaf :: styling.toList.map node) extent =
        node (.namedStyle leaf.text (styling.getD (.style {} [] none)) extent) := by
  rcases eq_style h with rfl | ⟨properties, tags, place, rfl⟩ <;> exact ⟨rfl, rfl⟩

theorem made_assignment {targets : List Node} {value : Node}
    (h : ∀ target ∈ targets, target.isTarget = true) (hvalue : value.isRightSide = true) :
    made .assignment ((targets ++ [value]).map node) extent =
      node (.assignment targets (some value) extent) := by
  have htarget : ∀ target ∈ targets, target? (node target) = some target ∧
      rightSide? (node target) = none := by
    intro target hin
    have hkind := h target hin
    cases target <;> first | exact ⟨rfl, rfl⟩ | cases hkind
  have hright : target? (node value) = none ∧ rightSide? (node value) = some value := by
    cases value <;> first | exact ⟨rfl, rfl⟩ | cases hvalue
  have htargets : ((targets ++ [value]).map node).filterMap target? = targets := by
    have hnone : [node value].filterMap target? = [] := by simp [hright.1]
    rw [List.map_append, List.filterMap_append, List.filterMap_map, List.map_singleton, hnone,
      List.append_nil]
    exact (List.filterMap_congr fun target hin => (htarget target hin).1).trans List.filterMap_some
  have hlast : lastOf rightSide? ((targets ++ [value]).map node) = some value := by
    simp [lastOf, List.filterMap_append, hright.2]
  unfold made
  dsimp only
  rw [htargets, hlast]

section Makes

theorem Makes.of_eq {rule : Rule} {parts arranged : List Part} {part : Part}
    (hparts : parts = arranged) (hmade : made rule arranged extent = part)
    (h : Makes extent arranged part) : Makes extent parts (made rule parts extent) := by
  rw [hparts, hmade]
  exact h

theorem makes_call : ∀ reading : Reading (definition (.rule .call)),
    Makes extent reading.parts (made .call reading.parts extent)
  | .both (.both (.both (.both (.word token _) (.word _ _)) args) (.word _ _)) style => by
    obtain ⟨given, hargs⟩ := parts_args args
    obtain ⟨styling, hstyling, hstyle⟩ := parts_style style
    refine .of_eq ?_ (made_call (.ofToken token) given hstyle) (.call _ given styling hstyle)
    change [word (.ofToken token)] ++ [] ++ args.parts ++ [] ++ style.parts = _
    simp [hargs, hstyling]

theorem makes_assignment : ∀ reading : Reading (definition (.rule .assignment)),
    Makes extent reading.parts (made .assignment reading.parts extent)
  | .both (.both (.both first more) (.mark _ _)) right => by
    obtain ⟨target, hparts, hfirst⟩ := parts_target first
    have hsign : (Pattern.mark .comma).Gives Node.isTarget := .mark rfl
    obtain ⟨targets, hmore, htargets⟩ := (hsign.both gives_target).repeated more
    obtain ⟨value, hright, hvalue⟩ := parts_rightSide right
    have hall : ∀ left ∈ target :: targets, left.isTarget = true :=
      List.forall_mem_cons.mpr ⟨hfirst, htargets⟩
    refine .of_eq ?_ (made_assignment hall hvalue) (.assignment target targets value hall hvalue)
    change first.parts ++ more.parts ++ [] ++ right.parts = _
    simp [hparts, hmore, hright]

theorem makes_scope : ∀ reading : Reading (definition (.rule .scope)),
    Makes extent reading.parts (made .scope reading.parts extent)
  | .both (.both (.both (.both (.both label (.word _ _)) body) (.word _ _)) args) style => by
    obtain ⟨leaf, hlabel⟩ := parts_label label
    obtain ⟨statements, place, hbody⟩ := parts_body body
    obtain ⟨given, hargs⟩ := parts_parens args
    obtain ⟨styling, hstyling, hstyle⟩ := parts_style style
    refine .of_eq ?_ (made_scope leaf statements place given hstyle)
      (.scope leaf statements place given styling hstyle)
    change label.parts ++ [] ++ body.parts ++ [] ++ args.parts ++ style.parts = _
    simp [hlabel, hbody, hargs, hstyling]

theorem makes_target : ∀ reading : Reading (definition (.rule .target)),
    Makes extent reading.parts (made .target reading.parts extent)
  | .both (.word token _) style => by
    obtain ⟨styling, hstyling, hstyle⟩ := parts_style style
    refine .of_eq ?_ (made_named (.ofToken token) hstyle).1 (.target _ styling hstyle)
    change [word (.ofToken token)] ++ style.parts = _
    simp [hstyling]

theorem makes_namedStyle : ∀ reading : Reading (definition (.rule .namedStyle)),
    Makes extent reading.parts (made .namedStyle reading.parts extent)
  | .both (.both (.mark _ _) (.word token _)) style => by
    obtain ⟨styling, hstyling, hstyle⟩ := parts_style style
    refine .of_eq ?_ (made_named (.ofToken token) hstyle).2 (.namedStyle _ styling hstyle)
    change [] ++ [word (.ofToken token)] ++ style.parts = _
    simp [hstyling]

theorem makes_styleBinding : ∀ reading : Reading (definition (.rule .styleBinding)),
    Makes extent reading.parts (made .styleBinding reading.parts extent)
  | .both (.both (.mark _ _) (.word token _)) block => by
    obtain ⟨referred, hreferred⟩ := parts_tags block
    refine .of_eq ?_ ?_ (.styleBinding (.ofToken token) referred)
    · change [] ++ [word (.ofToken token)] ++ block.parts = _
      simp [hreferred]
    · cases referred <;> rfl

theorem makes_reference : ∀ reading : Reading (definition (.rule .reference)),
    Makes extent reading.parts (made .reference reading.parts extent)
  | .name (.both (.word _ _) _) => .reference _ _

theorem makes_styleTag : ∀ reading : Reading (definition (.rule .styleTag)),
    Makes extent reading.parts (made .styleTag reading.parts extent)
  | .both (.mark _ _) (.name (.both (.word _ _) _)) => .styleTag _ _

theorem makes_qualifiedName : ∀ reading : Reading (definition (.rule .qualifiedName)),
    Makes extent reading.parts (made .qualifiedName reading.parts extent)
  | .both (.word _ _) _ => .qualifiedName _ _

/-- What a rule makes of what it is read from. -/
theorem makes (rule : Rule) (reading : Reading (definition (.rule rule))) :
    Makes extent reading.parts (made rule reading.parts extent) := by
  cases rule with
  | recipe =>
    obtain ⟨nodes, hparts, hkind⟩ := gives_statements reading
    refine .of_eq hparts ?_ (.recipe nodes hkind)
    simp only [made, filterMap_node?]
  | body =>
    obtain ⟨nodes, hparts, hkind⟩ := gives_statements reading
    refine .of_eq hparts ?_ (.body nodes hkind)
    simp only [made, filterMap_node?]
  | argList =>
    have hsign : (Pattern.mark .comma).Gives Node.isArgument := .mark rfl
    obtain ⟨nodes, hparts, hkind⟩ := gives_value.both (hsign.both gives_value).repeated reading
    refine .of_eq hparts ?_ (.argList nodes hkind)
    simp only [made, filterMap_node?]
  | call => exact makes_call reading
  | assignment => exact makes_assignment reading
  | scope => exact makes_scope reading
  | target => exact makes_target reading
  | namedStyle => exact makes_namedStyle reading
  | styleBinding => exact makes_styleBinding reading
  | reference => exact makes_reference reading
  | styleTag => exact makes_styleTag reading
  | qualifiedName => exact makes_qualifiedName reading
  | package => exact .package _ _ _
  | styleBlock => exact .styleBlock _ _
  | tagBlock => exact .tagBlock _
  | property => exact .property _ _ _
  | propertyValue => exact .value _ _
  | description => exact .description _ _

end Makes

end Part

namespace Node

/-- The nodes below a node, itself included. -/
def Reaches : Node → Node → Prop :=
  ReflTransGen fun node child => child ∈ node.children

/-- What stands in the places of a node is of the kinds that belong there. -/
def IsProper : Node → Prop
  | recipe statements _ | statementList statements _ =>
      ∀ node ∈ statements, node.isStatement = true
  | valueList values _ => ∀ node ∈ values, node.isArgument = true
  | call _ args _ _ => ∀ node ∈ args, node.isArgument = true
  | scope _ body _ args _ _ _ =>
      (∀ node ∈ body, node.isStatement = true) ∧ ∀ node ∈ args, node.isArgument = true
  | assignment targets value _ => targets ≠ [] ∧ ∃ right ∈ value, right.isRightSide = true
  | .variable path _ | styleTag path _ => path ≠ []
  | _ => True

theorem reaches_iff {node below : Node} :
    node.Reaches below ↔ below = node ∨ ∃ child ∈ node.children, child.Reaches below :=
  ReflTransGen.cases_head_iff.trans (or_congr_left eq_comm)

/-- Something holds of a node and of all that is below it. -/
def Throughout (P : Node → Prop) (node : Node) : Prop :=
  ∀ below, node.Reaches below → P below

theorem throughout_iff {P : Node → Prop} {node : Node} :
    node.Throughout P ↔ P node ∧ ∀ child ∈ node.children, child.Throughout P := by
  constructor
  · intro h
    refine ⟨h node .refl, fun child hchild below hbelow => ?_⟩
    exact h below (reaches_iff.mpr (Or.inr ⟨child, hchild, hbelow⟩))
  · rintro ⟨hnode, hchildren⟩ below hbelow
    rcases reaches_iff.mp hbelow with rfl | ⟨child, hchild, hreaches⟩
    · exact hnode
    · exact hchildren child hchild below hreaches

theorem Throughout.child {P : Node → Prop} {node below : Node} (h : node.Throughout P)
    (hbelow : below ∈ node.children) : below.Throughout P :=
  (throughout_iff.mp h).2 below hbelow

/-- What stands in the place of values or a style that are not there. -/
inductive IsBlank : Node → Prop
  | values : IsBlank (.valueList [] none)
  | style : IsBlank (.style {} [] none)

theorem IsBlank.children {node : Node} (h : IsBlank node) : node.children = [] := by
  cases h <;> rfl

theorem IsBlank.extent {node : Node} (h : IsBlank node) : node.extent = none := by
  cases h <;> rfl

theorem IsBlank.proper {node : Node} (h : IsBlank node) : node.IsProper := by
  cases h <;> simp [IsProper]

/-- What has to be shown of a property of lists of nodes that the children of a node have if the
nodes have it that the node is made from. -/
structure Gathered (Q : List Node → Prop) : Prop where
  sublist : ∀ {nodes kept}, Q nodes → kept.Sublist nodes → Q kept
  spread : ∀ {values extent rest}, Q (.valueList values extent :: rest) → Q (values ++ rest)
  blank : ∀ {before node after}, Q (before ++ after) → IsBlank node → Q (before ++ node :: after)

end Node

namespace Part

/-- The nodes in a part. -/
def nodes : Part → List Node
  | node made => [made]
  | tags made => made
  | _ => []

/-- The nodes right below a part. -/
def inner : Part → List Node
  | node made => made.children
  | tags made => made
  | _ => []

variable {extent : Option Span} {parts : List Part} {part : Part} {Q : List Node → Prop}

theorem flatMap_nodes (made : List Node) : (made.map node).flatMap nodes = made := by
  simp [List.flatMap_map, nodes]

theorem shown_style {styling : Option Node} (h : ∀ style ∈ styling, style.isStyle = true) :
    Node.shown styling = styling := by
  rcases eq_style h with rfl | ⟨properties, referred, place, rfl⟩ <;> rfl

theorem styleTags_sublist (parts : List Part) :
    (parts.filterMap styleTag?).Sublist (parts.flatMap nodes) := by
  induction parts with
  | nil => exact List.Sublist.slnil
  | cons part rest ih =>
    have hfirst : ([part].filterMap styleTag?).Sublist part.nodes := by
      cases part with
      | node made => cases made <;> simp [styleTag?, nodes]
      | _ => exact List.nil_sublist _
    rw [← List.singleton_append, List.filterMap_append, List.flatMap_append, List.flatMap_singleton]
    exact hfirst.append ih

theorem flatMap_word (leaf : Leaf) (made : List Node) :
    (word leaf :: made.map node).flatMap nodes = made := by
  rw [List.flatMap_cons, flatMap_nodes]
  rfl

/-- What is right below a part was in the parts that it was made from, in the same order. -/
theorem Makes.inner (hQ : Node.Gathered Q) (h : Makes extent parts part)
    (hparts : Q (parts.flatMap nodes)) : Q part.inner := by
  cases h with
  | recipe statements h | body statements h | argList values h => rwa [flatMap_nodes] at hparts
  | call leaf args styling h =>
    rw [flatMap_word] at hparts
    change Q ((args.map (·.1)).getD [] ++ (Node.shown styling).toList)
    rw [shown_style h]
    cases args with
    | none => exact hparts
    | some list => exact hQ.spread hparts
  | assignment first targets value h hvalue =>
    have hshown : Node.shown (some value) = some value := by
      cases value <;> first | rfl | cases hvalue
    rw [flatMap_nodes] at hparts
    change Q (first :: targets ++ (Node.shown (some value)).toList)
    rwa [hshown]
  | target leaf styling h =>
    rw [flatMap_word] at hparts
    change Q (Node.shown styling).toList
    rwa [shown_style h]
  | scope leaf body place args styling h =>
    have hleaf : (leaf.toList.map word).flatMap nodes = [] := by cases leaf <;> rfl
    rw [List.flatMap_append, hleaf, flatMap_nodes, List.nil_append] at hparts
    change Q ([.statementList body place, .valueList _ _] ++ (Node.shown styling).toList)
    rw [shown_style h]
    cases args with
    | none =>
      change Q ([.statementList body place] ++ styling.toList) at hparts
      exact hQ.blank hparts .values
    | some list => exact hparts
  | namedStyle leaf styling h =>
    rw [flatMap_word] at hparts
    cases styling with
    | none =>
      have hnone : Q ([] ++ []) := hparts
      exact hQ.blank hnone .style
    | some style => exact hparts
  | styleBinding leaf referred =>
    cases referred with
    | none => exact hparts
    | some tags => rwa [List.flatMap_cons, Option.toList_some, List.map_singleton,
        List.flatMap_singleton] at hparts
  | styleBlock | tagBlock => exact hQ.sublist hparts (styleTags_sublist _)
  | _ => exact hQ.sublist hparts (List.nil_sublist _)

/-- Everything is in its place in a part if so it is in the parts that it was made from. -/
theorem Makes.proper (h : Makes extent parts part)
    (hparts : ∀ made ∈ parts.flatMap nodes, made.IsProper) {made : Node}
    (hmade : part = node made) : made.IsProper := by
  cases h with
  | recipe statements h | body statements h | argList values h =>
    cases hmade
    exact h
  | call leaf args styling h =>
    cases hmade
    cases args with
    | none => simp [Node.IsProper]
    | some list => exact hparts (.valueList list.1 list.2) (by simp [Node.ofValues, nodes])
  | assignment first targets value h hvalue =>
    cases hmade
    exact ⟨List.cons_ne_nil _ _, value, rfl, hvalue⟩
  | scope leaf body place args styling h =>
    cases hmade
    refine ⟨hparts (.statementList body place) (by simp [nodes]), ?_⟩
    cases args with
    | none => simp
    | some list => exact hparts (.valueList list.1 list.2) (by simp [Node.ofValues, nodes])
  | reference name names | styleTag name names =>
    cases hmade
    exact List.cons_ne_nil _ _
  | target | package | namedStyle | styleBinding | styleBlock =>
    cases hmade
    trivial
  | _ => cases hmade

end Part

section Throughout

variable {P : Node → Prop}

theorem gathered_throughout (hblank : ∀ node, Node.IsBlank node → P node) :
    Node.Gathered fun nodes => ∀ node ∈ nodes, node.Throughout P where
  sublist h hkept node hin := h node (hkept.subset hin)
  spread {values extent rest} h node hin := by
    rw [List.forall_mem_cons] at h
    rcases List.mem_append.mp hin with hvalue | hrest
    · exact h.1.child hvalue
    · exact h.2 node hrest
  blank {before blank after} h hnode node hin := by
    rw [List.mem_append, List.mem_cons] at hin
    rcases hin with hbefore | rfl | hafter
    · exact h node (List.mem_append_left _ hbefore)
    · exact Node.throughout_iff.mpr ⟨hblank node hnode, by simp [hnode.children]⟩
    · exact h node (List.mem_append_right _ hafter)

/-- Something holds throughout all that is read if it holds of what every rule makes of its words,
out of parts that it holds of. -/
theorem throughout_parts_of_words (Words : List Token → Prop)
    (hsplit : ∀ {words more}, Words (words ++ more) → Words words ∧ Words more)
    (hblank : ∀ node, Node.IsBlank node → P node)
    (hmade : ∀ (rule : Rule) (reading : Reading (definition (.rule rule))) (made : Node),
      Words reading.tokens →
      Part.made rule reading.parts (Derivation.spanOf reading.tokens) = .node made →
        (∀ node ∈ reading.parts.flatMap Part.nodes, P node) → P made)
    {pattern : Pattern} (reading : Reading pattern) (hwords : Words reading.tokens) :
    ∀ node ∈ reading.parts.flatMap Part.nodes, node.Throughout P := by
  induction reading with
  | word token hkind | mark token hkind =>
    unfold Reading.parts
    split <;> simp [Part.nodes]
  | @name head inner ih =>
    cases head with
    | rule rule =>
      rw [Reading.parts_rule, List.flatMap_singleton]
      have hmakes : Part.Makes (Derivation.spanOf inner.tokens) inner.parts
          (Part.made rule inner.parts (Derivation.spanOf inner.tokens)) := Part.makes rule inner
      have hinner := hmakes.inner (gathered_throughout hblank) (ih hwords)
      cases hpart : Part.made rule inner.parts (Derivation.spanOf inner.tokens) with
      | node made =>
        rw [hpart] at hinner
        have hnode := hmade rule inner made hwords hpart
          fun node hin => ih hwords node hin node .refl
        simpa [Part.nodes] using Node.throughout_iff.mpr ⟨hnode, hinner⟩
      | tags made =>
        rw [hpart] at hinner
        exact hinner
      | _ => simp [Part.nodes]
    | _ => exact ih hwords
  | both left right ih ih' | further left right ih ih' =>
    rw [Reading.parts, List.flatMap_append]
    exact List.forall_mem_append.mpr ⟨ih (hsplit hwords).1, ih' (hsplit hwords).2⟩
  | first _ ih | second _ ih | present _ ih | filled _ ih | once _ ih => exact ih hwords
  | absent | empty => simp [Reading.parts]

/-- It need not depend on the words. -/
theorem throughout_parts (hblank : ∀ node, Node.IsBlank node → P node)
    (hmade : ∀ (rule : Rule) (reading : Reading (definition (.rule rule))) (made : Node),
      Part.made rule reading.parts (Derivation.spanOf reading.tokens) = .node made →
        (∀ node ∈ reading.parts.flatMap Part.nodes, P node) → P made)
    {pattern : Pattern} (reading : Reading pattern) :
    ∀ node ∈ reading.parts.flatMap Part.nodes, node.Throughout P :=
  throughout_parts_of_words (fun _ => True) (fun _ => ⟨trivial, trivial⟩) hblank
    (fun rule reading made _ => hmade rule reading made) reading trivial

end Throughout

section Read

variable {text : String} {derivation : Derivation}

/-- The statements of a text are read as the definition of a recipe says. -/
theorem statements_read (h : derive text = .ok derivation) :
    ∃ reading : Reading (definition (.rule .recipe)), reading.tokens = derivation.tokens ∧
      reading.parts = (statementsOf derivation).map .node ∧
      ∀ statement ∈ statementsOf derivation, statement.isStatement = true := by
  obtain ⟨hwell, hsymbol, -⟩ := derive_sound h
  obtain ⟨reading, hreading⟩ := (derivation.readable hwell).1 (.rule .recipe) hsymbol
  cases reading with
  | name reading
  obtain rfl : derivation = .node (.rule .recipe) reading.derivations :=
    (List.singleton_inj.mp hreading).symm
  obtain ⟨statements, hparts, hkind⟩ : ∃ statements : List Node,
      reading.parts = statements.map .node ∧ ∀ node ∈ statements, node.isStatement = true :=
    gives_statements reading
  have hstatements : statementsOf (.node (.rule .recipe) reading.derivations) = statements := by
    rw [statementsOf, reading.partsOfAll_derivations, hparts, Part.filterMap_node?]
  refine ⟨reading, reading.tokensOfAll_derivations.symm, ?_, ?_⟩ <;> rwa [hstatements]

end Read

end RecipeGraph.Recipe
