import Mathlib.Data.List.Forall2
import RecipeGraph.Proofs.ProperRecipes

/-!
What a recipe refers to, in the order in which lowering comes to it. Whatever is reported of a
recipe is reported of one of these references, of each at most once and in their order. What is
wrong inside a package is reported to nobody.
-/
namespace RecipeGraph

open RecipeGraph.Graph Recipe Grammar Source

namespace Recipe.Node

/-- The styles that a styling refers to. -/
def tagsOf (styling : Option Node) : List Node :=
  (styling.map tags).getD []

mutual

/-- The variables, styles and packages that a node refers to. What a call or a nested scope is
styled with comes before all that is inside. -/
def referrals : Node → List Node
  | .call _ args styling _ => tagsOf styling ++ referralsOfAll args
  | .variable path extent => [.variable path extent]
  | .assignment targets (some value) _ =>
      targets.flatMap (fun target => tagsOf target.styling) ++ referrals value
  | .scope _ body _ args _ styling _ =>
      tagsOf styling ++ (referralsOfAll body ++ referralsOfAll args)
  | .package location label extent => [.package location label extent]
  | .namedStyle _ named _ => named.tags
  | _ => []

def referralsOfAll : List Node → List Node
  | [] => []
  | node :: rest => referrals node ++ referralsOfAll rest

end

/-- A styling is a style, and all that a style refers to are styles. -/
def IsStyled : Node → Prop
  | .call _ _ styling _ | .scope _ _ _ _ _ styling _ | .target _ styling _ =>
      ∀ style ∈ styling, style.isStyle = true
  | .namedStyle _ named _ => named.isStyle = true
  | .style _ tags _ => ∀ tag ∈ tags, ∃ path extent, tag = .styleTag path extent
  | _ => True

/-- The tags of a style that is used as it should be are references to styles. -/
theorem tags_styled {node : Node} (hkind : node.isStyle = true) (h : node.IsStyled) :
    ∀ tag ∈ node.tags, ∃ path extent, tag = .styleTag path extent := by
  cases node with
  | style => exact h
  | _ => cases hkind

section Reaching

variable {styling : Option Node} {node tag style : Node}

theorem reaches_child {below child : Node} (hchild : child ∈ node.children)
    (h : child.Reaches below) : node.Reaches below :=
  reaches_iff.mpr (Or.inr ⟨child, hchild, h⟩)

theorem mem_tags (h : tag ∈ node.tags) : tag ∈ node.children := by
  cases node with
  | style | styleBinding => exact h
  | _ => cases h

theorem mem_tagsOf (h : tag ∈ tagsOf styling) : ∃ style ∈ styling, tag ∈ style.tags := by
  cases styling with
  | none => cases h
  | some style => exact ⟨style, rfl, h⟩

/-- A style that refers to something is shown. -/
theorem shown_tagged (hstyle : style ∈ styling) (htag : tag ∈ style.tags) :
    style ∈ shown styling := by
  obtain rfl := Option.mem_def.mp hstyle
  cases style with
  | style | styleBinding => rfl
  | _ => cases htag

theorem styling_child (h : style ∈ shown node.styling) : style ∈ node.children := by
  cases node with
  | call | scope => exact List.mem_append_right _ (Option.mem_toList.mpr h)
  | target => exact Option.mem_toList.mpr h
  | _ => cases h

theorem reaches_tagsOf (h : tag ∈ tagsOf node.styling) : node.Reaches tag := by
  obtain ⟨style, hstyle, htag⟩ := mem_tagsOf h
  exact reaches_child (styling_child (shown_tagged hstyle htag))
    (reaches_child (mem_tags htag) .refl)

theorem shown_referring {value below : Node} (h : below ∈ value.referrals) :
    shown (some value) = some value := by
  cases value with
  | valueList | statementList => cases h
  | _ => rfl

mutual

theorem reaches_referrals : ∀ (node : Node) {below : Node}, below ∈ node.referrals →
    node.Reaches below
  | .call name args styling extent, below, h => by
    rcases List.mem_append.mp h with htag | harg
    · exact reaches_tagsOf htag
    · obtain ⟨arg, hin, hreaches⟩ := reaches_referralsOfAll args harg
      exact reaches_child (List.mem_append_left _ hin) hreaches
  | .variable path extent, below, h => by
    obtain rfl := List.mem_singleton.mp h
    exact .refl
  | .assignment targets none extent, below, h => by cases h
  | .assignment targets (some value) extent, below, h => by
    rcases List.mem_append.mp h with htag | hvalue
    · obtain ⟨target, hin, htag⟩ := List.mem_flatMap.mp htag
      exact reaches_child (List.mem_append_left _ hin) (reaches_tagsOf htag)
    · refine reaches_child (List.mem_append_right _ ?_) (reaches_referrals value hvalue)
      rw [shown_referring hvalue]
      exact List.mem_singleton_self value
  | .scope name body bodyExtent args argsExtent styling extent, below, h => by
    rcases List.mem_append.mp h with htag | hinside
    · exact reaches_tagsOf htag
    · rcases List.mem_append.mp hinside with hbody | hargs
      · obtain ⟨statement, hin, hreaches⟩ := reaches_referralsOfAll body hbody
        have hlist : (statementList body bodyExtent).Reaches below := reaches_child hin hreaches
        exact reaches_child (by simp [children]) hlist
      · obtain ⟨arg, hin, hreaches⟩ := reaches_referralsOfAll args hargs
        have hlist : (valueList args argsExtent).Reaches below := reaches_child hin hreaches
        exact reaches_child (by simp [children]) hlist
  | .package location label extent, below, h => by
    obtain rfl := List.mem_singleton.mp h
    exact .refl
  | .namedStyle name named extent, below, h =>
    reaches_child (List.mem_singleton_self named) (reaches_child (mem_tags h) .refl)
  | .styleBinding .., below, h => by cases h
  | .target .., below, h => by cases h
  | .style .., below, h => by cases h
  | .styleTag .., below, h => by cases h
  | .valueList .., below, h => by cases h
  | .statementList .., below, h => by cases h
  | .recipe .., below, h => by cases h

theorem reaches_referralsOfAll : ∀ (nodes : List Node) {below : Node},
    below ∈ referralsOfAll nodes → ∃ node ∈ nodes, node.Reaches below
  | [], below, h => by cases h
  | node :: rest, below, h => by
    rcases List.mem_append.mp h with hfirst | hrest
    · exact ⟨node, List.mem_cons_self, reaches_referrals node hfirst⟩
    · obtain ⟨other, hin, hreaches⟩ := reaches_referralsOfAll rest hrest
      exact ⟨other, List.mem_cons_of_mem _ hin, hreaches⟩

end

theorem tagsOf_styled (h : node.Throughout IsStyled) :
    ∀ tag ∈ tagsOf node.styling, ∃ path extent, tag = .styleTag path extent := by
  intro tag hin
  obtain ⟨style, hstyle, htag⟩ := mem_tagsOf hin
  have hkind : style.isStyle = true := by
    have hown := h node .refl
    cases node with
    | call | scope | target => exact hown style hstyle
    | _ => cases hstyle
  have hreaches := reaches_child (styling_child (shown_tagged hstyle htag)) .refl
  exact tags_styled hkind (h style hreaches) tag htag

end Reaching

end Recipe.Node

namespace Recipe

theorem Part.styleTag?_eq {part : Part} {tag : Node} (h : part.styleTag? = some tag) :
    ∃ path extent, tag = .styleTag path extent := by
  unfold Part.styleTag? at h
  split at h
  · exact ⟨_, _, (Option.some.inj h).symm⟩
  · cases h

theorem Part.Makes.styled {extent : Option Span} {parts : List Part} {part : Part} {made : Node}
    (h : Part.Makes extent parts part) (hmade : part = .node made) : made.IsStyled := by
  cases h with
  | call leaf args styling h | target leaf styling h | scope leaf body place args styling h =>
    cases hmade
    exact h
  | namedStyle leaf styling h =>
    cases hmade
    cases styling with
    | none => rfl
    | some worn => exact h worn rfl
  | styleBlock =>
    cases hmade
    intro tag hin
    obtain ⟨part, -, htag⟩ := List.mem_filterMap.mp hin
    exact Part.styleTag?_eq htag
  | tagBlock | qualifiedName | property | value | description => cases hmade
  | _ =>
    cases hmade
    trivial

theorem styled_read {text : String} {derivation : Derivation} (h : derive text = .ok derivation)
    (filename : String) : (ofText text filename).recipe.toNode.Throughout Node.IsStyled := by
  obtain ⟨reading, -, hparts, -⟩ := statements_read h
  have hblank : ∀ node, Node.IsBlank node → node.IsStyled := by
    intro node hblank
    cases hblank with
    | values => trivial
    | style => simp [Node.IsStyled]
  have hstyled : ∀ node ∈ reading.parts.flatMap Part.nodes, node.Throughout Node.IsStyled :=
    throughout_parts hblank
      (fun rule reading _ hmade _ => (Part.makes rule reading).styled hmade) reading
  rw [hparts, Part.flatMap_nodes] at hstyled
  rw [ofText_read h filename]
  exact Node.throughout_iff.mpr ⟨trivial, hstyled⟩

end Recipe

/-- A diagnostic says of a reference that it leads nowhere, or of a package that it does not come,
and stands where the reference does. -/
inductive Diagnostic.Concerns : Node → Diagnostic → Prop
  | «variable» (path : Path) (extent : Option Span) :
      Concerns (.variable path extent) ⟨extent.getD .origin, .undefinedVariable path⟩
  | synonym (path : Path) (extent : Option Span) (targets : String) :
      Concerns (.variable path extent) ⟨extent.getD .origin, .undefinedAliasTarget path targets⟩
  | tag (path : Path) (extent : Option Span) :
      Concerns (.styleTag path extent) ⟨extent.getD .origin, .undefinedStyleTag path⟩
  | package (location : String) (label : Option String) (extent : Option Span) (reason : String) :
      Concerns (.package location label extent)
        ⟨extent.getD .origin, .importFailed location reason⟩

theorem Diagnostic.exists_concern {kept : List Node} {reports : List Diagnostic}
    (h : List.Forall₂ Diagnostic.Concerns kept reports) :
    ∀ diagnostic ∈ reports, ∃ node ∈ kept, diagnostic.Concerns node := by
  induction h with
  | nil => simp
  | cons hconcerns _ ih =>
    refine List.forall_mem_cons.mpr ⟨⟨_, List.mem_cons_self, hconcerns⟩, ?_⟩
    intro diagnostic hin
    obtain ⟨node, hnode, hfurther⟩ := ih diagnostic hin
    exact ⟨node, List.mem_cons_of_mem _ hnode, hfurther⟩

namespace Compile

/-- Some of the nodes have been reported, each once and in their order, and nothing else has. -/
def Accounts (nodes : List Node) (work after : Work) : Prop :=
  ∃ kept reports, List.Sublist kept nodes ∧ List.Forall₂ Diagnostic.Concerns kept reports ∧
    after.diagnostics = work.diagnostics ++ reports

section Accounts

variable {nodes more : List Node} {work middle after : Work} {node : Node} {diagnostic : Diagnostic}
  {setting : Setting} {outer : List Scope}

theorem Accounts.silent (nodes : List Node) (h : after.diagnostics = work.diagnostics) :
    Accounts nodes work after :=
  ⟨[], [], List.nil_sublist nodes, .nil, by rw [h, List.append_nil]⟩

theorem Accounts.append (h : Accounts nodes work middle) (h' : Accounts more middle after) :
    Accounts (nodes ++ more) work after := by
  obtain ⟨kept, reports, hkept, hconcern, hreports⟩ := h
  obtain ⟨kept', reports', hkept', hconcern', hreports'⟩ := h'
  refine ⟨kept ++ kept', reports ++ reports', hkept.append hkept',
    List.rel_append hconcern hconcern', ?_⟩
  rw [hreports', hreports, List.append_assoc]

/-- What happens before and after without a report does not matter. -/
theorem Accounts.between (h : Accounts nodes middle after) {last : Work}
    (hafter : last.diagnostics = after.diagnostics)
    (hbefore : middle.diagnostics = work.diagnostics) : Accounts nodes work last := by
  obtain ⟨kept, reports, hkept, hconcern, hreports⟩ := h
  exact ⟨kept, reports, hkept, hconcern, by rw [hafter, hreports, hbefore]⟩

theorem accounts_report {extent : Span} {problem : Problem}
    (h : Diagnostic.Concerns node ⟨extent, problem⟩) (work : Work) :
    Accounts [node] work (work.report extent problem) :=
  ⟨[node], [⟨extent, problem⟩], List.Sublist.refl _, .cons h .nil, rfl⟩

/-- What holds of each step holds of a run over some items. -/
theorem accounts_foldl {α β : Type} (view : β → Work) {step : β → α → β} (source : α → List Node)
    (items : List α)
    (hstep : ∀ item ∈ items, ∀ state, Accounts (source item) (view state) (view (step state item)))
    (state : β) : Accounts (items.flatMap source) (view state) (view (items.foldl step state)) := by
  induction items generalizing state with
  | nil => exact .silent _ rfl
  | cons item rest ih =>
    rw [List.forall_mem_cons] at hstep
    exact (hstep.1 state).append (ih hstep.2 (step state item))

theorem accounts_checkTag {tag : Node} (htag : ∃ path extent, tag = .styleTag path extent)
    (outer : List Scope) (work : Work) : Accounts [tag] work (Work.checkTag outer work tag) := by
  obtain ⟨path, extent, rfl⟩ := htag
  unfold Work.checkTag
  split
  · exact .silent _ rfl
  · exact accounts_report (.tag path extent) work

theorem accounts_checkTags {styling : Option Node}
    (htags : ∀ tag ∈ Node.tagsOf styling, ∃ path extent, tag = .styleTag path extent)
    (outer : List Scope) (work : Work) :
    Accounts (Node.tagsOf styling) work (work.checkTags outer styling) := by
  cases styling with
  | none => exact .silent _ rfl
  | some style =>
    have htold := accounts_foldl id (fun tag => [tag]) style.tags
      (fun tag hin work => accounts_checkTag (htags tag hin) outer work) work
    rwa [List.flatMap_singleton'] at htold

theorem accounts_flatten {style : Node}
    (htags : ∀ tag ∈ style.tags, ∃ path extent, tag = .styleTag path extent)
    (outer : List Scope) (work : Work) : Accounts style.tags work (flatten outer style work).2 := by
  have htold :
      Accounts (style.tags.flatMap fun tag => [tag]) work (flatten outer style work).2 := by
    refine accounts_foldl Prod.snd _ style.tags (fun tag hin state => ?_)
      (({}, work) : Properties × Work)
    obtain ⟨path, extent, rfl⟩ := htags tag hin
    split
    · exact .silent _ rfl
    · exact accounts_report (.tag path extent) state.2
  rwa [List.flatMap_singleton'] at htold

theorem diagnostics_addInflows (setting : Setting) (target : String) (inflows : List Inflow)
    (work : Work) : (work.addInflows setting target inflows).diagnostics = work.diagnostics := by
  unfold Work.addInflows
  induction inflows generalizing work with
  | nil => rfl
  | cons inflow rest ih => exact ih _

theorem diagnostics_bindAll (id : String) (look : Node → Option Look) (targets : List Node)
    (work : Work) :
    (targets.foldl (Work.bindTarget id look) work).diagnostics = work.diagnostics := by
  induction targets generalizing work with
  | nil => rfl
  | cons target rest ih => exact ih _

theorem diagnostics_bindTargets (targets : List Node) (value : Option String) (work : Work) :
    (bindTargets targets value work).diagnostics = work.diagnostics := by
  cases value with
  | none => rfl
  | some id => exact diagnostics_bindAll id _ targets work

theorem accounts_enter {styling : Option Node}
    (htags : ∀ tag ∈ Node.tagsOf styling, ∃ path extent, tag = .styleTag path extent)
    (given : Option String) (name : String) (work : Work) :
    Accounts (Node.tagsOf styling) work (enter setting outer given name styling work) := by
  unfold enter
  cases given.filter (· ≠ "") with
  | some id => exact .between (accounts_checkTags htags outer _) rfl rfl
  | none => exact .between (accounts_checkTags htags outer _) rfl rfl

theorem accounts_prepareTargets (outer : List Scope) {targets : List Node} (hsome : targets ≠ [])
    (hstyled : ∀ target ∈ targets, target.Throughout Node.IsStyled) (extent : Option Span)
    (work : Work) :
    Accounts (targets.flatMap fun target => Node.tagsOf target.styling) work
      (prepareTargets outer targets extent work) := by
  have hleft : checkLeft targets extent work = work := by simp [checkLeft, hsome]
  unfold prepareTargets checkTargets
  rw [hleft]
  exact accounts_foldl id _ targets
    (fun target hin work => accounts_checkTags (Node.tagsOf_styled (hstyled target hin)) outer work)
    work

theorem accounts_alias (targets : List Node) (path : Path) (place : Option Span) (work : Work) :
    Accounts [.variable path place] work (lowerAlias outer targets path place work) := by
  unfold lowerAlias
  cases work.elementOf? outer path with
  | none => exact accounts_report (.synonym path place _) work
  | some id => exact .silent _ (diagnostics_bindAll id _ targets work)

/-- Whatever name a package is to get, it may fail to come. -/
theorem accounts_bringIn (setting : Setting) (location : String) (label : Option String)
    (extent : Option Span) (work : Work) :
    Accounts [.package location label extent] work (bringIn setting location extent work).2 := by
  generalize hbrought : bringIn setting location extent work = brought
  cases brought_of_eq hbrought with
  | unsupplied | failed =>
    exact .between (accounts_report (.package location label extent _) _) rfl rfl
  | arrived => exact .silent _ rfl

theorem accounts_attachPackage (setting : Setting) (location : String) (label : Option String)
    (extent : Option Span) (work : Work) :
    Accounts [.package location label extent] work
      (attachPackage setting location label extent work).2 := by
  have hbrought := accounts_bringIn setting location label extent work
  rcases hbring : bringIn setting location extent work with ⟨_ | package, after⟩ <;>
    rw [hbring] at hbrought
  · rw [attachPackage_absent hbring]
    exact hbrought
  · rw [attachPackage_present hbring]
    exact .between hbrought rfl rfl

theorem accounts_package (setting : Setting) (location : String) (label : Option String)
    (extent : Option Span) (work : Work) :
    Accounts [.package location label extent] work
      (lowerPackage setting location label extent work) := by
  cases label with
  | some name => exact accounts_attachPackage setting location (some name) extent work
  | none =>
    have hbrought := accounts_bringIn setting location none extent work
    rcases hbring : bringIn setting location extent work with ⟨_ | package, after⟩ <;>
      rw [hbring] at hbrought
    · rw [lowerPackage_absent hbring]
      exact hbrought
    · rw [lowerPackage_present hbring]
      exact .between hbrought rfl rfl

end Accounts

section Lowering

variable (setting : Setting)

theorem accounts_arguments (outer : List Scope) :
    Node.ArgumentCases
      (fun arg => arg.isArgument = true → arg.WellMade → arg.Throughout Node.IsStyled →
        ∀ work : Work, Accounts arg.referrals work (lowerArg setting outer arg work).2)
      (fun args => (∀ arg ∈ args, arg.isArgument = true ∧ arg.WellMade) →
        (∀ arg ∈ args, arg.Throughout Node.IsStyled) →
        ∀ work : Work, Accounts (Node.referralsOfAll args) work
          (lowerArgs setting outer args work).2) where
  call name args styling extent ih _ hmade hstyled work := by
    rw [lowerArg_call]
    have hplaced :
        Accounts (Node.tagsOf styling) work (placeCall setting outer name styling work) :=
      .between (accounts_checkTags (Node.tagsOf_styled hstyled) outer (work.freshId setting).2) rfl
        rfl
    have hargs := ih hmade.args_call (fun arg hin => hstyled.child (List.mem_append_left _ hin))
      (placeCall setting outer name styling work)
    exact hplaced.append (hargs.between (diagnostics_addInflows setting _ _ _) rfl)
  reference path extent _ _ _ work := by
    rw [lowerArg_variable]
    cases work.elementOf? outer path with
    | none => exact accounts_report (.variable path extent) work
    | some id => exact .silent _ rfl
  other node hnode hkind := by simp [hnode] at hkind
  nil _ _ work := .silent _ rfl
  cons arg rest hfirst hrest hall hstyled work := by
    rw [List.forall_mem_cons] at hall hstyled
    rw [lowerArgs_cons]
    exact (hfirst hall.1.1 hall.1.2 hstyled.1 work).append (hrest hall.2 hstyled.2 _)

theorem accounts_feed (outer : List Scope) (target : String) {args : List Node}
    (hmade : ∀ arg ∈ args, arg.isArgument = true ∧ arg.WellMade)
    (hstyled : ∀ arg ∈ args, arg.Throughout Node.IsStyled) (work : Work) :
    Accounts (Node.referralsOfAll args) work (feed setting outer target args work) :=
  ((accounts_arguments setting outer).all args hmade hstyled work).between
    (diagnostics_addInflows setting target _ _) rfl

theorem accounts_statements :
    Node.StatementCases
      (fun value => value.isBuilt = true → value.WellMade → value.Throughout Node.IsStyled →
        ∀ outer (work : Work),
          Accounts value.referrals work (lowerValue setting outer value work).2)
      (fun node => node.isStatement = true → node.WellMade → node.Throughout Node.IsStyled →
        ∀ outer (work : Work), Accounts node.referrals work (lower setting outer node work))
      (fun nodes => (∀ node ∈ nodes, node.isStatement = true ∧ node.WellMade) →
        (∀ node ∈ nodes, node.Throughout Node.IsStyled) → ∀ outer (work : Work),
          Accounts (Node.referralsOfAll nodes) work (lowerAll setting outer nodes work)) where
  call name args styling extent _ hmade hstyled outer work := by
    have hcall := (accounts_arguments setting outer).one _ rfl hmade hstyled work
    rwa [lowerArg_call] at hcall
  scope name body bodyExtent args argsExtent styling extent hbody _ hmade hstyled outer work := by
    have hlist : (Node.statementList body bodyExtent).Throughout Node.IsStyled :=
      hstyled.child (by simp [Node.children])
    have hvalues : (Node.valueList args argsExtent).Throughout Node.IsStyled :=
      hstyled.child (by simp [Node.children])
    have hentered : Accounts (Node.tagsOf styling) work
        (enter setting (work.scope :: outer) (some (setting.idOf work.world.issued)) name styling
          (work.freshId setting).2) :=
      .between (accounts_enter (Node.tagsOf_styled hstyled) _ name (work.freshId setting).2) rfl rfl
    have hinside := hbody hmade.body_scope (fun node hin => hlist.child hin) (work.scope :: outer)
      (enter setting (work.scope :: outer) (some (setting.idOf work.world.issued)) name styling
        (work.freshId setting).2)
    have hfed := accounts_feed setting outer (setting.idOf work.world.issued) hmade.args_scope
      (fun arg hin => hvalues.child hin)
      { lowerInside setting outer name body styling work with
        scope := work.scope.attach (lowerInside setting outer name body styling work).scope }
    rw [lowerValue_scope]
    exact hentered.append (hinside.append (hfed.between rfl rfl))
  package location label extent _ _ _ outer work :=
    accounts_attachPackage setting location label extent work
  unbuilt node hnode hbuilt := by simp [hnode] at hbuilt
  bareCall name args styling extent hvalue _ hmade hstyled outer work := by
    rw [lower_call]
    exact hvalue rfl hmade hstyled outer work
  bareScope name body bodyExtent args argsExtent styling extent hvalue _ hmade hstyled outer
      work := by
    rw [lower_scope]
    exact hvalue rfl hmade hstyled outer work
  barePackage location label extent _ _ _ outer work :=
    accounts_package setting location label extent work
  reference path extent _ _ _ outer work := .silent _ rfl
  incomplete targets extent _ hmade := by
    obtain ⟨-, right, hright, -⟩ := (Node.throughout_iff.mp hmade).1
    cases hright
  synonym targets path place extent _ hmade hstyled outer work := by
    rw [lower_synonym]
    have hprepared := accounts_prepareTargets outer (Node.throughout_iff.mp hmade).1.1
      (fun target hin => hstyled.child (List.mem_append_left _ hin)) extent work
    exact hprepared.append (accounts_alias targets path place _)
  assigned targets value extent hvariable hvalue _ hmade hstyled outer work := by
    obtain ⟨hkind, hright⟩ := hmade.right_assigned
    have hbuilt : value.isBuilt = true := by simpa [Node.isRightSide, hvariable] using hkind
    have hprepared := accounts_prepareTargets outer (Node.throughout_iff.mp hmade).1.1
      (fun target hin => hstyled.child (List.mem_append_left _ hin)) extent work
    rw [lower_assigned setting outer work targets extent hvariable]
    have hlowered := hvalue hbuilt hright (hstyled.child hmade.child_assigned.2) outer
      (prepareTargets outer targets extent work)
    exact hprepared.append (hlowered.between (diagnostics_bindTargets targets _ _) rfl)
  namedStyle name style extent _ _ hstyled outer work := by
    have hkind : style.isStyle = true := hstyled _ .refl
    have hstyle : style.Throughout Node.IsStyled := hstyled.child (List.mem_singleton_self style)
    have htags := Node.tags_styled hkind (hstyle style .refl)
    exact (accounts_flatten htags outer work).between rfl rfl
  styleBinding keyword tags extent _ _ _ outer work := .silent _ rfl
  other node hnode hkind := by simp [hnode] at hkind
  nil _ _ outer work := .silent _ rfl
  cons node rest hnode hrest hall hstyled outer work := by
    rw [List.forall_mem_cons] at hall hstyled
    rw [lowerAll]
    exact (hnode hall.1.1 hall.1.2 hstyled.1 outer work).append (hrest hall.2 hstyled.2 outer _)

/-- All that is reported of a text that is read concerns references of its own. -/
theorem compile_accounts {text : String} {derivation : Derivation}
    (h : derive text = .ok derivation) (compiler : Compiler) (name : String) (chain : List String)
    (world : Package.World) : ∃ kept,
      List.Sublist kept (Node.referralsOfAll (ofText text name).recipe.statements) ∧
        List.Forall₂ Diagnostic.Concerns kept
          (compiler.compile text name chain world).1.diagnostics := by
  have hmade : (ofText text name).recipe.toNode.WellMade := wellMade_read h name
  have hstyled := styled_read h name
  obtain ⟨hkind, hbelow⟩ := Node.throughout_iff.mp hmade
  obtain ⟨kept, reports, hkept, hconcern, hreports⟩ :=
    (accounts_statements (compiler.setting chain)).all (ofText text name).recipe.statements
      (fun node hin => ⟨hkind node hin, hbelow node hin⟩) (fun node hin => hstyled.child hin) []
      (enter (compiler.setting chain) [] none "" none ⟨world, [], .ofContents { id := "" }⟩)
  have hnothing : (ofText text name).diagnostics = [] := by rw [ofText_read h]
  refine ⟨kept, hkept, ?_⟩
  change List.Forall₂ _ kept ((ofText text name).diagnostics ++ _)
  rw [hnothing, List.nil_append]
  exact hreports ▸ hconcern

end Lowering

end Compile

end RecipeGraph
