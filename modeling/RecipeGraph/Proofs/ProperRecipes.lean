import RecipeGraph.Compile.Load
import RecipeGraph.Proofs.Shapes

/-!
Recipes in which everything stands where it belongs. What is read from a text is such a recipe, and
when it is compiled, nothing can be wrong but that a reference leads nowhere or that a package does
not come.
-/
namespace RecipeGraph

open RecipeGraph.Graph Recipe Grammar Source Compile

namespace Recipe

/-- Nowhere in the node anything stands where it does not belong. -/
def Node.WellMade (node : Node) : Prop :=
  node.Throughout Node.IsProper

section WellMade

section Inside

variable {name : String} {body args targets : List Node} {styling value : Option Node}
  {extent bodyExtent argsExtent : Option Span} {right : Node}

theorem Node.WellMade.args_call (h : (Node.call name args styling extent).WellMade) :
    ∀ arg ∈ args, arg.isArgument = true ∧ arg.WellMade :=
  fun arg hin => ⟨(throughout_iff.mp h).1 arg hin, h.child (List.mem_append_left _ hin)⟩

theorem Node.WellMade.body_scope
    (h : (Node.scope name body bodyExtent args argsExtent styling extent).WellMade) :
    ∀ node ∈ body, node.isStatement = true ∧ node.WellMade := by
  have hlist : (Node.statementList body bodyExtent).WellMade := h.child (by simp [Node.children])
  exact fun node hin => ⟨(throughout_iff.mp h).1.1 node hin, hlist.child hin⟩

theorem Node.WellMade.args_scope
    (h : (Node.scope name body bodyExtent args argsExtent styling extent).WellMade) :
    ∀ arg ∈ args, arg.isArgument = true ∧ arg.WellMade := by
  have hvalues : (Node.valueList args argsExtent).WellMade := h.child (by simp [Node.children])
  exact fun arg hin => ⟨(throughout_iff.mp h).1.2 arg hin, hvalues.child hin⟩

theorem Node.WellMade.child_assigned
    (h : (Node.assignment targets (some right) extent).WellMade) :
    right.isRightSide = true ∧
      right ∈ (Node.assignment targets (some right) extent).children := by
  obtain ⟨-, value, hvalue, hkind⟩ := (throughout_iff.mp h).1
  obtain rfl : right = value := Option.some.inj hvalue
  have hshown : Node.shown (some right) = some right := by
    cases right <;> first | rfl | cases hkind
  refine ⟨hkind, List.mem_append_right _ ?_⟩
  rw [hshown]
  exact List.mem_singleton_self right

theorem Node.WellMade.right_assigned
    (h : (Node.assignment targets (some right) extent).WellMade) :
    right.isRightSide = true ∧ right.WellMade :=
  ⟨h.child_assigned.1, h.child h.child_assigned.2⟩

end Inside

theorem wellMade_read {text : String} {derivation : Derivation}
    (h : derive text = .ok derivation) (filename : String) :
    (ofText text filename).recipe.toNode.WellMade := by
  obtain ⟨reading, -, hparts, hkind⟩ := statements_read h
  have hmade : ∀ node ∈ reading.parts.flatMap Part.nodes, node.WellMade :=
    throughout_parts (fun _ hblank => hblank.proper)
      (fun rule reading _ hmade hall => (Part.makes rule reading).proper hall hmade) reading
  rw [hparts, Part.flatMap_nodes] at hmade
  rw [ofText_read h filename]
  exact Node.throughout_iff.mpr ⟨hkind, hmade⟩

end WellMade

end Recipe

/-- A reference leads nowhere, or a package does not come. -/
def Diagnostic.IsUnresolved (diagnostic : Diagnostic) : Prop :=
  diagnostic.origin = .reference ∨ diagnostic.origin = .package

namespace Compile

namespace Work

/-- Nothing is wrong but references and packages. -/
def OnlyUnresolved (work : Work) : Prop :=
  ∀ diagnostic ∈ work.diagnostics, diagnostic.IsUnresolved

section Steps

variable {work : Work} {outer : List Scope} {setting : Setting}

theorem OnlyUnresolved.report (h : work.OnlyUnresolved) (extent : Span) {problem : Problem}
    (hproblem : Diagnostic.IsUnresolved ⟨extent, problem⟩) :
    (work.report extent problem).OnlyUnresolved := by
  intro diagnostic hin
  rcases List.mem_append.mp hin with hold | hnew
  · exact h diagnostic hold
  · rwa [List.mem_singleton.mp hnew]

theorem OnlyUnresolved.foldl {α : Type} {step : Work → α → Work}
    (hstep : ∀ work item, work.OnlyUnresolved → (step work item).OnlyUnresolved) (items : List α)
    (h : work.OnlyUnresolved) : (items.foldl step work).OnlyUnresolved :=
  List.foldlRecOn (motive := Work.OnlyUnresolved) items step h fun work hwork item _ =>
    hstep work item hwork

theorem OnlyUnresolved.checkTags (styling : Option Node) (h : work.OnlyUnresolved) :
    (work.checkTags outer styling).OnlyUnresolved := by
  cases styling with
  | none => exact h
  | some style =>
    refine foldl (fun work tag hwork => ?_) style.tags h
    unfold checkTag
    split
    · exact hwork
    · exact hwork.report _ (Or.inl rfl)

theorem OnlyUnresolved.placeCall (name : String) (styling : Option Node)
    (h : work.OnlyUnresolved) : (placeCall setting outer name styling work).OnlyUnresolved :=
  have hfresh : (work.freshId setting).2.OnlyUnresolved := h
  hfresh.checkTags styling

theorem OnlyUnresolved.addInflows (target : String) (inflows : List Inflow)
    (h : work.OnlyUnresolved) : (work.addInflows setting target inflows).OnlyUnresolved := by
  refine foldl ?_ inflows h
  exact fun _ _ hwork => hwork

theorem OnlyUnresolved.bindAll (id : String) (look : Node → Option Look) (targets : List Node)
    (h : work.OnlyUnresolved) : (targets.foldl (bindTarget id look) work).OnlyUnresolved := by
  refine foldl ?_ targets h
  exact fun _ _ hwork => hwork

theorem OnlyUnresolved.bindTargets (targets : List Node) (value : Option String)
    (h : work.OnlyUnresolved) : (bindTargets targets value work).OnlyUnresolved := by
  cases value with
  | none => exact h
  | some id => exact h.bindAll id _ targets

theorem OnlyUnresolved.flatten (style : Node) (h : work.OnlyUnresolved) :
    (flatten outer style work).2.OnlyUnresolved :=
  flatten_keeps (fun _ extent _ hwork => hwork.report extent (Or.inl rfl)) outer style h

theorem OnlyUnresolved.alias (targets : List Node) (path : Path) (extent : Option Span)
    (h : work.OnlyUnresolved) : (lowerAlias outer targets path extent work).OnlyUnresolved := by
  unfold lowerAlias
  cases work.elementOf? outer path with
  | none => exact h.report _ (Or.inl rfl)
  | some id => exact h.bindAll id _ targets

theorem OnlyUnresolved.prepareTargets {targets : List Node} (htargets : targets ≠ [])
    (extent : Option Span) (h : work.OnlyUnresolved) :
    (prepareTargets outer targets extent work).OnlyUnresolved := by
  have hleft : checkLeft targets extent work = work := by simp [checkLeft, htargets]
  unfold Compile.prepareTargets checkTargets
  rw [hleft]
  exact foldl (fun work target hwork => hwork.checkTags target.styling) targets h

theorem OnlyUnresolved.enter (given : Option String) (name : String) (styling : Option Node)
    (h : work.OnlyUnresolved) :
    (enter setting outer given name styling work).OnlyUnresolved := by
  unfold Compile.enter
  cases given.filter (· ≠ "") with
  | some id => exact checkTags styling h
  | none => exact checkTags styling h

theorem OnlyUnresolved.bringIn (location : String) (extent : Option Span)
    (h : work.OnlyUnresolved) :
    (bringIn setting location extent work).2.OnlyUnresolved := by
  generalize hbrought : Compile.bringIn setting location extent work = brought
  cases brought_of_eq hbrought with
  | unsupplied | failed => exact report h _ (Or.inr rfl)
  | arrived => exact h

theorem OnlyUnresolved.attachPackage (location : String) (label : Option String)
    (extent : Option Span) (h : work.OnlyUnresolved) :
    (attachPackage setting location label extent work).2.OnlyUnresolved := by
  have hbrought : (Compile.bringIn setting location extent work).2.OnlyUnresolved :=
    h.bringIn location extent
  rcases hbring : Compile.bringIn setting location extent work with ⟨_ | package, after⟩ <;>
    rw [hbring] at hbrought
  · rw [attachPackage_absent hbring]
    exact hbrought
  · rw [attachPackage_present hbring]
    exact hbrought

theorem OnlyUnresolved.package (location : String) (label : Option String)
    (extent : Option Span) (h : work.OnlyUnresolved) :
    (lowerPackage setting location label extent work).OnlyUnresolved := by
  cases label with
  | some name => exact h.attachPackage location (some name) extent
  | none =>
    have hbrought : (Compile.bringIn setting location extent work).2.OnlyUnresolved :=
      h.bringIn location extent
    rcases hbring : Compile.bringIn setting location extent work with ⟨_ | package, after⟩ <;>
      rw [hbring] at hbrought
    · rw [lowerPackage_absent hbring]
      exact hbrought
    · rw [lowerPackage_present hbring]
      exact hbrought

end Steps

end Work

section Lowering

variable (setting : Setting)

open Work

theorem arguments_onlyUnresolved (outer : List Scope) :
    Node.ArgumentCases
      (fun arg => arg.isArgument = true → arg.WellMade → ∀ work : Work, work.OnlyUnresolved →
        (lowerArg setting outer arg work).2.OnlyUnresolved)
      (fun args => (∀ arg ∈ args, arg.isArgument = true ∧ arg.WellMade) → ∀ work : Work,
        work.OnlyUnresolved → (lowerArgs setting outer args work).2.OnlyUnresolved) where
  call name args styling extent ih _ hmade work hwork := by
    rw [lowerArg_call]
    exact (ih hmade.args_call _ (hwork.placeCall name styling)).addInflows _ _
  reference path extent _ _ work hwork := by
    rw [lowerArg_variable]
    cases work.elementOf? outer path with
    | none => exact hwork.report _ (Or.inl rfl)
    | some id => exact hwork
  other node hnode hkind := by simp [hnode] at hkind
  nil _ work hwork := hwork
  cons arg rest hfirst hrest hall work hwork := by
    rw [List.forall_mem_cons] at hall
    rw [lowerArgs_cons]
    exact hrest hall.2 _ (hfirst hall.1.1 hall.1.2 work hwork)

theorem Work.OnlyUnresolved.feed {outer : List Scope} {target : String} {args : List Node}
    {work : Work} (hargs : ∀ arg ∈ args, arg.isArgument = true ∧ arg.WellMade)
    (hwork : work.OnlyUnresolved) : (feed setting outer target args work).OnlyUnresolved :=
  ((arguments_onlyUnresolved setting outer).all args hargs work hwork).addInflows _ _

theorem statements_onlyUnresolved :
    Node.StatementCases
      (fun value => value.isBuilt = true → value.WellMade → ∀ outer (work : Work),
        work.OnlyUnresolved → (lowerValue setting outer value work).2.OnlyUnresolved)
      (fun node => node.isStatement = true → node.WellMade → ∀ outer (work : Work),
        work.OnlyUnresolved → (lower setting outer node work).OnlyUnresolved)
      (fun nodes => (∀ node ∈ nodes, node.isStatement = true ∧ node.WellMade) →
        ∀ outer (work : Work), work.OnlyUnresolved →
          (lowerAll setting outer nodes work).OnlyUnresolved) where
  call name args styling extent _ hmade outer work hwork := by
    rw [lowerValue_call]
    exact (hwork.placeCall name styling).feed setting hmade.args_call
  scope name body bodyExtent args argsExtent styling extent hbody _ hmade outer work hwork := by
    have hinside : (lowerInside setting outer name body styling work).OnlyUnresolved :=
      hbody hmade.body_scope _ _ (OnlyUnresolved.enter _ name styling hwork)
    rw [lowerValue_scope]
    exact OnlyUnresolved.feed setting hmade.args_scope hinside
  package location label extent _ _ outer work hwork := hwork.attachPackage location label extent
  unbuilt node hnode hbuilt := by simp [hnode] at hbuilt
  bareCall name args styling extent hvalue _ hmade outer work hwork := by
    rw [lower_call]
    exact hvalue rfl hmade outer work hwork
  bareScope name body bodyExtent args argsExtent styling extent hvalue _ hmade outer work
      hwork := by
    rw [lower_scope]
    exact hvalue rfl hmade outer work hwork
  barePackage location label extent _ _ outer work hwork := by
    rw [lower_package]
    exact hwork.package location label extent
  reference path extent _ _ outer work hwork := by
    rw [lower_variable]
    exact hwork
  incomplete targets extent _ hmade := by
    obtain ⟨-, right, hright, -⟩ := (Node.throughout_iff.mp hmade).1
    cases hright
  synonym targets path place extent _ hmade outer work hwork := by
    rw [lower_synonym]
    exact (hwork.prepareTargets (Node.throughout_iff.mp hmade).1.1 extent).alias targets path place
  assigned targets value extent hvariable hvalue _ hmade outer work hwork := by
    obtain ⟨hkind, hright⟩ := hmade.right_assigned
    have hbuilt : value.isBuilt = true := by simpa [Node.isRightSide, hvariable] using hkind
    have hprepared : (prepareTargets outer targets extent work).OnlyUnresolved :=
      hwork.prepareTargets (Node.throughout_iff.mp hmade).1.1 extent
    rw [lower_assigned setting outer work targets extent hvariable]
    exact (hvalue hbuilt hright outer _ hprepared).bindTargets targets _
  namedStyle name style extent _ _ outer work hwork := by
    rw [lower_namedStyle]
    exact hwork.flatten style
  styleBinding keyword tags extent _ _ outer work hwork := by
    rw [lower_styleBinding]
    exact hwork
  other node hnode hkind := by simp [hnode] at hkind
  nil _ outer work hwork := by
    rw [lowerAll]
    exact hwork
  cons node rest hnode hrest hall outer work hwork := by
    rw [List.forall_mem_cons] at hall
    rw [lowerAll]
    exact hrest hall.2 outer _ (hnode hall.1.1 hall.1.2 outer work hwork)

/-- A recipe in which everything stands where it belongs can only fail to find what it refers to. -/
theorem lowerRecipe_onlyUnresolved {recipe : Recipe} (h : recipe.toNode.WellMade)
    (world : Package.World) :
    (lowerRecipe setting recipe.statements world).OnlyUnresolved := by
  obtain ⟨hkind, hmade⟩ := Node.throughout_iff.mp h
  refine (statements_onlyUnresolved setting).all recipe.statements
    (fun node hin => ⟨hkind node hin, hmade node hin⟩) [] _ ?_
  exact OnlyUnresolved.enter none "" none (by simp [OnlyUnresolved])

end Lowering

/-- A text that is read is built into a recipe without remarks, everything in it stands where it
belongs, and whatever compiles it only finds references and packages missing. -/
theorem accepted_only_unresolved {text filename : String} {tree : Tree}
    (h : parse text filename = .ok tree) :
    (ofTree tree text).diagnostics = [] ∧
      (∀ node, (ofTree tree text).recipe.toNode.Reaches node → node.IsProper) ∧
      ∀ (compiler : Compiler) (name : String) (chain : List String) (world : Package.World),
        ∀ diagnostic ∈ (compiler.compile text name chain world).1.diagnostics,
          diagnostic.origin = .reference ∨ diagnostic.origin = .package := by
  obtain ⟨derivation, hderive⟩ := parse_ok_iff.mp ⟨tree, h⟩
  have htext := ofText_of_parse h
  have hmade := wellMade_read hderive
  refine ⟨?_, ?_, fun compiler name chain world diagnostic hin => ?_⟩
  · rw [← htext, ofText_read hderive]
  · rw [← htext]
    exact hmade filename
  · have hbuilt : (ofText text name).diagnostics = [] := by rw [ofText_read hderive]
    change diagnostic ∈ (ofText text name).diagnostics ++ _ at hin
    rw [hbuilt, List.nil_append] at hin
    exact lowerRecipe_onlyUnresolved (compiler.setting chain) (hmade name) world diagnostic hin

theorem accepted_only_unresolved_nested :
    ∃ tree, parse "a, b = n[f(x); #s](g(y.z))\x7b#t\x7d\n@\"p\"" "" = .ok tree ∧
      (ofTree tree "a, b = n[f(x); #s](g(y.z))\x7b#t\x7d\n@\"p\"").diagnostics = [] ∧
      (∀ node, (ofTree tree "a, b = n[f(x); #s](g(y.z))\x7b#t\x7d\n@\"p\"").recipe.toNode.Reaches
        node → node.IsProper) ∧
      ∀ (compiler : Compiler) (name : String) (chain : List String) (world : Package.World),
        ∀ diagnostic ∈ (compiler.compile "a, b = n[f(x); #s](g(y.z))\x7b#t\x7d\n@\"p\"" name chain
            world).1.diagnostics,
          diagnostic.origin = .reference ∨ diagnostic.origin = .package := by
  obtain ⟨tree, h⟩ : ∃ tree, parse "a, b = n[f(x); #s](g(y.z))\x7b#t\x7d\n@\"p\"" "" = .ok tree :=
    parse_ok_of_isSome (by decide +kernel)
  exact ⟨tree, h, accepted_only_unresolved h⟩

end Compile

end RecipeGraph
