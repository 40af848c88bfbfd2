import RecipeGraph.Proofs.Progress

/-!
Packages whose results are known beforehand. What comes of a text depends on its packages through
their results alone. So if those are foretold, the text can be lowered beside any world, and the
packages need not be brought in.
-/
namespace RecipeGraph.Compile

open RecipeGraph.Graph Recipe Package

/-- The same work beside another world, with as many ids given out. -/
def Work.beside (aside : World) (work : Work) : Work :=
  { work with world := { aside with issued := work.world.issued } }

/-- The setting in which the results of packages are foretold and nothing is brought in. -/
def Setting.foretold (setting : Setting) (told : String → Except Fault Scope) : Setting :=
  { setting with loader := some fun location _ world => (told location, world) }

section Beside

variable (aside : World) (told : String → Except Fault Scope) (setting : Setting)
  (outer : List Scope)

theorem foldl_beside {α : Type} {step step' : Work → α → Work}
    (hstep : ∀ work item, step' (work.beside aside) item = (step work item).beside aside)
    (items : List α) (work : Work) :
    items.foldl step' (work.beside aside) = (items.foldl step work).beside aside := by
  induction items generalizing work with
  | nil => rfl
  | cons item rest ih =>
    rw [List.foldl_cons, List.foldl_cons, hstep]
    exact ih (step work item)

theorem checkTag_beside (work : Work) (tag : Node) :
    (work.beside aside).checkTag outer tag = (work.checkTag outer tag).beside aside := by
  unfold Work.checkTag
  rw [apply_ite (Work.beside aside)]
  rfl

theorem checkTags_beside (styling : Option Node) (work : Work) :
    (work.beside aside).checkTags outer styling = (work.checkTags outer styling).beside aside := by
  cases styling with
  | none => rfl
  | some style => exact foldl_beside aside (checkTag_beside aside outer) style.tags work

theorem checkLeft_beside (targets : List Node) (extent : Option Span) (work : Work) :
    checkLeft targets extent (work.beside aside) =
      (checkLeft targets extent work).beside aside := by
  unfold checkLeft
  rw [apply_ite (Work.beside aside)]
  rfl

theorem prepareTargets_beside (targets : List Node) (extent : Option Span) (work : Work) :
    prepareTargets outer targets extent (work.beside aside) =
      (prepareTargets outer targets extent work).beside aside := by
  unfold prepareTargets
  rw [checkLeft_beside]
  exact foldl_beside aside (fun work target => checkTags_beside aside outer target.styling work)
    targets _

theorem flatten_beside (style : Node) (work : Work) :
    flatten outer style (work.beside aside) =
      (flatten outer style work).map id (Work.beside aside) := by
  have hfold : ∀ (step : Properties × Work → Node → Properties × Work),
      (∀ state tag, step (state.map id (Work.beside aside)) tag =
        (step state tag).map id (Work.beside aside)) →
      ∀ (tags : List Node) state, tags.foldl step (state.map id (Work.beside aside)) =
        (tags.foldl step state).map id (Work.beside aside) := by
    intro step hstep tags
    induction tags with
    | nil => exact fun state => rfl
    | cons tag rest ih =>
      intro state
      rw [List.foldl_cons, List.foldl_cons, hstep]
      exact ih (step state tag)
  unfold flatten
  refine congrArg (fun state : Properties × Work => (state.1.merge style.properties, state.2))
    (hfold _ ?_ style.tags ({}, work))
  intro state tag
  have hstyle : (state.map id (Work.beside aside)).2.style? outer tag.path =
      state.2.style? outer tag.path := rfl
  rw [hstyle]
  cases state.2.style? outer tag.path <;> rfl

theorem bindAll_beside (id : String) (look : Node → Option Look) (targets : List Node)
    (work : Work) :
    targets.foldl (Work.bindTarget id look) (work.beside aside) =
      (targets.foldl (Work.bindTarget id look) work).beside aside :=
  foldl_beside aside (fun _ _ => rfl) targets work

theorem bindTargets_beside (targets : List Node) (value : Option String) (work : Work) :
    bindTargets targets value (work.beside aside) =
      (bindTargets targets value work).beside aside := by
  cases value with
  | none => rfl
  | some id => exact bindAll_beside aside id _ targets work

theorem synonym_beside (targets : List Node) (path : Path) (extent : Option Span) (work : Work) :
    lowerAlias outer targets path extent (work.beside aside) =
      (lowerAlias outer targets path extent work).beside aside := by
  have hfound : (work.beside aside).elementOf? outer path = work.elementOf? outer path := rfl
  unfold lowerAlias
  rw [hfound]
  cases work.elementOf? outer path with
  | none => rfl
  | some id => exact bindAll_beside aside id _ targets work

theorem enter_beside (given : Option String) (name : String) (styling : Option Node)
    (work : Work) :
    enter (setting.foretold told) outer given name styling (work.beside aside) =
      (enter setting outer given name styling work).beside aside := by
  unfold enter
  cases given.filter (· ≠ "") with
  | some id =>
    exact checkTags_beside aside outer styling { work with
      scope := .ofContents { id := id, name := name, look := (lookOf styling).getD {} } }
  | none =>
    exact checkTags_beside aside outer styling { (work.freshId setting).2 with
      scope := .ofContents
        { id := setting.idOf work.world.issued, name := name, look := (lookOf styling).getD {} } }

theorem placeCall_beside (name : String) (styling : Option Node) (work : Work) :
    placeCall (setting.foretold told) outer name styling (work.beside aside) =
      (placeCall setting outer name styling work).beside aside :=
  congrArg (Work.update · _) (checkTags_beside aside outer styling (work.freshId setting).2)

theorem addInflows_beside (target : String) (inflows : List Inflow) (work : Work) :
    (work.beside aside).addInflows (setting.foretold told) target inflows =
      (work.addInflows setting target inflows).beside aside :=
  foldl_beside aside (fun _ _ => rfl) inflows work

theorem arguments_beside :
    Node.ArgumentCases
      (fun arg => ∀ work, lowerArg (setting.foretold told) outer arg (work.beside aside) =
        (lowerArg setting outer arg work).map id (Work.beside aside))
      (fun args => ∀ work, lowerArgs (setting.foretold told) outer args (work.beside aside) =
        (lowerArgs setting outer args work).map id (Work.beside aside)) where
  call name args styling extent hargs work := by
    rw [lowerArg_call, lowerArg_call, placeCall_beside]
    unfold feed
    rw [hargs]
    exact congrArg (Prod.mk _) (addInflows_beside aside told setting _ _ _)
  reference path extent work := by
    have hfound : (work.beside aside).elementOf? outer path = work.elementOf? outer path := rfl
    rw [lowerArg_variable, lowerArg_variable, hfound]
    cases work.elementOf? outer path <;> rfl
  other node hnode work := by
    rw [lowerArg_other _ _ _ hnode, lowerArg_other _ _ _ hnode]
    rfl
  nil work := rfl
  cons arg rest hfirst hrest work := by
    rw [lowerArgs_cons, lowerArgs_cons, hfirst]
    dsimp only [Prod.map]
    rw [hrest]
    rfl

theorem feed_beside (target : String) (args : List Node) (work : Work) :
    feed (setting.foretold told) outer target args (work.beside aside) =
      (feed setting outer target args work).beside aside := by
  unfold feed
  rw [(arguments_beside aside told setting outer).all args]
  exact addInflows_beside aside told setting target _ _

end Beside

/-- The loader brings in what was foretold, as long as things end where they should. It gives out
no ids of the text. -/
structure Foreseen (setting : Setting) (loader : Loader) (told : String → Except Fault Scope)
    (ending : World → Prop) (location : String) : Prop where
  issued : ∀ world, (loader location setting.chain world).2.issued = world.issued
  back : ∀ world, ending (loader location setting.chain world).2 → ending world
  result : ∀ world, ending (loader location setting.chain world).2 →
    (loader location setting.chain world).1 = told location

section Foreseen

variable {setting : Setting} {loader : Loader} {told : String → Except Fault Scope}
  {ending : World → Prop} {location : String} (hloader : setting.loader = some loader)

  (hgrowth : Growth fun work after => ending after.world → ending work.world)

include hloader hgrowth

section Packages

variable (aside : World) (h : Foreseen setting loader told ending location)

include h

omit hgrowth in
theorem Foreseen.bringIn (extent : Option Span) (work : Work)
    (hending : ending (bringIn setting location extent work).2.world) :
    bringIn (setting.foretold told) location extent (work.beside aside) =
      (bringIn setting location extent work).map id (Work.beside aside) := by
  have hissued := h.issued work.world
  have hresult := h.result work.world
  rcases hload : loader location setting.chain work.world with ⟨fault | package, world⟩
  · rw [bringIn_failed hloader hload] at hending ⊢
    rw [hload] at hissued hresult
    rw [bringIn_failed rfl (congrArg (·, _) (hresult hending).symm)]
    dsimp only [Prod.map, Work.beside, Work.report]
    rw [hissued]
    rfl
  · rw [bringIn_arrived hloader hload] at hending ⊢
    rw [hload] at hissued hresult
    rw [bringIn_arrived rfl (congrArg (·, _) (hresult hending).symm)]
    dsimp only [Prod.map, Work.beside]
    rw [hissued]
    rfl

theorem Foreseen.attachPackage (label : Option String) (extent : Option Span) (work : Work)
    (hending : ending (attachPackage setting location label extent work).2.world) :
    attachPackage (setting.foretold told) location label extent (work.beside aside) =
      (attachPackage setting location label extent work).map id (Work.beside aside) := by
  have hbrought := h.bringIn hloader aside extent work
  rcases hbring : Compile.bringIn setting location extent work with ⟨_ | package, after⟩ <;>
    rw [hbring] at hbrought
  · rw [attachPackage_absent hbring] at hending ⊢
    exact attachPackage_absent (hbrought hending) label
  · rw [attachPackage_present hbring] at hending ⊢
    have hback := hgrowth.trans (hgrowth.freshId setting after) (hgrowth.scope _ _) hending
    exact attachPackage_present (hbrought hback) label

theorem Foreseen.package (label : Option String) (extent : Option Span) (work : Work)
    (hending : ending (lowerPackage setting location label extent work).world) :
    lowerPackage (setting.foretold told) location label extent (work.beside aside) =
      (lowerPackage setting location label extent work).beside aside := by
  cases label with
  | some name =>
    exact congrArg Prod.snd (h.attachPackage hloader hgrowth aside (some name) extent work hending)
  | none =>
    have hbrought := h.bringIn hloader aside extent work
    rcases hbring : Compile.bringIn setting location extent work with ⟨_ | package, after⟩ <;>
      rw [hbring] at hbrought
    · rw [lowerPackage_absent hbring] at hending ⊢
      exact lowerPackage_absent (hbrought hending)
    · rw [lowerPackage_present hbring] at hending ⊢
      exact lowerPackage_present (hbrought hending)

end Packages

variable (known : String → Prop)
  (hforeseen : ∀ location, known location → Foreseen setting loader told ending location)

include hforeseen

theorem statements_back :
    Node.StatementCases
      (fun value => (∀ location ∈ Node.locationsOfValue (some value), known location) →
        ∀ outer work, ending (lowerValue setting outer value work).2.world → ending work.world)
      (fun node => (∀ location ∈ node.locations, known location) →
        ∀ outer work, ending (lower setting outer node work).world → ending work.world)
      (fun nodes => (∀ location ∈ Node.locationsOfAll nodes, known location) →
        ∀ outer work, ending (lowerAll setting outer nodes work).world → ending work.world) := by
  refine hgrowth.statements setting known fun location hlocation other hother work => ?_
  rw [hloader] at hother
  cases hother
  exact (hforeseen location hlocation).back work.world

/-- With foresight the same comes of all statements, whatever they are beside. -/
theorem statements_foretold (aside : World) :
    Node.StatementCases
      (fun value => (∀ location ∈ Node.locationsOfValue (some value), known location) →
        ∀ outer work, ending (lowerValue setting outer value work).2.world →
        lowerValue (setting.foretold told) outer value (work.beside aside) =
          (lowerValue setting outer value work).map id (Work.beside aside))
      (fun node => (∀ location ∈ node.locations, known location) →
        ∀ outer work, ending (lower setting outer node work).world →
        lower (setting.foretold told) outer node (work.beside aside) =
          (lower setting outer node work).beside aside)
      (fun nodes => (∀ location ∈ Node.locationsOfAll nodes, known location) →
        ∀ outer work, ending (lowerAll setting outer nodes work).world →
        lowerAll (setting.foretold told) outer nodes (work.beside aside) =
          (lowerAll setting outer nodes work).beside aside) where
  call name args styling extent _ outer work _ := by
    rw [lowerValue_call, lowerValue_call, placeCall_beside, feed_beside]
    rfl
  scope name body _ args _ styling _ hbody hknown outer work hending := by
    have hdone : ending (lowerInside setting outer name body styling work).world :=
      hgrowth.trans (hgrowth.scope _ _) (hgrowth.feed setting _ _ _ _) hending
    have hinside : lowerInside (setting.foretold told) outer name body styling
        (work.beside aside) = (lowerInside setting outer name body styling work).beside aside := by
      unfold lowerInside
      rw [← hbody hknown _ _ hdone]
      exact congrArg _ (enter_beside aside told setting _ _ name styling (work.freshId setting).2)
    rw [lowerValue_scope, lowerValue_scope]
    unfold lowerNested
    dsimp only
    rw [hinside]
    generalize lowerInside setting outer name body styling work = inside
    exact congrArg (Prod.mk _) (feed_beside aside told setting outer
      (setting.idOf work.world.issued) args
      { inside with scope := work.scope.attach inside.scope })
  package location label extent hknown outer work hending :=
    (hforeseen location (hknown location (List.mem_singleton_self location))).attachPackage
      hloader hgrowth aside label extent work hending
  unbuilt node hnode _ outer work _ := by
    rw [lowerValue_unbuilt _ _ _ hnode, lowerValue_unbuilt _ _ _ hnode]
    rfl
  bareCall name args styling extent hvalue _ outer work hending := by
    rw [lower_call] at hending ⊢
    rw [lower_call, hvalue (fun _ hnone => nomatch hnone) outer work hending]
    rfl
  bareScope name body bodyExtent args argsExtent styling extent hvalue hknown outer work
      hending := by
    rw [lower_scope] at hending ⊢
    rw [lower_scope, hvalue hknown outer work hending]
    rfl
  barePackage location label extent hknown outer work hending := by
    rw [lower_package] at hending ⊢
    rw [lower_package]
    exact (hforeseen location (hknown location (List.mem_singleton_self location))).package
      hloader hgrowth aside label extent work hending
  reference path extent _ outer work _ := by
    rw [lower_variable, lower_variable]
  incomplete targets extent _ outer work _ := by
    rw [lower_incomplete, lower_incomplete, checkLeft_beside]
    rfl
  synonym targets path place extent _ outer work _ := by
    rw [lower_synonym, lower_synonym, prepareTargets_beside, synonym_beside]
  assigned targets value extent hvariable hvalue hknown outer work hending := by
    rw [lower_assigned _ _ _ _ _ hvariable] at hending
    rw [lower_assigned _ _ _ _ _ hvariable, lower_assigned _ _ _ _ _ hvariable,
      prepareTargets_beside]
    have hbound := hgrowth.bindTargets targets _ _ hending
    dsimp only
    rw [hvalue hknown outer _ hbound]
    exact bindTargets_beside aside targets _ _
  namedStyle name style extent _ outer work _ := by
    rw [lower_namedStyle, lower_namedStyle]
    unfold lowerNamedStyle
    rw [flatten_beside]
    rfl
  styleBinding keyword tags extent _ outer work _ := by
    rw [lower_styleBinding, lower_styleBinding]
    rfl
  other node hnode _ outer work _ := by
    rw [lower_other _ _ _ hnode, lower_other _ _ _ hnode]
    rfl
  nil _ outer work _ := by
    rw [lowerAll, lowerAll]
  cons node rest hnode hrest hknown outer work hending := by
    have hfirst : ∀ location ∈ node.locations, known location :=
      fun location hin => hknown location (List.mem_append_left _ hin)
    have hothers : ∀ location ∈ Node.locationsOfAll rest, known location :=
      fun location hin => hknown location (List.mem_append_right _ hin)
    rw [lowerAll] at hending
    rw [lowerAll, lowerAll]
    have hback := (statements_back hloader hgrowth known hforeseen).all rest hothers outer _ hending
    rw [hnode hfirst outer work hback]
    exact hrest hothers outer _ hending

omit hforeseen in
/-- With foresight the same comes of a whole text, and in no world in particular. -/
theorem recipe_foretold {statements : List Node}
    (hforeseen : ∀ location ∈ Node.locationsOfAll statements,
      Foreseen setting loader told ending location)
    (aside : World) {world : World} (hissued : world.issued = aside.issued)
    (hending : ending (lowerRecipe setting statements world).world) :
    lowerRecipe (setting.foretold told) statements aside =
      (lowerRecipe setting statements world).beside aside := by
  have hbegin : (⟨aside, [], .ofContents { id := "" }⟩ : Work) =
      Work.beside aside ⟨world, [], .ofContents { id := "" }⟩ := by
    unfold Work.beside
    rw [hissued]
  unfold lowerRecipe lowerInto at *
  dsimp only at *
  rw [hbegin, enter_beside aside told setting]
  exact (statements_foretold hloader hgrowth (· ∈ Node.locationsOfAll statements) hforeseen
    aside).all statements (fun _ hin => hin) [] _ hending

end Foreseen

end RecipeGraph.Compile
