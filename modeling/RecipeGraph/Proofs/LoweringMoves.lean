import RecipeGraph.Proofs.LoweringCases
import RecipeGraph.Proofs.Moves

/-!
Lowering goes by moves: each statement takes the stage before it to the stage after it, and
bringing in a package does so with the package on the shelf in the end. What holds of every
stage that can be reached therefore holds of whatever is compiled.
-/
namespace RecipeGraph.Compile

open RecipeGraph.Graph Recipe Package

/-- The stage at which the work stands in the innermost frame. -/
def Stage.showing (stage : Stage) (work : Work) (ready : List String) : Stage :=
  { stage with
    issued := work.world.issued
    frame := { stage.frame with scope := work.scope }
    ready := ready }

/-- The stage in a new scope, inside the one that the work shows. -/
def Stage.inside (stage : Stage) (work : Work) : Stage :=
  { stage with
    frame := ⟨stage.frame.scope, []⟩
    outer := ⟨work.scope, stage.frame.waiting⟩ :: stage.outer }

theorem Stage.showing_congr (stage : Stage) {work other : Work} (ready : List String)
    (hworld : other.world = work.world) (hscope : other.scope = work.scope) :
    stage.showing other ready = stage.showing work ready := by
  unfold Stage.showing
  rw [hworld, hscope]

/-- Work goes on inside one scope, and no package is touched. -/
structure Continues (idOf : Nat → String) (stage : Stage) (work : Work) (ready : List String)
    (after : Work) (readyAfter : List String) : Prop where
  run : Run idOf (stage.showing work ready) (stage.showing after readyAfter)
  cache : after.world.cache = work.world.cache
  id : after.scope.id = work.scope.id

namespace Continues

variable {idOf : Nat → String} {stage : Stage} {work middle after : Work}
  {ready readyMiddle readyAfter : List String}

theorem trans (first : Continues idOf stage work ready middle readyMiddle)
    (second : Continues idOf stage middle readyMiddle after readyAfter) :
    Continues idOf stage work ready after readyAfter :=
  ⟨first.run.trans second.run, second.cache.trans first.cache, second.id.trans first.id⟩

/-- A stage shows nothing of the diagnostics. -/
theorem of_eq (hworld : after.world = work.world) (hscope : after.scope = work.scope) :
    Continues idOf stage work ready after ready := by
  refine ⟨?_, by rw [hworld], by rw [hscope]⟩
  rw [stage.showing_congr ready hworld hscope]

theorem of_quiet (h : Work.Quiet work after) : Continues idOf stage work ready after ready :=
  of_eq h.world h.scope

theorem report (extent : Span) (problem : Problem) :
    Continues idOf stage work ready (work.report extent problem) ready :=
  of_eq rfl rfl

theorem drop {kept : List String} (h : kept ⊆ ready) :
    Continues idOf stage work ready work kept :=
  ⟨.single (.drop (stage.showing work ready) h), rfl, rfl⟩

theorem adorn (adornment : Adornment) :
    Continues idOf stage work ready (work.update adornment.apply) ready := by
  refine ⟨.single (.adorn (stage.showing work ready) adornment), rfl, ?_⟩
  unfold Work.update Scope.id
  rw [Scope.contents_mapContents, adornment.id_apply]

end Continues

section Arguments

variable (setting : Setting)

theorem addInflows_continues {stage : Stage} (work : Work) {ready : List String} (target : String)
    (inflows : List Inflow) (htarget : target ∈ stage.frame.waiting)
    (hready : inflows.map (·.source) ⊆ ready) :
    Continues setting.idOf stage work ready (work.addInflows setting target inflows) ready := by
  induction inflows generalizing work with
  | nil => exact .of_eq rfl rfl
  | cons inflow rest ih =>
    rw [List.map_cons, List.cons_subset] at hready
    have hedge : Continues setting.idOf stage work ready
        (Work.addInflow setting target work inflow) ready := by
      refine ⟨.single ?_, rfl, ?_⟩
      · exact .edge (stage.showing work ready) inflow.name (inflow.look.getD {})
          hready.1 htarget
      · unfold Work.addInflow Work.update Scope.id
        rw [Scope.contents_mapContents]
        rfl
    exact hedge.trans (ih _ hready.2)

/-- The sources of the values that came of some arguments. -/
def sources (inflows : List Inflow) : List String :=
  inflows.map (·.source)

theorem placeCall_run (outer : List Scope) (name : String) (styling : Option Node)
    (stage : Stage) (work : Work) (ready : List String) :
    Run setting.idOf (stage.showing work ready)
      ((stage.await (setting.idOf work.world.issued)).showing
        (placeCall setting outer name styling work) ready) := by
  have hmove : Move setting.idOf _ _ := .vertex (stage.showing work ready) name
    ((lookOf styling).getD {})
  have hplaced : ((stage.await (setting.idOf work.world.issued)).showing
      (placeCall setting outer name styling work) ready) =
      (((stage.showing work ready).issue.edit
        (·.addVertex ⟨setting.idOf work.world.issued, name, (lookOf styling).getD {}⟩)).await
          (setting.idOf work.world.issued)) := by
    simp [placeCall, Stage.showing, Stage.await, Stage.edit, Stage.withScope, Stage.issue,
      Work.freshId]
  rw [hplaced]
  exact .single hmove

theorem feed_continues {outer : List Scope} {args : List Node} {stage : Stage} {work : Work}
    {ready : List String} {target : String} (htarget : target ∈ stage.frame.waiting)
    (hargs : Continues setting.idOf stage work ready (lowerArgs setting outer args work).2
      (sources (lowerArgs setting outer args work).1 ++ ready)) :
    Continues setting.idOf stage work ready (feed setting outer target args work) ready := by
  have hedges := addInflows_continues setting (lowerArgs setting outer args work).2 target
    (lowerArgs setting outer args work).1 htarget
    (List.subset_append_left _ ready)
  exact (hargs.trans hedges).trans (.drop (List.subset_append_right _ ready))

/-- An element that has all its inflows is ready. -/
theorem settle_run (stage : Stage) (work : Work) (ready : List String) (id : String) :
    Run setting.idOf ((stage.await id).showing work ready) (stage.showing work (id :: ready)) :=
  .single (.settle ((stage.await id).showing work ready) rfl)

theorem arguments_continue (outer : List Scope) :
    Node.ArgumentCases
      (fun arg => ∀ stage work ready, stage.outerScopes = outer →
        Continues setting.idOf stage work ready (lowerArg setting outer arg work).2
          (sources (lowerArg setting outer arg work).1.toList ++ ready))
      (fun args => ∀ stage work ready, stage.outerScopes = outer →
        Continues setting.idOf stage work ready (lowerArgs setting outer args work).2
          (sources (lowerArgs setting outer args work).1 ++ ready)) where
  call name args styling extent ih stage work ready houter := by
    rw [lowerArg_call]
    have hplaced := placeCall_run setting outer name styling stage work ready
    have hargs := ih (stage.await (setting.idOf work.world.issued))
      (placeCall setting outer name styling work) ready houter
    have hfed := feed_continues setting (List.mem_cons_self ..) hargs
    refine ⟨(hplaced.trans hfed.run).trans (settle_run setting stage _ ready _), ?_, ?_⟩
    · rw [hfed.cache]
      simp [placeCall, Work.freshId]
    · rw [hfed.id]
      simp [placeCall, Scope.id, Contents.addVertex]
      rfl
  reference path extent stage work ready houter := by
    rw [lowerArg_variable]
    cases hfound : work.elementOf? outer path with
    | none => exact .report _ _
    | some id =>
      subst houter
      have hresolve : work.scope.resolve Contents.variableIds stage.outerScopes path =
          some id := (Option.filter_eq_some_iff.mp hfound).1
      exact ⟨.single (.refer (stage.showing work ready) hresolve), rfl, rfl⟩
  other node hnode stage work ready houter := by
    rw [lowerArg_other setting outer work hnode]
    exact .report _ _
  nil stage work ready houter := .of_eq rfl rfl
  cons arg rest hfirst hrest stage work ready houter := by
    rw [lowerArgs_cons]
    have hone := hfirst stage work ready houter
    have hothers := hrest stage (lowerArg setting outer arg work).2
      (sources (lowerArg setting outer arg work).1.toList ++ ready) houter
    refine (hone.trans hothers).trans (.drop ?_)
    intro id hid
    simp only [sources, List.map_append, List.mem_append] at hid ⊢
    tauto

end Arguments

/-- Every package in the cache is on the shelf. -/
def Stocked (shelf : List Scope) (world : World) : Prop :=
  ∀ location package, world.cache.get? location = some (.loaded (.ok package)) →
    package ∈ shelf

theorem Stocked.congr {shelf : List Scope} {world after : World} (h : Stocked shelf world)
    (hcache : after.cache = world.cache) : Stocked shelf after := by
  unfold Stocked
  rw [hcache]
  exact h

/-- Work goes on, perhaps in other texts too, and comes back to the same frames. Packages may
have been added to the shelf. -/
def Reaches (idOf : Nat → String) (stage : Stage) (work : Work) (ready : List String)
    (after : Work) (readyAfter : List String) : Prop :=
  ∃ shelf, Run idOf (stage.showing work ready)
      ({ stage with shelf := shelf }.showing after readyAfter) ∧
    Stocked shelf after.world ∧ after.scope.id = work.scope.id

/-- Bringing in a package goes by moves, and the package is on the shelf afterwards. -/
def LoadsByMoves (idOf : Nat → String) (loader : Loader) : Prop :=
  ∀ (stage : Stage) location chain world, stage.issued = world.issued → stage.ready = [] →
    Stocked stage.shelf world →
    ∃ shelf, Run idOf stage
        { stage with issued := (loader location chain world).2.issued, shelf := shelf } ∧
      Stocked shelf (loader location chain world).2 ∧
      ∀ package, (loader location chain world).1 = .ok package → package ∈ shelf

section Statements

variable {idOf : Nat → String} {stage : Stage} {work middle after : Work}
  {ready readyMiddle readyAfter : List String}

theorem Continues.reaches (h : Continues idOf stage work ready after readyAfter)
    (hstocked : Stocked stage.shelf work.world) :
    Reaches idOf stage work ready after readyAfter :=
  ⟨stage.shelf, h.run, hstocked.congr h.cache, h.id⟩

theorem Reaches.trans (first : Reaches idOf stage work ready middle readyMiddle)
    (second : ∀ shelf, Stocked shelf middle.world →
      Reaches idOf { stage with shelf := shelf } middle readyMiddle after readyAfter) :
    Reaches idOf stage work ready after readyAfter := by
  obtain ⟨shelf, hrun, hstocked, hid⟩ := first
  obtain ⟨shelf', hrun', hstocked', hid'⟩ := second shelf hstocked
  exact ⟨shelf', hrun.trans hrun', hstocked', hid'.trans hid⟩

variable (setting : Setting)

theorem bindTarget_continues (id : String) (look : Node → Option Look) (target : Node)
    (h : id ∈ ready) :
    Continues idOf stage work ready (Work.bindTarget id look work target) ready := by
  refine ⟨.single (.bind (stage.showing work ready) h target.name (look target)), rfl, ?_⟩
  unfold Work.bindTarget Work.update Scope.id
  rw [Scope.contents_mapContents]
  rfl

theorem foldl_bindTarget_continues (id : String) (look : Node → Option Look)
    (targets : List Node) (work : Work) (h : id ∈ ready) :
    Continues idOf stage work ready (targets.foldl (Work.bindTarget id look) work) ready := by
  induction targets generalizing work with
  | nil => exact .of_eq rfl rfl
  | cons target rest ih => exact (bindTarget_continues id look target h).trans (ih _)

theorem bindTargets_continues (targets : List Node) (value : Option String) (work : Work) :
    Continues idOf stage work value.toList (bindTargets targets value work) [] := by
  cases value with
  | none => exact .of_eq rfl rfl
  | some id =>
    exact (foldl_bindTarget_continues id _ targets work (List.mem_singleton_self id)).trans
      (.drop (List.nil_subset _))

theorem lowerAlias_continues (targets : List Node) (path : Path) (extent : Option Span)
    (work : Work) :
    Continues idOf stage work [] (lowerAlias stage.outerScopes targets path extent work) [] := by
  unfold lowerAlias
  cases hfound : work.elementOf? stage.outerScopes path with
  | none => exact .report _ _
  | some id =>
    have hresolve : work.scope.resolve Contents.variableIds stage.outerScopes path =
        some id := (Option.filter_eq_some_iff.mp hfound).1
    have hrefer : Continues idOf stage work [] work [id] :=
      ⟨.single (.refer (stage.showing work []) hresolve), rfl, rfl⟩
    have hbind : Continues idOf stage work [id] _ [id] := foldl_bindTarget_continues id
      (fun target => (lookOf target.styling).or (work.variableLook? stage.outerScopes path))
      targets work (List.mem_singleton_self id)
    exact (hrefer.trans hbind).trans (.drop (List.nil_subset _))

theorem lowerNamedStyle_continues (outer : List Scope) (name : String) (style : Node)
    (work : Work) :
    Continues idOf stage work ready (lowerNamedStyle outer name style work) ready := by
  have hsame : Continues idOf stage work ready (flatten outer style work).2 ready :=
    .of_quiet (Work.quiet_flatten outer style work)
  exact hsame.trans (.adorn (.style name (flatten outer style work).1))

section Nested

variable (hne : ∀ n, setting.idOf n ≠ "")

include hne

theorem enter_run (stage : Stage) (name : String) (styling : Option Node) (work : Work) :
    Run setting.idOf (stage.showing work [])
      ((stage.inside work).showing
        (enter setting (work.scope :: stage.outerScopes) (some (setting.idOf work.world.issued))
          name styling (work.freshId setting).2) []) := by
  have henter := quiet_enter setting (work.scope :: stage.outerScopes)
    (hne work.world.issued) name styling (work.freshId setting).2
  have hmove : Move setting.idOf _ _ := .enter (stage.showing work []) name
    ((lookOf styling).getD {})
  refine .single ?_
  unfold Stage.showing
  rw [henter.world, henter.scope]
  exact hmove

omit hne in
/-- A scope that is done becomes a child and is fed. -/
theorem leave_run (stage : Stage) (work : Work) {inside : Work} (args : List Node)
    (hid : inside.scope.id = setting.idOf work.world.issued) :
    let fed := feed setting stage.outerScopes (setting.idOf work.world.issued) args
      { inside with scope := work.scope.attach inside.scope }
    Run setting.idOf ((stage.inside work).showing inside [])
        (stage.showing fed [setting.idOf work.world.issued]) ∧
      fed.world.cache = inside.world.cache ∧ fed.scope.id = work.scope.id := by
  intro fed
  have hleave : Run setting.idOf ((stage.inside work).showing inside [])
      ((stage.await (setting.idOf work.world.issued)).showing
        { inside with scope := work.scope.attach inside.scope } []) := by
    have hmove : Move setting.idOf _ _ := .leave ((stage.inside work).showing inside []) rfl rfl
    rw [← hid]
    exact .single hmove
  have hargs := (arguments_continue setting stage.outerScopes).all args
    (stage.await (setting.idOf work.world.issued))
    { inside with scope := work.scope.attach inside.scope } [] rfl
  have hfed := feed_continues setting (List.mem_cons_self ..) hargs
  have hsettle := settle_run setting stage fed [] (setting.idOf work.world.issued)
  exact ⟨(hleave.trans hfed.run).trans hsettle, hfed.cache, hfed.id⟩

theorem nested_reaches (name : String) (body args : List Node) (styling : Option Node)
    (hstocked : Stocked stage.shelf work.world)
    (hbody : ∀ (inner : Stage) (entered : Work),
      inner.outerScopes = work.scope :: stage.outerScopes → Stocked inner.shelf entered.world →
      Reaches setting.idOf inner entered []
        (lowerAll setting (work.scope :: stage.outerScopes) body entered) []) :
    Reaches setting.idOf stage work []
      (lowerNested setting stage.outerScopes name body args styling work).2
      [(lowerNested setting stage.outerScopes name body args styling work).1] := by
  have henter := enter_run setting hne stage name styling work
  have hgiven := quiet_enter setting (work.scope :: stage.outerScopes)
    (hne work.world.issued) name styling (work.freshId setting).2
  have hbegun : (enter setting (work.scope :: stage.outerScopes)
      (some (setting.idOf work.world.issued)) name styling (work.freshId setting).2).world.cache =
        work.world.cache := by
    rw [hgiven.world]
    rfl
  obtain ⟨shelf, hrun, hshelf, hid⟩ :=
    hbody (stage.inside work) _ rfl (hstocked.congr hbegun)
  rw [hgiven.scope] at hid
  obtain ⟨hleave, hcache, hsame⟩ :=
    leave_run setting { stage with shelf := shelf } work args hid
  exact ⟨shelf, (henter.trans hrun).trans hleave, hshelf.congr hcache, hsame⟩

end Nested

section Packages

variable {setting} (hloader : ∀ loader, setting.loader = some loader →
  LoadsByMoves setting.idOf loader)

include hloader

theorem bringIn_reaches (stage : Stage) (location : String) (extent : Option Span)
    (hstocked : Stocked stage.shelf work.world) :
    ∃ shelf, Run setting.idOf (stage.showing work [])
        ({ stage with shelf := shelf }.showing (bringIn setting location extent work).2 []) ∧
      Stocked shelf (bringIn setting location extent work).2.world ∧
      (bringIn setting location extent work).2.scope.id = work.scope.id ∧
      ∀ copied, (bringIn setting location extent work).1 = some copied →
        ∃ package ∈ shelf, copied = package.copy := by
  have hnoted : Continues setting.idOf stage work [] (work.update (·.addPackage location)) [] :=
    .adorn (.package location)
  have hasked := fun loader hsetting => hloader loader hsetting
    (stage.showing (work.update (·.addPackage location)) []) location setting.chain work.world
    rfl rfl hstocked
  generalize hbrought : bringIn setting location extent work = brought
  cases brought_of_eq hbrought with
  | unsupplied => exact ⟨stage.shelf, hnoted.run, hstocked, hnoted.id, fun _ hnone => nomatch hnone⟩
  | failed hsetting hload =>
    obtain ⟨shelf, hrun, hshelf, -⟩ := hasked _ hsetting
    rw [hload] at hrun hshelf
    exact ⟨shelf, hnoted.run.trans hrun, hshelf, hnoted.id, fun _ hnone => nomatch hnone⟩
  | @arrived loader package world hsetting hload =>
    obtain ⟨shelf, hrun, hshelf, hloaded⟩ := hasked _ hsetting
    rw [hload] at hrun hshelf hloaded
    refine ⟨shelf, hnoted.run.trans hrun, hshelf, hnoted.id, fun copied hcopied => ?_⟩
    exact ⟨package, hloaded package rfl, (Option.some.inj hcopied).symm⟩

theorem attachPackage_reaches (stage : Stage) (location : String) (label : Option String)
    (extent : Option Span)
    (hstocked : Stocked stage.shelf work.world) :
    Reaches setting.idOf stage work [] (attachPackage setting location label extent work).2
      (attachPackage setting location label extent work).1.toList := by
  obtain ⟨shelf, hrun, hshelf, hid, hcopied⟩ :=
    bringIn_reaches hloader stage location extent hstocked
  rcases hbring : bringIn setting location extent work with ⟨_ | copied, after⟩ <;>
    rw [hbring] at hrun hshelf hid hcopied
  · rw [attachPackage_absent hbring]
    exact ⟨shelf, hrun, hshelf, hid⟩
  · rw [attachPackage_present hbring]
    obtain ⟨package, hmem, rfl⟩ := hcopied copied rfl
    have hadopt : Move setting.idOf _ _ := .adopt
      ({ stage with shelf := shelf }.showing after []) hmem (label.getD "")
    exact ⟨shelf, hrun.tail hadopt, hshelf, hid⟩

theorem lowerPackage_reaches (location : String) (label : Option String) (extent : Option Span)
    (hstocked : Stocked stage.shelf work.world) :
    Reaches setting.idOf stage work [] (lowerPackage setting location label extent work) [] := by
  cases label with
  | some name =>
    have hattached := attachPackage_reaches hloader stage location (some name) extent
      hstocked
    exact hattached.trans fun shelf hshelf =>
      (Continues.drop (List.nil_subset _)).reaches hshelf
  | none =>
    obtain ⟨shelf, hrun, hshelf, hid, hcopied⟩ :=
      bringIn_reaches hloader stage location extent hstocked
    rcases hbring : bringIn setting location extent work with ⟨_ | copied, after⟩ <;>
      rw [hbring] at hrun hshelf hid hcopied
    · rw [lowerPackage_absent hbring]
      exact ⟨shelf, hrun, hshelf, hid⟩
    · rw [lowerPackage_present hbring]
      obtain ⟨package, hmem, rfl⟩ := hcopied copied rfl
      have habsorb : Move setting.idOf _ _ := .absorb
        ({ stage with shelf := shelf }.showing after []) hmem
      exact ⟨shelf, hrun.tail habsorb, hshelf, (Scope.id_merge _ _).trans hid⟩

end Packages

end Statements

section Texts

variable {setting : Setting} (hne : ∀ n, setting.idOf n ≠ "")
  (hloader : ∀ loader, setting.loader = some loader → LoadsByMoves setting.idOf loader)

include hne hloader

theorem statements_reach :
    Node.StatementCases
      (fun value => ∀ outer stage work, stage.outerScopes = outer →
        Stocked stage.shelf work.world →
        Reaches setting.idOf stage work [] (lowerValue setting outer value work).2
          (lowerValue setting outer value work).1.toList)
      (fun node => ∀ outer stage work, stage.outerScopes = outer →
        Stocked stage.shelf work.world →
        Reaches setting.idOf stage work [] (lower setting outer node work) [])
      (fun nodes => ∀ outer stage work, stage.outerScopes = outer →
        Stocked stage.shelf work.world →
        Reaches setting.idOf stage work [] (lowerAll setting outer nodes work) []) where
  call name args styling extent outer stage work houter hstocked := by
    have hcall := (arguments_continue setting outer).one (.call name args styling extent)
      stage work [] houter
    rw [lowerArg_call] at hcall
    rw [lowerValue_call]
    exact hcall.reaches hstocked
  scope name body _ args _ styling _ hbody outer stage work houter hstocked := by
    subst houter
    exact nested_reaches setting hne name body args styling hstocked
      (fun inner entered hinner => hbody _ inner entered hinner)
  package location label extent outer stage work houter hstocked :=
    attachPackage_reaches hloader stage location label extent hstocked
  unbuilt node hnode outer stage work houter hstocked := by
    rw [lowerValue_unbuilt setting outer work hnode]
    exact (Continues.report _ _).reaches hstocked
  bareCall name args styling extent hvalue outer stage work houter hstocked := by
    rw [lower_call]
    exact (hvalue outer stage work houter hstocked).trans fun shelf hshelf =>
      (Continues.drop (List.nil_subset _)).reaches hshelf
  bareScope name body bodyExtent args argsExtent styling extent hvalue outer stage work houter
      hstocked := by
    rw [lower_scope]
    exact (hvalue outer stage work houter hstocked).trans fun shelf hshelf =>
      (Continues.drop (List.nil_subset _)).reaches hshelf
  barePackage location label extent outer stage work houter hstocked := by
    rw [lower_package]
    exact lowerPackage_reaches hloader location label extent hstocked
  reference path extent outer stage work houter hstocked := by
    rw [lower_variable]
    exact (Continues.of_eq rfl rfl).reaches hstocked
  incomplete targets extent outer stage work houter hstocked := by
    rw [lower_incomplete]
    have hleft := Work.quiet_checkLeft targets extent work
    exact ((Continues.of_quiet hleft).trans (.report _ _)).reaches hstocked
  synonym targets path place extent outer stage work houter hstocked := by
    subst houter
    rw [lower_synonym]
    have hprepared : Continues setting.idOf stage work [] _ [] :=
      .of_quiet (quiet_prepareTargets stage.outerScopes targets extent work)
    exact (hprepared.trans (lowerAlias_continues targets path place _)).reaches hstocked
  assigned targets value extent hvariable hvalue outer stage work houter hstocked := by
    rw [lower_assigned setting outer work targets extent hvariable]
    have hprepared : Reaches setting.idOf stage work [] _ [] :=
      (Continues.of_quiet (quiet_prepareTargets outer targets extent work)).reaches hstocked
    refine hprepared.trans fun shelf hshelf => ?_
    refine (hvalue outer { stage with shelf := shelf } _ houter hshelf).trans fun more hmore => ?_
    exact (bindTargets_continues targets _ _).reaches hmore
  namedStyle name style extent outer stage work houter hstocked := by
    rw [lower_namedStyle]
    exact (lowerNamedStyle_continues outer name style work).reaches hstocked
  styleBinding keyword tags extent outer stage work houter hstocked := by
    rw [lower_styleBinding]
    exact (Continues.adorn (.binding keyword (tags.map Node.path))).reaches hstocked
  other node hnode outer stage work houter hstocked := by
    rw [lower_other setting outer work hnode]
    exact (Continues.report _ _).reaches hstocked
  nil outer stage work houter hstocked := by
    rw [lowerAll]
    exact (Continues.of_eq rfl rfl).reaches hstocked
  cons node rest hnode hrest outer stage work houter hstocked := by
    rw [lowerAll]
    exact (hnode outer stage work houter hstocked).trans fun shelf hshelf =>
      hrest outer { stage with shelf := shelf } _ houter hshelf

/-- The scope of a whole recipe is what the innermost frame shows in the end. -/
theorem lowerRecipe_reaches (statements : List Node) (world : World) (shelf : List Scope)
    (hstocked : Stocked shelf world) :
    ∃ shelf', Run setting.idOf (.start setting.idOf world.issued shelf)
        { issued := (lowerRecipe setting statements world).world.issued
          shelf := shelf'
          frame := ⟨(lowerRecipe setting statements world).scope, []⟩ } ∧
      Stocked shelf' (lowerRecipe setting statements world).world := by
  have hentered := statements_reach hne hloader
  obtain ⟨shelf', hrun, hstocked', -⟩ := hentered.all statements []
    (.start setting.idOf world.issued shelf)
    (enter setting [] none "" none ⟨world, [], .ofContents { id := "" }⟩) rfl hstocked
  exact ⟨shelf', hrun, hstocked'⟩

end Texts

end RecipeGraph.Compile
