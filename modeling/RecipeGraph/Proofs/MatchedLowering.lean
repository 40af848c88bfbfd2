import RecipeGraph.Proofs.JointBindings

/-!
Lowering keeps variables and styles side by side. What is done in between, be it a whole statement
or a package with packages of its own, goes by moments at which variables are bound and arguments
are lowered. So it holds of all scopes at every moment, those of waiting texts and those in the
cache among them.
-/
namespace RecipeGraph.Compile

open RecipeGraph.Graph Recipe Package

section Steps

variable {openings : List Task} {setting : Setting} {suspended outer : List Scope} {work : Work}

/-- Each target is bound at a moment of its own. -/
theorem targets_matched {targets : List Node} {id : String} {lookFor : Node → Option Look}
    (hpasses : Passes openings ⟨setting, suspended, outer, work, .targets targets id lookFor⟩)
    (h : work.Matched openings) :
    (targets.foldl (Work.bindTarget id lookFor) work).Matched openings := by
  induction targets generalizing work with
  | nil => exact h
  | cons target rest ih =>
    have hbound : Bound openings target.name id (lookFor target) :=
      ⟨_, _, _, _, target, rest, lookFor, hpasses, rfl, rfl⟩
    exact ih (hpasses.step .target) (h.bindTarget hbound)

theorem feed_matched {target : String} {args : List Node}
    (hargs : (lowerArgs setting outer args work).2.Matched openings ∧
      ∀ inflow ∈ (lowerArgs setting outer args work).1, Supplied openings inflow) :
    (feed setting outer target args work).Matched openings :=
  hargs.1.addInflows target hargs.2

theorem arguments_matched : Node.ArgumentCases
    (fun arg => ∀ work rest,
      Passes openings ⟨setting, suspended, outer, work, .args (arg :: rest)⟩ →
        work.Matched openings → (lowerArg setting outer arg work).2.Matched openings)
    (fun args => ∀ work, Passes openings ⟨setting, suspended, outer, work, .args args⟩ →
      work.Matched openings → (lowerArgs setting outer args work).2.Matched openings ∧
        ∀ inflow ∈ (lowerArgs setting outer args work).1, Supplied openings inflow) where
  call name args styling extent ih work rest hpasses h := by
    rw [lowerArg_call]
    have hfeeding := (hpasses.step .nested).step .call
    exact feed_matched (ih _ (hfeeding.step .arguments) (h.placeCall name styling))
  reference path extent work rest _ h := by
    rw [lowerArg_variable]
    cases work.elementOf? outer path with
    | none => exact ⟨h.scope, h.cache⟩
    | some id => exact h
  other node hnode work rest _ h := by
    rw [lowerArg_other setting outer work hnode]
    exact h.quiet (Work.quiet_report work _ rfl)
  nil work _ h := ⟨h, fun inflow hnone => nomatch hnone⟩
  cons arg rest hfirst hrest work hpasses h := by
    rw [lowerArgs_cons]
    obtain ⟨hmatched, hothers⟩ := hrest _ (hpasses.step .arg) (hfirst work rest hpasses h)
    refine ⟨hmatched, fun inflow hin => ?_⟩
    rcases List.mem_append.mp hin with hown | hother
    · exact ⟨_, arg, hpasses, ⟨rest, rfl⟩, Option.mem_toList.mp hown⟩
    · exact hothers inflow hother

/-- Whatever a package is asked for, it comes with its variables matched. -/
def BringsMatched (openings : List Task) (setting : Setting) : Prop :=
  ∀ {suspended outer work location label extent} loader, setting.loader = some loader →
    Passes openings ⟨setting, suspended, outer, work, .value (.package location label extent)⟩ →
    work.Matched openings → MatchedCache openings (loader location setting.chain work.world).2 ∧
      ∀ package, (loader location setting.chain work.world).1 = .ok package →
        package.Matched openings

section Statements

variable (hbrings : BringsMatched openings setting)

include hbrings

section Packages

variable {location : String} {label : Option String} {extent : Option Span}
  (hpasses : Passes openings
    ⟨setting, suspended, outer, work, .value (.package location label extent)⟩)
  (h : work.Matched openings)

include hpasses h

theorem bringIn_matched : (bringIn setting location extent work).2.Matched openings ∧
    ∀ package, (bringIn setting location extent work).1 = some package →
      package.Matched openings := by
  have hnoted : (work.update (·.addPackage location)).Matched openings :=
    h.adorn (.package location)
  generalize hbrought : bringIn setting location extent work = brought
  cases brought_of_eq hbrought with
  | unsupplied => exact ⟨⟨hnoted.scope, hnoted.cache⟩, fun package hnone => by cases hnone⟩
  | failed hloader hload =>
    obtain ⟨hcache, -⟩ := hbrings _ hloader hpasses h
    rw [hload] at hcache
    exact ⟨⟨hnoted.scope, hcache⟩, fun package hnone => by cases hnone⟩
  | @arrived loader package world hloader hload =>
    obtain ⟨hcache, hpackage⟩ := hbrings _ hloader hpasses h
    rw [hload] at hcache hpackage
    refine ⟨⟨hnoted.scope, hcache⟩, fun copied hcopied => ?_⟩
    obtain rfl := Option.some.inj hcopied
    exact (hpackage package rfl).copy

theorem attachPackage_matched :
    (attachPackage setting location label extent work).2.Matched openings := by
  obtain ⟨hafter, hpackage⟩ := bringIn_matched hbrings hpasses h
  rcases hbring : bringIn setting location extent work with ⟨_ | package, after⟩ <;>
    rw [hbring] at hafter hpackage
  · rw [attachPackage_absent hbring]
    exact hafter
  · rw [attachPackage_present hbring]
    have hchild : Contents.Matched openings { package.contents with
        id := setting.idOf after.world.issued, name := label.getD "" } :=
      (hpackage package rfl).own.of_same rfl rfl rfl
    exact ⟨hafter.scope.attach ((hpackage package rfl).mapContents hchild), hafter.cache⟩

theorem lowerPackage_matched :
    (lowerPackage setting location label extent work).Matched openings := by
  cases label with
  | some name => exact attachPackage_matched hbrings hpasses h
  | none =>
    obtain ⟨hafter, hpackage⟩ := bringIn_matched hbrings hpasses h
    rcases hbring : bringIn setting location extent work with ⟨_ | package, after⟩ <;>
      rw [hbring] at hafter hpackage
    · rw [lowerPackage_absent hbring]
      exact hafter
    · rw [lowerPackage_present hbring]
      exact ⟨hafter.scope.merge (hpackage package rfl), hafter.cache⟩

end Packages

theorem statements_matched : Node.StatementCases
    (fun value => ∀ {suspended outer work},
      Passes openings ⟨setting, suspended, outer, work, .value value⟩ → work.Matched openings →
        (lowerValue setting outer value work).2.Matched openings)
    (fun node => ∀ {suspended outer work rest},
      Passes openings ⟨setting, suspended, outer, work, .statements (node :: rest)⟩ →
        work.Matched openings → (lower setting outer node work).Matched openings)
    (fun nodes => ∀ {suspended outer work},
      Passes openings ⟨setting, suspended, outer, work, .statements nodes⟩ → work.Matched openings →
        (lowerAll setting outer nodes work).Matched openings) where
  call name args styling extent suspended outer work hpasses h := by
    rw [lowerValue_call]
    have hfeeding := (hpasses.step .call).step .arguments
    exact feed_matched (arguments_matched.all args _ hfeeding (h.placeCall name styling))
  scope name body _ args _ styling _ hbody suspended outer work hpasses h := by
    rw [lowerValue_scope]
    have hinside : (lowerInside setting outer name body styling work).Matched openings :=
      hbody (hpasses.step .inside) (h.freshId.enter _ name styling)
    have hfeeding := (hpasses.step (.left rfl)).step .arguments
    exact feed_matched
      (arguments_matched.all args _ hfeeding ⟨h.scope.attach hinside.scope, hinside.cache⟩)
  package location label extent suspended outer work hpasses h :=
    attachPackage_matched hbrings hpasses h
  unbuilt node hnode suspended outer work _ h := by
    rw [lowerValue_unbuilt setting outer work hnode]
    exact ⟨h.scope, h.cache⟩
  bareCall name args styling extent hvalue suspended outer work rest hpasses h := by
    rw [lower_call]
    exact hvalue (hpasses.step (.bare rfl)) h
  bareScope name body bodyExtent args argsExtent styling extent hvalue suspended outer work rest
      hpasses h := by
    rw [lower_scope]
    exact hvalue (hpasses.step (.bare rfl)) h
  barePackage location label extent suspended outer work rest hpasses h := by
    rw [lower_package]
    exact lowerPackage_matched hbrings (hpasses.step (.bare rfl)) h
  reference path extent suspended outer work rest _ h := by
    rw [lower_variable]
    exact h
  incomplete targets extent suspended outer work rest _ h := by
    rw [lower_incomplete]
    have hchecked := h.quiet (Work.quiet_checkLeft targets extent work)
    exact ⟨hchecked.scope, hchecked.cache⟩
  synonym targets path place extent suspended outer work rest hpasses h := by
    rw [lower_synonym]
    have hready : (prepareTargets outer targets extent work).Matched openings :=
      h.prepareTargets targets extent
    unfold lowerAlias
    cases hfound : (prepareTargets outer targets extent work).elementOf? outer path with
    | none => exact ⟨hready.scope, hready.cache⟩
    | some id => exact targets_matched (hpasses.step (.synonym rfl hfound)) hready
  assigned targets value extent hvariable hvalue suspended outer work rest hpasses h := by
    rw [lower_assigned setting outer work targets extent hvariable]
    have hready : (prepareTargets outer targets extent work).Matched openings :=
      h.prepareTargets targets extent
    have hafter := hvalue (hpasses.step (.assigned hvariable)) hready
    cases hlowered : lowerValue setting outer value (prepareTargets outer targets extent work) with
    | mk given after =>
      rw [hlowered] at hafter
      cases given with
      | none => exact hafter
      | some id => exact targets_matched (hpasses.step (.bind hvariable hlowered)) hafter
  namedStyle name style extent suspended outer work rest _ h := by
    rw [lower_namedStyle]
    have hflat := h.quiet (Work.quiet_flatten outer style work)
    exact hflat.adorn (.style name (flatten outer style work).1)
  styleBinding keyword tags extent suspended outer work rest _ h := by
    rw [lower_styleBinding]
    exact h.adorn (.binding keyword (tags.map Node.path))
  other node hnode suspended outer work rest _ h := by
    rw [lower_other setting outer work hnode]
    exact ⟨h.scope, h.cache⟩
  nil _ h := by
    rw [lowerAll]
    exact h
  cons node rest hnode hrest suspended outer work hpasses h := by
    rw [lowerAll]
    exact hrest (hpasses.step .next) (hnode hpasses h)

end Statements

theorem matched_begin (setting : Setting) {world : World} (h : MatchedCache openings world) :
    (enter setting [] none "" none ⟨world, [], .ofContents { id := "" }⟩).Matched openings :=
  have hstart : Work.Matched openings ⟨world, [], .ofContents { id := "" }⟩ :=
    ⟨Scope.matched_ofContents (Contents.matched_new _ _ _), h⟩
  hstart.enter none "" none

/-- By induction on how deep packages may nest. -/
theorem brings_matched {idOf : Nat → String} {library : Library} {depth : Nat}
    (hloader : setting.loader = some (loadWithin idOf library depth)) :
    BringsMatched openings setting := by
  induction depth generalizing setting with
  | zero =>
    intro suspended outer work location label extent loader hsome hpasses h
    obtain rfl := Option.some.inj (hloader.symm.trans hsome)
    exact ⟨h.cache, fun package hnone => by cases hnone⟩
  | succ depth ih =>
    intro suspended outer work location label extent loader hsome hpasses h
    obtain rfl := Option.some.inj (hloader.symm.trans hsome)
    cases hrefusal : refusal? location setting.chain with
    | some fault =>
      rw [loadWithin_refused hrefusal]
      exact ⟨h.cache, fun package hnone => by cases hnone⟩
    | none =>
      rw [loadWithin_admitted hrefusal]
      generalize hrecalled : remember location _ work.world = recalled
      cases recalled_of_eq hrecalled with
      | loading => exact ⟨h.cache, fun package hnone => by cases hnone⟩
      | loaded hentry =>
        refine ⟨h.cache, ?_⟩
        rintro package rfl
        exact h.cache package (mem_loadedPackages.mpr ⟨location, OrderedMap.mem_of_get? hentry⟩)
      | unfetched =>
        refine ⟨?_, fun package hnone => by cases hnone⟩
        exact (h.cache.loading location).record location fun _ hnone => by cases hnone
      | compiled hentry htext =>
        have hopened := hpasses.step (.package hloader hrefusal hentry htext)
        have hbegun := matched_begin
          ⟨idOf, location :: setting.chain, some (loadWithin idOf library depth)⟩
          (h.cache.loading location)
        have hafter := (statements_matched (ih rfl)).all _ hopened hbegun
        refine ⟨hafter.cache.record location fun package hloaded => ?_, fun package hok => ?_⟩
        · cases hloaded
          exact hafter.scope
        · cases hok
          exact hafter.scope

theorem Setting.Real.brings (h : setting.Real) : BringsMatched openings setting := by
  intro _ _ _ _ _ _ loader hloader
  obtain ⟨idOf, library, depth, rfl⟩ := h loader hloader
  exact brings_matched hloader _ hloader

end Steps

section Moments

variable {openings earlier : List Task} {task next : Task}

structure Task.Matched (openings : List Task) (task : Task) : Prop where
  work : task.work.Matched openings
  around : ∀ scope ∈ task.outer ++ task.suspended, scope.Matched openings
  supplied : ∀ target inflows, task.job = .edges target inflows →
    ∀ inflow ∈ inflows, Supplied openings inflow

theorem Task.matched_opening {suspended : List Scope}
    (hsuspended : ∀ scope ∈ suspended, scope.Matched openings) {world : World}
    (hworld : MatchedCache openings world) (setting : Setting) (statements : List Node) :
    (Task.opening setting suspended statements world).Matched openings where
  work := matched_begin setting hworld
  around := hsuspended
  supplied _ _ hjob := nomatch hjob

theorem Task.Matched.step (h : task.Matched openings) (hreal : task.setting.Real)
    (hpasses : Passes openings task) (hleads : task.Leads next) : next.Matched openings := by
  have hbrings : BringsMatched openings task.setting := hreal.brings
  cases hleads with
  | next => exact ⟨(statements_matched hbrings).one _ hpasses h.work, h.around, nofun⟩
  | bare => exact ⟨h.work, h.around, nofun⟩
  | assigned => exact ⟨h.work.prepareTargets _ _, h.around, nofun⟩
  | bind hvalue hlowered =>
    have hafter := (statements_matched hbrings).value _ (hpasses.step (.assigned hvalue))
      (h.work.prepareTargets _ _)
    rw [hlowered] at hafter
    exact ⟨hafter, h.around, nofun⟩
  | synonym hprepared =>
    subst hprepared
    exact ⟨h.work.prepareTargets _ _, h.around, nofun⟩
  | @target _ _ _ _ target rest id lookFor =>
    have hbound : Bound openings target.name id (lookFor target) :=
      ⟨_, _, _, _, target, rest, lookFor, hpasses, rfl, rfl⟩
    exact ⟨h.work.bindTarget hbound, h.around, nofun⟩
  | call => exact ⟨h.work.placeCall _ _, h.around, nofun⟩
  | inside =>
    refine ⟨h.work.freshId.enter _ _ _, fun scope hin => ?_, nofun⟩
    rcases List.mem_cons.mp hin with rfl | hold
    · exact h.work.scope
    · exact h.around scope hold
  | left hinside =>
    subst hinside
    have hafter := (statements_matched hbrings).all _ (hpasses.step .inside)
      (h.work.freshId.enter _ _ _)
    exact ⟨⟨h.work.scope.attach hafter.scope, hafter.cache⟩, h.around, nofun⟩
  | package =>
    refine Task.matched_opening (fun scope hin => ?_) (h.work.cache.loading _) _ _
    rcases List.mem_cons.mp hin with rfl | hold
    · exact (h.work.adorn (.package _)).scope
    · exact h.around scope hold
  | arguments => exact ⟨h.work, h.around, nofun⟩
  | flow hlowered =>
    obtain ⟨hafter, hsupplied⟩ := arguments_matched.all _ _ (hpasses.step .arguments) h.work
    rw [hlowered] at hafter hsupplied
    refine ⟨hafter, h.around, fun target inflows hjob => ?_⟩
    cases hjob
    exact hsupplied
  | arg => exact ⟨arguments_matched.one _ _ _ hpasses h.work, h.around, nofun⟩
  | nested => exact ⟨h.work, h.around, nofun⟩
  | edge =>
    have hsupplied := h.supplied _ _ rfl
    rw [List.forall_mem_cons] at hsupplied
    refine ⟨h.work.addInflow _ hsupplied.1, h.around, fun target inflows hjob => ?_⟩
    cases hjob
    exact hsupplied.2

theorem Leaves.matched {world : World} (h : Leaves earlier world)
    (hmatched : ∀ task, Passes earlier task → task.Matched openings) :
    MatchedCache openings world := by
  cases h with
  | new => exact matchedCache_empty rfl
  | passed hpasses => exact (hmatched _ hpasses).work.cache
  | cleared => exact matchedCache_empty rfl

/-- By induction over the texts, and for each text over the moments that it passes. -/
theorem Series.matched (h : Series earlier) (hearlier : earlier ⊆ openings) (task : Task)
    (hpasses : Passes earlier task) : task.Matched openings := by
  induction h generalizing task with
  | none =>
    obtain ⟨opening, hnone, -⟩ := hpasses
    cases hnone
  | @opening before h world hworld setting hreal statements ih =>
    have hseries := h.opening hworld hreal statements
    rw [List.cons_subset] at hearlier
    obtain ⟨opening, hopening, hway⟩ := hpasses
    rcases List.mem_cons.mp hopening with rfl | hold
    · have hworld := hworld.matched (ih hearlier.2)
      induction hway with
      | refl => exact Task.matched_opening (List.forall_mem_nil _) hworld setting statements
      | tail hway hleads hbefore =>
        have hreal := hseries.real ⟨_, List.mem_cons_self .., hway⟩
        exact hbefore.step hreal ⟨_, hearlier.1, hway⟩ hleads
    · exact ih hearlier.2 task ⟨opening, hold, hway⟩

end Moments

end RecipeGraph.Compile
