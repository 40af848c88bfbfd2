import RecipeGraph.Proofs.Inclusion

/-!
A package under a name of its own is a nested scope of that name. The package is lowered with
nothing around it, copied and given another id and a name; the nested scope is lowered in its
place, below all that surrounds it. Where the package has nothing to complain about, its
statements find by themselves all that they ask for, and the two come out the same.
-/
namespace RecipeGraph.Compile

open RecipeGraph.Graph Recipe Package

section Alone

variable (setting : Setting) (hinj : Function.Injective setting.idOf)
  (hne : ∀ n, setting.idOf n ≠ "") {base : Nat} {outer : List Scope} {work : Work}
  {statements : List Node}

include hinj hne

/-- Statements without packages do not change the style of the scope they stand in. -/
theorem lowerAll_look (hplaced : Placed setting.idOf base outer work.world.issued work.scope)
    (himports : Node.locationsOfAll statements = []) :
    (lowerAll setting outer statements work).scope.contents.look = work.scope.contents.look := by
  obtain ⟨_, _, hend⟩ := lowerAll_mirrored setting hinj hne
    (Scope.unseen_styled work.scope.contents.look) ⟨rfl, by rw [Scope.contents_rename]; rfl⟩
    hplaced himports
  have hlook := hend.related.same.2
  rw [Scope.contents_rename] at hlook
  exact hlook

end Alone

section Fetched

variable {compiler : Compiler} {location : String} {chain : List String}

/-- A package that comes becomes a child of the scope that asks for it. -/
theorem attachPackage_loaded {package : Scope} {work : Work} {world : World}
    (hloaded : compiler.loader location chain work.world = (.ok package, world))
    (label : Option String) (extent : Option Span) :
    attachPackage (compiler.setting chain) location label extent work =
      (some (compiler.idOf world.issued),
        { work with
          world := { world with issued := world.issued + 1 }
          scope := (work.scope.mapContents (·.addPackage location)).attach
            (package.copy.mapContents fun contents =>
              { contents with id := compiler.idOf world.issued, name := label.getD "" }) }) := by
  rw [attachPackage_present (bringIn_arrived rfl hloaded extent)]
  rfl

end Fetched

theorem feed_nothing (setting : Setting) (outer : List Scope) (target : String) (work : Work) :
    feed setting outer target [] work = work :=
  rfl

/-- What was hosted in a scope that is opened for it, and the same brought in as a child. -/
theorem child_in_step {setting inner : Setting} (hinj : Function.Injective setting.idOf)
    {base root count next children bound : Nat} {move : Nat → Nat} {outer : List Scope}
    {work hosted alone : Work} {name : String}
    (hplaced : Placed setting.idOf base outer work.world.issued work.scope)
    (hmatches : Matches move base work.world.issued (work.world.issued + 1 + count) (next + 1)
      bound)
    (hroot : move work.world.issued = next)
    (hhosted : InStep ((echo setting inner (renumber setting.idOf move) base
        (work.world.issued + 1) (root + 1) alone.world.issued).hush work.diagnostics)
      (work.scope :: outer)
      (Hosted (renumber setting.idOf move)
        ((Scope.ofContents { id := setting.idOf work.world.issued, name := name }).rename
          (renumber setting.idOf move))
        (setting.idOf root)) children hosted alone)
    (hquiet : alone.diagnostics = []) (hcount : alone.world.issued = root + 1 + count)
    (hlook : alone.scope.contents.look = {}) (location : String) {after : World}
    (hafter : after.issued = next + 1) :
    ∃ children', Gives (echo setting setting (renumber setting.idOf move) base
        (work.world.issued + 1 + count) (next + 1) bound) outer
      (Mirrored (renumber setting.idOf move) (Scope.Noted location []) work.scope.id) children'
      (some (setting.idOf work.world.issued),
        { hosted with scope := work.scope.attach hosted.scope })
      (some (setting.idOf next),
        { work with
          world := after
          scope := (work.scope.mapContents (·.addPackage location)).attach
            (alone.scope.copy.mapContents fun contents =>
              { contents with id := setting.idOf next, name := name }) }) := by
  have hmoved :
      renumber setting.idOf move (setting.idOf work.world.issued) = setting.idOf next := by
    rw [renumber_idOf hinj, hroot]
  have hfixed := hplaced.renumber_eq_self hinj hmatches work.scope (List.mem_cons_self ..)
  have hregular := hhosted.related.regular
  have hchild : hosted.scope.rename (renumber setting.idOf move) =
      alone.scope.mapContents fun contents =>
        { contents with id := setting.idOf next, name := name } := by
    rw [hhosted.related.merged, ← hregular.merge_into_new hlook, ← hmoved]
    rfl
  have hissued : hosted.world.issued = work.world.issued + 1 + count := by
    obtain ⟨given, hgiven, hgiven'⟩ := hhosted.pace
    have hpace : alone.world.issued = root + 1 + given := hgiven'
    have hsame : given = count := by omega
    rw [hgiven, hsame]
    rfl
  refine ⟨_, ⟨⟨0, hissued, hafter⟩, hhosted.placed.close, ⟨?_, rfl⟩, ?_, rfl⟩, ?_, ?_⟩
  · dsimp only
    rw [Scope.rename_attach (renumber_injective hinj hmatches.injective), hfixed, hchild,
      hregular.copy_eq, Scope.attach_addPackage]
    exact .here _
  · have hreported := hhosted.diagnostics
    rw [hquiet, List.append_nil] at hreported
    exact hreported
  · exact congrArg some hmoved.symm
  · intro id hid
    rw [← Option.some.inj hid]
    exact ⟨work.world.issued, hplaced.since, by change _ < hosted.world.issued; omega, rfl⟩

/-- A package under a name, and a nested scope of that name with the given statements in it. Both
stand by themselves, or on the right of an assignment to the same targets. -/
inductive Named (location name : String) (statements : List Node) :
    List Node → List Node → Prop
  | bare (place bodyExtent argsExtent extent : Option Span) :
      Named location name statements [.package location (some name) place]
        [.scope name statements bodyExtent [] argsExtent none extent]
  | assigned (targets : List Node) (place bodyExtent argsExtent extent around : Option Span) :
      Named location name statements
        [.assignment targets (some (.package location (some name) place)) around]
        [.assignment targets
          (some (.scope name statements bodyExtent [] argsExtent none extent)) around]

section Aliased

variable {compiler : Compiler} (hinj : Function.Injective compiler.idOf)
  (hne : ∀ n, compiler.idOf n ≠ "") {location text : String} {chain : List String}
  (himports : Node.locationsOfAll (Recipe.ofText text location).recipe.statements = [])
  (hsilent : (compiler.compile text location [] {}).1.diagnostics = [])
  (hfetch : compiler.library.fetch location = .ok text)
  (hdepth : 0 < compiler.library.depth) (hrefusal : refusal? location chain = none)

include hinj hne himports hsilent hfetch hdepth hrefusal

/-- A nested scope with the statements of a package, and the package under the same name. -/
theorem named_in_step {base : Nat} {outer : List Scope} {work : Work}
    (hplaced : Placed compiler.idOf base outer work.world.issued work.scope)
    (hsound : compiler.Sound location text base work.world.cache) (name : String)
    (extent : Option Span) {bound : Nat}
    (hbound : (attachPackage (compiler.setting chain) location (some name) extent
      work).2.world.issued ≤ bound) :
    let nested := lowerNested (compiler.setting chain) outer name
      (Recipe.ofText text location).recipe.statements [] none work
    ∃ move start start' count, Matches move base work.world.issued start start' bound ∧
      Gives (echo (compiler.setting chain) (compiler.setting chain)
          (renumber compiler.idOf move) base start start' bound) outer
        (Mirrored (renumber compiler.idOf move) (Scope.Noted location []) work.scope.id) count
        (some nested.1, nested.2)
        (attachPackage (compiler.setting chain) location (some name) extent work) := by
  obtain ⟨chain', depth, earlier, after, count, hloaded, hcount, hvacant⟩ :=
    loader_brings hfetch hdepth hrefusal himports hsound
  have hquiet := alone_silent hinj hne himports hsilent chain' depth earlier
  have hlook := lowerAll_look (compiler.inside location chain' depth) hinj hne
    (placed_opening (compiler.inside location chain' depth) earlier) himports
  rw [attachPackage_loaded hloaded] at hbound ⊢
  obtain ⟨move, hmove⟩ : ∃ move,
      move = rearrange base work.world.issued count earlier.issued after.issued bound := ⟨_, rfl⟩
  have hmatches : Matches move base work.world.issued (work.world.issued + 1 + count)
      (after.issued + 1) bound := hmove ▸ matches_rearrange hplaced.since hvacant
  have havoid : ∀ n, move n ≠ earlier.issued := hmove ▸ rearrange_avoids hplaced.since hvacant
  have hroot : move work.world.issued = after.issued := hmove ▸ rearrange_start hbound
  have hsupply : ∀ n < count, move (work.world.issued + 1 + n) = earlier.issued + 1 + n := by
    intro n hn
    rw [hmove, rearrange_counted hn]
  let opened : Work :=
    { (work.freshId (compiler.setting chain)).2 with
      scope := .ofContents { id := compiler.idOf work.world.issued, name := name } }
  have hopened : Placed compiler.idOf base (work.scope :: outer) opened.world.issued
      opened.scope := hplaced.open hinj _ _
  have hhosted := hosted_in_step hinj hne himports hsilent chain hopened chain' depth hcount
    hmatches.injective havoid hsupply
  have hnext : ({ after with issued := after.issued + 1 } : World).issued = after.issued + 1 := rfl
  obtain ⟨children, hgives⟩ :=
    child_in_step hinj hplaced hmatches hroot hhosted hquiet hcount hlook location hnext
  refine ⟨move, _, _, children, hmatches, ?_⟩
  have hid : (compiler.setting chain).idOf work.world.issued ≠ "" := hne _
  unfold lowerNested lowerInside
  dsimp only
  rw [feed_nothing, enter_given _ _ hid]
  exact hgives

/-- The same for the statements that these stand in. -/
theorem named_conforms {name : String} {importing nesting : List Node}
    (h : Named location name (Recipe.ofText text location).recipe.statements importing nesting)
    {base bound : Nat} {outer : List Scope} {work : Work}
    (hplaced : Placed compiler.idOf base outer work.world.issued work.scope)
    (hsound : compiler.Sound location text base work.world.cache)
    (hbound : (lowerAll (compiler.setting chain) outer importing work).world.issued ≤ bound) :
    Conforms (compiler.setting chain) location [] outer base work.world.issued bound work.scope.id
      (lowerAll (compiler.setting chain) outer nesting work)
      (lowerAll (compiler.setting chain) outer importing work) := by
  cases h with
  | bare place bodyExtent argsExtent extent =>
    rw [lowerAll, lowerAll, lower_package] at hbound
    rw [lowerAll, lowerAll, lowerAll, lowerAll, lower_package, lower_scope]
    obtain ⟨move, start, start', count, hmatches, hgives⟩ := named_in_step hinj hne himports
      hsilent hfetch hdepth hrefusal hplaced hsound name place hbound
    exact ⟨move, start, start', count, hmatches, hgives.inStep⟩
  | assigned targets place bodyExtent argsExtent extent around =>
    have hquiet := quiet_prepareTargets outer targets around work
    rw [lowerAll, lowerAll, lower_assigned _ _ _ _ _ rfl] at hbound
    rw [lowerAll, lowerAll, lowerAll, lowerAll, lower_assigned _ _ _ _ _ rfl,
      lower_assigned _ _ _ _ _ rfl]
    rw [← hquiet.world, ← hquiet.scope] at hplaced
    rw [← hquiet.world] at hsound ⊢
    rw [← hquiet.scope]
    obtain ⟨move, start, start', count, hmatches, hgives⟩ := named_in_step hinj hne himports
      hsilent hfetch hdepth hrefusal hplaced hsound name place
      (Nat.le_trans (growth_later.bindTargets targets _ _).issued hbound)
    exact ⟨move, start, start', count, hmatches,
      hgives.bindTargets (bond_noted hinj hmatches hplaced location _ _) targets⟩

end Aliased

/-- A package brought in under a name means a nested scope of that name with its statements in it,
by itself or as the value of an assignment, wherever in the nested scopes that is and whether or
not it was compiled before: the same is reported, and the scopes are the same under other ids,
but that the location is noted in the scope that asks for the package. -/
theorem named_as_nested {compiler : Compiler} (hinj : Function.Injective compiler.idOf)
    (hne : ∀ n, compiler.idOf n ≠ "") {location text : String}
    (hextension : location.endsWith fileExtension = true)
    (hfetch : compiler.library.fetch location = .ok text) (hdepth : 0 < compiler.library.depth)
    (himports : Node.locationsOfAll (Recipe.ofText text location).recipe.statements = [])
    (hsilent : (compiler.compile text location [] {}).1.diagnostics = [])
    {chain : List String} (hchain : location ∉ chain) {world : World}
    (hsession : compiler.Session world) {name : String} {brought opened : List Node}
    (hnamed : Named location name (Recipe.ofText text location).recipe.statements brought opened)
    {route : List Nat} {importing nesting : List Node}
    (h : Around brought opened route importing nesting) :
    let imported := lowerRecipe (compiler.setting chain) importing world
    let nested := lowerRecipe (compiler.setting chain) nesting world
    imported.diagnostics = nested.diagnostics ∧
      ∃ rename, Function.Injective rename ∧
        Scope.Noted location route (nested.scope.rename rename) imported.scope := by
  intro imported nested
  have hrefusal : refusal? location chain = none := by
    unfold refusal?
    rw [if_neg hchain, if_pos hextension]
  have hsound : compiler.Sound location text world.issued world.cache := hsession.reliable hfetch
  have hconforms : Conforms (compiler.setting chain) location route [] world.issued
      (world.issued + 1) imported.world.issued (compiler.idOf world.issued) nested imported := by
    refine h.conforms hinj hne ?_ (placed_opening (compiler.setting chain) world) rfl rfl
      (Nat.le_refl _)
    intro outer reached hreached hcache hbound
    have hsound' : compiler.Sound location text world.issued reached.world.cache := by
      rw [hcache]
      exact hsound
    exact named_conforms hinj hne himports hsilent hfetch hdepth hrefusal hnamed hreached hsound'
      hbound
  obtain ⟨move, start, start', count, hmatches, hstep⟩ := hconforms
  have hreported : nested.diagnostics = [] ++ imported.diagnostics := hstep.diagnostics
  exact ⟨hreported.symm, _, renumber_injective hinj hmatches.injective, hstep.related.same⟩

/-- A recipe that binds a name of the package before, and asks for both afterwards. -/
def recipeBeside (middle : List Node) : List Node :=
  [.assignment [.target "x" none none] (some (.call "e" [] none none)) none] ++
    (middle ++ [.call "k" [.variable ["x"] none, .variable ["n", "x"] none] none none])

theorem named_as_nested_small :
    let statements := (Recipe.ofText smallText "small.fiz").recipe.statements
    let imported := lowerRecipe (smallCompiler.setting [])
      (recipeBeside [.assignment [.target "y" none none]
        (some (.package "small.fiz" (some "n") none)) none]) warmWorld
    let nested := lowerRecipe (smallCompiler.setting [])
      (recipeBeside [.assignment [.target "y" none none]
        (some (.scope "n" statements none [] none none none)) none]) warmWorld
    Node.locationsOfAll statements = [] ∧ statements.length = 2 ∧
      (warmWorld.cache.get? "small.fiz").isSome = true ∧
      (smallCompiler.compile smallText "small.fiz" [] {}).1.diagnostics = [] ∧
      imported.diagnostics = nested.diagnostics ∧
      ∃ rename, Function.Injective rename ∧
        Scope.Noted "small.fiz" [] (nested.scope.rename rename) imported.scope := by
  have himports : Node.locationsOfAll
      (Recipe.ofText smallText "small.fiz").recipe.statements = [] := by decide +kernel
  have hsilent : (smallCompiler.compile smallText "small.fiz" [] {}).1.diagnostics = [] := by
    decide +kernel
  have hsession : smallCompiler.Session warmWorld := .compile .begin _ _ _
  exact ⟨himports, by decide +kernel, by decide +kernel, hsilent,
    named_as_nested tally_injective tally_ne_empty (by decide +kernel) rfl (by decide) himports
      hsilent List.not_mem_nil hsession (.assigned [.target "y" none none] none none none none none)
      (.here rfl rfl)⟩

end RecipeGraph.Compile
