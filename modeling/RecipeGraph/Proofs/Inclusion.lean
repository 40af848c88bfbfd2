import RecipeGraph.Proofs.Bonds
import RecipeGraph.Proofs.Cache
import RecipeGraph.Proofs.Renumbering

/-!
A package without a name of its own means its text. Where a package has nothing to complain about
and asks for no packages itself, its statements could as well stand in its place: the same is
reported, and the scopes are the same up to the choice of ids and the location that is noted.
The package is lowered on its own, now or long before, and then merged, and that it never looks
around is what makes it hold.
-/
namespace RecipeGraph.Compile

open RecipeGraph.Graph Recipe Package

/-- The second side reports what the first one does. -/
def echo (first second : Setting) (rename : String → String) (base start start' bound : Nat) :
    Pairing where
  first := first
  second := second
  rename := rename
  silent := False
  ahead := []
  base := base
  start := start
  start' := start'
  bound := bound

/-- The second side has to stay silent, and what was reported before on the first side counts as
nothing. -/
def Pairing.hush (pairing : Pairing) (ahead : List Diagnostic) : Pairing :=
  { pairing with silent := True, ahead := ahead }

theorem Pairing.Lawful.hush {pairing : Pairing} (h : pairing.Lawful) (ahead : List Diagnostic) :
    (pairing.hush ahead).Lawful :=
  ⟨h.injective, h.empty, h.distinct, h.given, h.given', h.supply⟩

section Echo

variable {first second : Setting} {start start' bound : Nat}

theorem calm_echo {rename : String → String} {base : Nat} {work : Work}
    (h : work.world.issued ≤ bound) :
    (echo first second rename base start start' bound).Calm work :=
  ⟨fun hsilent => hsilent.elim, h⟩

theorem lawful_echo (hinj : Function.Injective first.idOf) (hne : ∀ n, first.idOf n ≠ "")
    (hsame : second.idOf = first.idOf) {move : Nat → Nat} (hmove : Function.Injective move)
    (hsupply : ∀ n, start' + n < bound → move (start + n) = start' + n) (base : Nat) :
    (echo first second (renumber first.idOf move) base start start' bound).Lawful where
  injective := renumber_injective hinj hmove
  empty := renumber_other hne
  distinct := hinj
  given := hne
  given' n := by
    change second.idOf n ≠ ""
    rw [hsame]
    exact hne n
  supply n hn := by
    change renumber first.idOf move (first.idOf (start + n)) = second.idOf (start' + n)
    rw [renumber_idOf hinj, hsupply n hn, hsame]

end Echo

theorem lowerAll_append (setting : Setting) (outer : List Scope) (first second : List Node)
    (work : Work) :
    lowerAll setting outer (first ++ second) work =
      lowerAll setting outer second (lowerAll setting outer first work) := by
  induction first generalizing work with
  | nil =>
    rw [List.nil_append, lowerAll]
  | cons node rest ih =>
    rw [List.cons_append, lowerAll, lowerAll, ih]

/-- The work on a recipe before its first statement. -/
def opening (setting : Setting) (world : World) : Work :=
  ⟨{ world with issued := world.issued + 1 }, [], .ofContents { id := setting.idOf world.issued }⟩

theorem placed_opening (setting : Setting) (world : World) :
    Placed setting.idOf world.issued [] (opening setting world).world.issued
      (opening setting world).scope := by
  refine ⟨Nat.le_succ world.issued, List.nodup_singleton _, ?_⟩
  intro part hpart
  rw [List.mem_singleton.mp hpart]
  exact Scope.within_ofContents (Contents.within_new (since_next _ (Nat.le_refl _)))

section Alone

variable (setting : Setting) (hinj : Function.Injective setting.idOf)
  (hne : ∀ n, setting.idOf n ≠ "") {base : Nat} {outer : List Scope} {work : Work}
  {statements : List Node}

include hinj hne

/-- Statements without packages keep up with themselves, also where differences between scopes
are followed that the scopes themselves do not have. -/
theorem lowerAll_mirrored {differ : Scope → Scope → Prop} (hunseen : Scope.Unseen differ)
    (hsame : differ (work.scope.rename id) (work.scope.rename id))
    (hplaced : Placed setting.idOf base outer work.world.issued work.scope)
    (himports : Node.locationsOfAll statements = []) :
    ∃ bound after, InStep (echo setting setting id base work.world.issued work.world.issued bound)
      outer (Mirrored id differ work.scope.id)
      (work.scope.children.length + statements.countP Node.opens)
      (lowerAll setting outer statements work) after := by
  let pairing := echo setting setting id base work.world.issued work.world.issued
    (lowerAll setting (outer.map (Scope.rename id)) statements
      { work with scope := work.scope.rename id }).world.issued
  have hlawful : pairing.Lawful :=
    ⟨Function.injective_id, rfl, hinj, hne, hne, fun _ _ => rfl⟩
  have hstart : InStep pairing outer (Mirrored id differ work.scope.id)
      work.scope.children.length work { work with scope := work.scope.rename id } :=
    ⟨⟨0, rfl, rfl⟩, hplaced, ⟨hsame, rfl⟩, rfl, rfl⟩
  exact ⟨_, _, (statements_in_step hlawful).all statements himports
    (bond_mirrored hlawful.injective hunseen outer work.scope.id) _ _ _ hstart
    (calm_echo (Nat.le_refl _))⟩

/-- Statements without packages keep a scope in its place, and add a child for each nested scope
they open. -/
theorem lowerAll_placed (hplaced : Placed setting.idOf base outer work.world.issued work.scope)
    (himports : Node.locationsOfAll statements = []) :
    let after := lowerAll setting outer statements work
    Placed setting.idOf base outer after.world.issued after.scope ∧
      after.scope.id = work.scope.id ∧ after.scope.children.length =
        work.scope.children.length + statements.countP Node.opens := by
  obtain ⟨_, _, hend⟩ :=
    lowerAll_mirrored setting hinj hne Scope.unseen_eq rfl hplaced himports
  exact ⟨hend.placed, hend.related.id, hend.count⟩

/-- What is wrong with a recipe without packages does not depend on when it is lowered. -/
theorem lowerRecipe_diagnostics {second : Setting} (hsame : second.idOf = setting.idOf)
    (himports : Node.locationsOfAll statements = []) {world later : World}
    (hle : world.issued ≤ later.issued) :
    (lowerRecipe setting statements world).diagnostics =
      (lowerRecipe second statements later).diagnostics := by
  obtain ⟨distance, hdistance⟩ := Nat.exists_eq_add_of_le' hle
  let rename := renumber setting.idOf (distance + ·)
  let pairing := echo setting second rename world.issued (world.issued + 1) (later.issued + 1)
    (lowerRecipe second statements later).world.issued
  have hlawful : pairing.Lawful := by
    refine lawful_echo hinj hne hsame (fun _ _ heq => Nat.add_left_cancel heq) ?_ _
    intro n _
    rw [hdistance, Nat.add_assoc, Nat.add_assoc, Nat.add_assoc]
  have hroot : rename (setting.idOf world.issued) = second.idOf later.issued := by
    change renumber setting.idOf _ (setting.idOf world.issued) = _
    rw [renumber_idOf hinj, hsame, hdistance]
  have hstart : InStep pairing [] (Mirrored rename Eq (setting.idOf world.issued)) 0
      (opening setting world) (opening second later) := by
    refine ⟨⟨0, rfl, rfl⟩, placed_opening setting world, ⟨?_, rfl⟩, rfl, rfl⟩
    change Scope.ofContents { id := rename (setting.idOf world.issued) } =
      Scope.ofContents { id := second.idOf later.issued }
    rw [hroot]
  have hend := (statements_in_step hlawful).all statements himports
    (bond_mirrored hlawful.injective Scope.unseen_eq [] _) _ _ _ hstart
    (calm_echo (Nat.le_refl _))
  exact hend.diagnostics

/-- Statements that need nothing from around them, lowered in a scope and lowered on their own:
the scope becomes what it was with what comes of them merged into it. -/
theorem lowerAll_hosted {inner : Setting} (hsame : inner.idOf = setting.idOf)
    (hplaced : Placed setting.idOf base outer work.world.issued work.scope)
    (himports : Node.locationsOfAll statements = []) {world : World} {move : Nat → Nat}
    (hmove : Function.Injective move) (havoid : ∀ n, move n ≠ world.issued)
    (hsupply : ∀ n,
      world.issued + 1 + n < (lowerRecipe inner statements world).world.issued →
        move (work.world.issued + n) = world.issued + 1 + n)
    (hsilent : (lowerRecipe inner statements world).diagnostics = []) :
    let rename := renumber setting.idOf move
    let pairing := (echo setting inner rename base work.world.issued (world.issued + 1)
      (lowerRecipe inner statements world).world.issued).hush work.diagnostics
    InStep pairing outer
      (Hosted rename (work.scope.rename rename) (setting.idOf world.issued))
      (work.scope.children.length + statements.countP Node.opens)
      (lowerAll setting outer statements work) (lowerRecipe inner statements world) := by
  intro rename pairing
  have hlawful : pairing.Lawful :=
    (lawful_echo hinj hne hsame hmove hsupply base).hush work.diagnostics
  have hroot : inner.idOf world.issued = setting.idOf world.issued := by
    rw [hsame]
  have hstart : InStep pairing outer
      (Hosted rename (work.scope.rename rename) (setting.idOf world.issued))
      work.scope.children.length work (opening inner world) := by
    refine ⟨⟨0, rfl, rfl⟩, hplaced, ⟨?_, ?_, ?_, hroot⟩, (List.append_nil _).symm, rfl⟩
    · exact (Scope.merge_new _ _ _ _).symm
    · exact Scope.regular_ofContents (Contents.orderly_new _ _ _)
    · intro id hid
      cases hid
  exact (statements_in_step hlawful).all statements himports
    (bond_hosted hlawful.injective trivial (renumber_avoids hinj havoid) outer) _ _ _ hstart
    ⟨fun _ => hsilent, Nat.le_refl _⟩

end Alone

/-- Ids that were given out before keep their numbers. -/
theorem Placed.renumber_eq_self {idOf : Nat → String} (hinj : Function.Injective idOf)
    {base issued start start' bound : Nat} {outer : List Scope} {scope : Scope}
    (hplaced : Placed idOf base outer issued scope) {move : Nat → Nat}
    (hmatches : Matches move base issued start start' bound) :
    ∀ part ∈ scope :: outer, part.rename (renumber idOf move) = part := by
  intro part hpart
  refine Scope.Within.rename_eq_self ((hplaced.within part hpart).mono ?_)
  rintro id ⟨n, hbase, hn, rfl⟩
  exact hmatches.renumber_kept hinj hbase hn

/-- Two works of which the second has the location noted on the way given. What else they differ
in are ids that came after those given out before. -/
def Conforms (setting : Setting) (location : String) (route : List Nat) (outer : List Scope)
    (base issued bound : Nat) (id : String) (including importing : Work) : Prop :=
  ∃ move start start' count, Matches move base issued start start' bound ∧
    InStep (echo setting setting (renumber setting.idOf move) base start start' bound) outer
      (Mirrored (renumber setting.idOf move) (Scope.Noted location route) id) count
      including importing

section Fetched

variable {compiler : Compiler} {location text : String} {chain : List String}

/-- A package that comes is merged into the scope that asks for it. -/
theorem lowerPackage_loaded {package : Scope} {work : Work} {world : World}
    (hloaded : compiler.loader location chain work.world = (.ok package, world))
    (extent : Option Span) :
    lowerPackage (compiler.setting chain) location none extent work =
      { work with
        world := world
        scope := (work.scope.mapContents (·.addPackage location)).merge package.copy } := by
  rw [lowerPackage_present (bringIn_arrived rfl hloaded extent)]
  rfl

variable (hfetch : compiler.library.fetch location = .ok text)
  (hdepth : 0 < compiler.library.depth) (hrefusal : refusal? location chain = none)
  (himports : Node.locationsOfAll (Recipe.ofText text location).recipe.statements = [])

include hfetch hdepth hrefusal himports

/-- What comes is made on the spot, or it was made before out of ids that do not count. -/
theorem loader_brings {base : Nat} {world : World}
    (hsound : compiler.Sound location text base world.cache) :
    ∃ chain' depth earlier after count,
      let alone := compiler.alone location text chain' depth earlier
      compiler.loader location chain world = (.ok alone.scope, after) ∧
        alone.world.issued = earlier.issued + 1 + count ∧
        Vacant base world.issued count earlier.issued after.issued := by
  have hcounted : ∀ chain' depth earlier, ∃ count,
      (compiler.alone location text chain' depth earlier).world.issued =
        earlier.issued + 1 + count := by
    intro chain' depth earlier
    have hlater := lowerAll_later (compiler.inside location chain' depth) _ himports []
      (opening (compiler.inside location chain' depth) earlier)
    exact Nat.exists_eq_add_of_le hlater.issued
  obtain ⟨depth, hdepth⟩ := Nat.exists_eq_succ_of_ne_zero (Nat.ne_of_gt hdepth)
  unfold Compiler.loader
  rw [hdepth, loadWithin_admitted hrefusal]
  cases hentry : world.cache.get? location with
  | some entry =>
    obtain ⟨chain', depth', earlier, rfl, hissued⟩ := hsound entry hentry
    obtain ⟨count, hcount⟩ := hcounted chain' depth' earlier
    rw [remember_loaded hentry]
    exact ⟨chain', depth', earlier, world, count, rfl, hcount, Or.inl ⟨hcount ▸ hissued, rfl⟩⟩
  | none =>
    obtain ⟨count, hcount⟩ := hcounted chain depth (beginLoading location world)
    rw [remember_compiled hentry hfetch]
    exact ⟨chain, depth, beginLoading location world, _, count, rfl, hcount,
      Or.inr ⟨rfl, hcount⟩⟩

end Fetched

/-- What was hosted in a scope, and the same merged into it afterwards. -/
theorem merged_in_step {setting inner : Setting} (hinj : Function.Injective setting.idOf)
    {base start start' bound root count children : Nat} {move : Nat → Nat} {outer : List Scope}
    {work hosted alone : Work}
    (hplaced : Placed setting.idOf base outer work.world.issued work.scope)
    (hmatches : Matches move base work.world.issued start start' bound)
    (hhosted : InStep ((echo setting inner (renumber setting.idOf move) base work.world.issued
        (root + 1) alone.world.issued).hush work.diagnostics) outer
      (Hosted (renumber setting.idOf move) (work.scope.rename (renumber setting.idOf move))
        (setting.idOf root)) children hosted alone)
    (hquiet : alone.diagnostics = []) (hcount : alone.world.issued = root + 1 + count)
    (location : String) (after : World) :
    InStep (echo setting setting (renumber setting.idOf move) base (work.world.issued + count)
        after.issued bound) outer
      (Mirrored (renumber setting.idOf move) (Scope.Noted location []) work.scope.id) children
      hosted
      { work with
        world := after
        scope := (work.scope.mapContents (·.addPackage location)).merge alone.scope.copy } := by
  have hfixed := hplaced.renumber_eq_self hinj hmatches work.scope (List.mem_cons_self ..)
  have hmerged := hhosted.related.merged
  have hregular := hhosted.related.regular
  rw [hfixed] at hmerged
  refine ⟨⟨0, ?_, rfl⟩, hhosted.placed, ⟨?_, ?_⟩, ?_, hhosted.count⟩
  · obtain ⟨given, hgiven, hgiven'⟩ := hhosted.pace
    have hpace : alone.world.issued = root + 1 + given := hgiven'
    have hsame : given = count := by omega
    rw [hgiven, hsame]
    rfl
  · change Scope.Noted location [] (Scope.rename (renumber setting.idOf move) _)
      (Scope.merge _ alone.scope.copy)
    rw [hregular.copy_eq, Scope.merge_addPackage hregular, hmerged]
    exact .here _
  · have hid := congrArg Scope.id hmerged
    have hown := congrArg Scope.id hfixed
    rw [Scope.id_rename, Scope.id_merge] at hid
    rw [Scope.id_rename] at hown
    exact renumber_injective hinj hmatches.injective (hid.trans hown.symm)
  · have hreported := hhosted.diagnostics
    rw [hquiet, List.append_nil] at hreported
    exact hreported

section Brought

variable {compiler : Compiler} (hinj : Function.Injective compiler.idOf)
  (hne : ∀ n, compiler.idOf n ≠ "") {location text : String}
  (himports : Node.locationsOfAll (Recipe.ofText text location).recipe.statements = [])
  (hsilent : (compiler.compile text location [] {}).1.diagnostics = [])

include hinj hne himports hsilent

/-- A package that has nothing to complain about never has. -/
theorem alone_silent (chain : List String) (depth : Nat) (world : World) :
    (compiler.alone location text chain depth world).diagnostics = [] := by
  have hstandalone : (lowerRecipe (compiler.setting [])
      (Recipe.ofText text location).recipe.statements {}).diagnostics = [] :=
    (List.append_eq_nil_iff.mp hsilent).2
  have hids : (compiler.inside location chain depth).idOf = compiler.idOf := rfl
  have hle : ({} : World).issued ≤ world.issued := Nat.zero_le _
  rw [← hstandalone]
  exact (lowerRecipe_diagnostics (compiler.setting []) hinj hne hids himports hle).symm

/-- The statements of a package somewhere, followed along with the package by itself. -/
theorem hosted_in_step (chain : List String) {base : Nat} {outer : List Scope} {work : Work}
    (hplaced : Placed compiler.idOf base outer work.world.issued work.scope)
    (chain' : List String) (depth : Nat) {earlier : World} {count : Nat} {move : Nat → Nat}
    (hcount : (compiler.alone location text chain' depth earlier).world.issued =
      earlier.issued + 1 + count)
    (hmove : Function.Injective move) (havoid : ∀ n, move n ≠ earlier.issued)
    (hsupply : ∀ n < count, move (work.world.issued + n) = earlier.issued + 1 + n) :
    InStep ((echo (compiler.setting chain) (compiler.inside location chain' depth)
        (renumber compiler.idOf move) base work.world.issued (earlier.issued + 1)
        (compiler.alone location text chain' depth earlier).world.issued).hush work.diagnostics)
      outer
      (Hosted (renumber compiler.idOf move) (work.scope.rename (renumber compiler.idOf move))
        (compiler.idOf earlier.issued))
      (work.scope.children.length +
        (Recipe.ofText text location).recipe.statements.countP Node.opens)
      (lowerAll (compiler.setting chain) outer
        (Recipe.ofText text location).recipe.statements work)
      (compiler.alone location text chain' depth earlier) := by
  have hids : (compiler.inside location chain' depth).idOf = compiler.idOf := rfl
  have hquiet := alone_silent hinj hne himports hsilent chain' depth earlier
  have hsupply' : ∀ n, earlier.issued + 1 + n <
      (compiler.alone location text chain' depth earlier).world.issued →
        move (work.world.issued + n) = earlier.issued + 1 + n := by
    intro n hn
    exact hsupply n (by omega)
  exact lowerAll_hosted (compiler.setting chain) hinj hne hids hplaced himports hmove havoid
    hsupply' hquiet

variable {chain : List String} (hfetch : compiler.library.fetch location = .ok text)
  (hdepth : 0 < compiler.library.depth) (hrefusal : refusal? location chain = none)

include hfetch hdepth hrefusal

/-- The statements of a package in its place, and the package itself. -/
theorem package_in_step {base : Nat} {outer : List Scope} {work : Work}
    (hplaced : Placed compiler.idOf base outer work.world.issued work.scope)
    (hsound : compiler.Sound location text base work.world.cache) (extent : Option Span)
    (bound : Nat) :
    Conforms (compiler.setting chain) location [] outer base work.world.issued bound work.scope.id
      (lowerAll (compiler.setting chain) outer
        (Recipe.ofText text location).recipe.statements work)
      (lowerPackage (compiler.setting chain) location none extent work) := by
  obtain ⟨chain', depth, earlier, after, count, hloaded, hcount, hvacant⟩ :=
    loader_brings hfetch hdepth hrefusal himports hsound
  have hquiet := alone_silent hinj hne himports hsilent chain' depth earlier
  obtain ⟨move, hmove⟩ : ∃ move,
      move = resettle base work.world.issued count earlier.issued after.issued bound := ⟨_, rfl⟩
  have hmatches : Matches move base work.world.issued (work.world.issued + count) after.issued
      bound := hmove ▸ matches_resettle hplaced.since hvacant
  have havoid : ∀ n, move n ≠ earlier.issued := hmove ▸ resettle_avoids hplaced.since hvacant
  have hsupply : ∀ n < count, move (work.world.issued + n) = earlier.issued + 1 + n := by
    intro n hn
    rw [hmove, resettle_counted hn]
  have hhosted := hosted_in_step hinj hne himports hsilent chain hplaced chain' depth hcount
    hmatches.injective havoid hsupply
  rw [lowerPackage_loaded hloaded]
  exact ⟨move, work.world.issued + count, after.issued, _, hmatches,
    merged_in_step hinj hplaced hmatches hhosted hquiet hcount location after⟩

end Brought

/-- Where a package stands in for its statements: among other statements, or so inside a nested
scope. The numbers lead to the scope with the package, by the nested scopes opened before. -/
inductive Including (location : String) (included : List Node) :
    List Nat → List Node → List Node → Prop
  | here {before after : List Node} (extent : Option Span)
      (hbefore : Node.locationsOfAll before = []) (hafter : Node.locationsOfAll after = []) :
      Including location included [] (before ++ .package location none extent :: after)
        (before ++ (included ++ after))
  | nested {route : List Nat} {importing including before after : List Node} (name : String)
      (bodyExtent : Option Span) (args : List Node) (argsExtent : Option Span)
      (styling : Option Node) (extent : Option Span)
      (hbefore : Node.locationsOfAll before = []) (hafter : Node.locationsOfAll after = [])
      (h : Including location included route importing including) :
      Including location included (before.countP Node.opens :: route)
        (before ++ .scope name importing bodyExtent args argsExtent styling extent :: after)
        (before ++ .scope name including bodyExtent args argsExtent styling extent :: after)
  | assigned {route : List Nat} {importing including before after : List Node}
      (targets : List Node) (name : String) (bodyExtent : Option Span) (args : List Node)
      (argsExtent : Option Span) (styling : Option Node) (extent place : Option Span)
      (hbefore : Node.locationsOfAll before = []) (hafter : Node.locationsOfAll after = [])
      (h : Including location included route importing including) :
      Including location included (before.countP Node.opens :: route)
        (before ++ .assignment targets
          (some (.scope name importing bodyExtent args argsExtent styling extent)) place :: after)
        (before ++ .assignment targets
          (some (.scope name including bodyExtent args argsExtent styling extent)) place :: after)

/-- Where some statements stand in for others: among further statements, or so inside a nested
scope. The numbers lead to the scope with them, by the nested scopes opened before. -/
inductive Around (inner inner' : List Node) : List Nat → List Node → List Node → Prop
  | here {before after : List Node} (hbefore : Node.locationsOfAll before = [])
      (hafter : Node.locationsOfAll after = []) :
      Around inner inner' [] (before ++ (inner ++ after)) (before ++ (inner' ++ after))
  | nested {route : List Nat} {body body' before after : List Node} (name : String)
      (bodyExtent : Option Span) (args : List Node) (argsExtent : Option Span)
      (styling : Option Node) (extent : Option Span)
      (hbefore : Node.locationsOfAll before = []) (hafter : Node.locationsOfAll after = [])
      (h : Around inner inner' route body body') :
      Around inner inner' (before.countP Node.opens :: route)
        (before ++ .scope name body bodyExtent args argsExtent styling extent :: after)
        (before ++ .scope name body' bodyExtent args argsExtent styling extent :: after)
  | assigned {route : List Nat} {body body' before after : List Node} (targets : List Node)
      (name : String) (bodyExtent : Option Span) (args : List Node) (argsExtent : Option Span)
      (styling : Option Node) (extent place : Option Span)
      (hbefore : Node.locationsOfAll before = []) (hafter : Node.locationsOfAll after = [])
      (h : Around inner inner' route body body') :
      Around inner inner' (before.countP Node.opens :: route)
        (before ++ .assignment targets
          (some (.scope name body bodyExtent args argsExtent styling extent)) place :: after)
        (before ++ .assignment targets
          (some (.scope name body' bodyExtent args argsExtent styling extent)) place :: after)

theorem Including.around {location : String} {included : List Node} {route : List Nat}
    {importing including : List Node} (h : Including location included route importing including) :
    ∃ extent, Around [.package location none extent] included route importing including := by
  induction h with
  | here extent hbefore hafter => exact ⟨extent, .here hbefore hafter⟩
  | nested name bodyExtent args argsExtent styling extent hbefore hafter _ ih =>
    obtain ⟨place, haround⟩ := ih
    exact ⟨place, .nested name bodyExtent args argsExtent styling extent hbefore hafter haround⟩
  | assigned targets name bodyExtent args argsExtent styling extent place hbefore hafter _ ih =>
    obtain ⟨place', haround⟩ := ih
    exact ⟨place', .assigned targets name bodyExtent args argsExtent styling extent place hbefore
      hafter haround⟩

section Levels

variable {setting : Setting} (hinj : Function.Injective setting.idOf)
  (hne : ∀ n, setting.idOf n ≠ "") {location : String} {route : List Nat} {outer : List Scope}
  {base bound : Nat} {work including importing : Work}

section Bonds

include hinj

theorem bond_noted {issued start start' : Nat} {move : Nat → Nat}
    (hmatches : Matches move base issued start start' bound) {scope : Scope}
    (hplaced : Placed setting.idOf base outer issued scope) (location : String)
    (route : List Nat) (id : String) :
    Bond (echo setting setting (renumber setting.idOf move) base start start' bound) outer outer
      (Mirrored (renumber setting.idOf move) (Scope.Noted location route) id) := by
  have hsame : outer.map (Scope.rename (renumber setting.idOf move)) = outer := by
    calc outer.map (Scope.rename (renumber setting.idOf move)) = outer.map fun part => part := by
          refine List.map_congr_left ?_
          intro part hpart
          exact hplaced.renumber_eq_self hinj hmatches part (List.mem_cons_of_mem _ hpart)
      _ = outer := List.map_id' outer
  have hbond : Bond (echo setting setting (renumber setting.idOf move) base start start' bound)
      outer (outer.map (Scope.rename (renumber setting.idOf move)))
      (Mirrored (renumber setting.idOf move) (Scope.Noted location route) id) :=
    bond_mirrored (renumber_injective hinj hmatches.injective)
      (Scope.unseen_noted location route) outer id
  rw [hsame] at hbond
  exact hbond

end Bonds

include hinj hne

variable (setting) in
/-- The scope that statements without packages have made of an empty one. -/
theorem reached_before (hplaced : Placed setting.idOf base outer work.world.issued work.scope)
    (hempty : work.scope.children = []) {before : List Node}
    (hbefore : Node.locationsOfAll before = []) :
    let reached := lowerAll setting outer before work
    Placed setting.idOf base outer reached.world.issued reached.scope ∧
      reached.scope.id = work.scope.id ∧
      reached.scope.children.length = before.countP Node.opens ∧
      Work.Later work reached := by
  obtain ⟨hreached, hid, hcount⟩ := lowerAll_placed setting hinj hne hplaced hbefore
  rw [hempty, List.length_nil, Nat.zero_add] at hcount
  exact ⟨hreached, hid, hcount, lowerAll_later setting before hbefore outer work⟩

theorem Conforms.after {issued : Nat} {id : String} {scope : Scope}
    (h : Conforms setting location route outer base issued bound id including importing)
    (hplaced : Placed setting.idOf base outer issued scope) {statements : List Node}
    (himports : Node.locationsOfAll statements = [])
    (hbound : (lowerAll setting outer statements importing).world.issued ≤ bound) :
    Conforms setting location route outer base issued bound id
      (lowerAll setting outer statements including)
      (lowerAll setting outer statements importing) := by
  obtain ⟨move, start, start', count, hmatches, hstep⟩ := h
  have hbond := bond_noted hinj hmatches hplaced location route id
  have hend := (statements_in_step (lawful_echo hinj hne rfl hmatches.injective hmatches.supply
    base)).all statements himports hbond _ _ _ hstep (calm_echo hbound)
  exact ⟨move, start, start', _, hmatches, hend⟩

section Leave

variable {start start' count : Nat} {move : Nat → Nat} {inside inside' : Work}
  (hplaced : Placed setting.idOf base outer work.world.issued work.scope)
  (hmatches : Matches move base (work.world.issued + 1) start start' bound)
  (hinside : InStep (echo setting setting (renumber setting.idOf move) base start start' bound)
    (work.scope :: outer)
    (Mirrored (renumber setting.idOf move) (Scope.Noted location route)
      (setting.idOf work.world.issued)) count inside inside')

include hplaced hmatches hinside

omit hne in
/-- The scopes on both sides become children of the same scope, in the same place. -/
theorem leave_noted :
    InStep (echo setting setting (renumber setting.idOf move) base start start' bound) outer
      (Mirrored (renumber setting.idOf move)
        (Scope.Noted location (work.scope.children.length :: route)) work.scope.id)
      (work.scope.children.length + 1)
      { inside with scope := work.scope.attach inside.scope }
      { inside' with scope := work.scope.attach inside'.scope } := by
  have hkept := hmatches.renumber_kept hinj hplaced.since (Nat.lt_succ_self _)
  have hfixed := hplaced.renumber_eq_self hinj (hmatches.mono (Nat.le_succ _)) work.scope
    (List.mem_cons_self ..)
  have hfresh := hplaced.next_fresh hinj
  refine ⟨hinside.pace, hinside.placed.close, ⟨?_, rfl⟩, hinside.diagnostics, ?_⟩
  · rw [Scope.rename_attach (renumber_injective hinj hmatches.injective), hfixed]
    refine hinside.related.same.leave ?_
    rw [Scope.id_rename]
    rw [hinside.related.id, hkept]
    exact hfresh
  · change (Scope.placeChild _ work.scope.children).length = _
    rw [Scope.placeChild_of_not_mem, List.length_append]
    · rfl
    · rw [hinside.related.id]
      exact hfresh

/-- What flows into the scopes on both sides is the same. -/
theorem feed_noted (args : List Node)
    (hbound : (feed setting outer (setting.idOf work.world.issued) args
      { inside' with scope := work.scope.attach inside'.scope }).world.issued ≤ bound) :
    ∃ count, Gives (echo setting setting (renumber setting.idOf move) base start start' bound)
      outer
      (Mirrored (renumber setting.idOf move)
        (Scope.Noted location (work.scope.children.length :: route)) work.scope.id) count
      (some (setting.idOf work.world.issued), feed setting outer
        (setting.idOf work.world.issued) args
        { inside with scope := work.scope.attach inside.scope })
      (some (setting.idOf work.world.issued), feed setting outer
        (setting.idOf work.world.issued) args
        { inside' with scope := work.scope.attach inside'.scope }) := by
  have hkept := hmatches.renumber_kept hinj hplaced.since (Nat.lt_succ_self _)
  have hlawful : (echo setting setting (renumber setting.idOf move) base start start'
      bound).Lawful := lawful_echo hinj hne rfl hmatches.injective hmatches.supply base
  have hbond := bond_noted hinj (hmatches.mono (Nat.le_succ _)) hplaced location
    (work.scope.children.length :: route) work.scope.id
  have hleft := leave_noted hinj hplaced hmatches hinside
  have hsince : Since setting.idOf base inside.world.issued (setting.idOf work.world.issued) := by
    have hid := hinside.placed.here.id
    rw [hinside.related.id] at hid
    exact hid
  exact ⟨_, hleft.gives hbond hlawful args hsince hkept (calm_echo hbound)⟩

end Leave

/-- A nested scope in whose body the two sides differ. -/
theorem nested_conforms (name : String) (args : List Node) (styling : Option Node)
    {importing including : List Node}
    (hplaced : Placed setting.idOf base outer work.world.issued work.scope)
    (hbody : ∀ inside : Work,
      Placed setting.idOf base (work.scope :: outer) inside.world.issued inside.scope →
      inside.scope.children = [] → inside.world.cache = work.world.cache →
      (lowerAll setting (work.scope :: outer) importing inside).world.issued ≤ bound →
      Conforms setting location route (work.scope :: outer) base inside.world.issued bound
        inside.scope.id
        (lowerAll setting (work.scope :: outer) including inside)
        (lowerAll setting (work.scope :: outer) importing inside))
    (hbound : (lowerNested setting outer name importing args styling work).2.world.issued ≤
      bound) :
    let lowered := lowerNested setting outer name including args styling work
    let lowered' := lowerNested setting outer name importing args styling work
    ∃ move start start' count, Matches move base work.world.issued start start' bound ∧
      Gives (echo setting setting (renumber setting.idOf move) base start start' bound) outer
        (Mirrored (renumber setting.idOf move)
          (Scope.Noted location (work.scope.children.length :: route)) work.scope.id) count
        (some lowered.1, lowered.2) (some lowered'.1, lowered'.2) := by
  intro lowered lowered'
  have hfeed := (growth_later.feed setting outer (setting.idOf work.world.issued) args
    { lowerInside setting outer name importing styling work with
      scope := work.scope.attach
        (lowerInside setting outer name importing styling work).scope }).issued
  have hinsideBound : (lowerInside setting outer name importing styling work).world.issued ≤
      bound := Nat.le_trans hfeed hbound
  have hentered := hbody (enter setting (work.scope :: outer)
    (some (setting.idOf work.world.issued)) name styling (work.freshId setting).2)
  rw [enter_given setting _ (hne _)] at hentered
  simp only [Work.world_checkTags, Work.scope_checkTags] at hentered
  rw [← enter_given setting _ (hne _)] at hentered
  obtain ⟨move, start, start', _, hmatches, hinside⟩ :=
    hentered (hplaced.open hinj _ _) rfl rfl hinsideBound
  obtain ⟨count, hgives⟩ := feed_noted hinj hne hplaced hmatches hinside args hbound
  exact ⟨move, start, start', count, hmatches.mono (Nat.le_succ _), hgives⟩

/-- By induction on the way to the statements that differ. Around them both sides do the same. -/
theorem Around.conforms {inner inner' : List Node} {route : List Nat}
    {importing including : List Node} (h : Around inner inner' route importing including)
    {cache : OrderedMap Entry}
    (hinner : ∀ {outer : List Scope} {reached : Work},
      Placed setting.idOf base outer reached.world.issued reached.scope →
      reached.world.cache = cache →
      (lowerAll setting outer inner reached).world.issued ≤ bound →
      Conforms setting location [] outer base reached.world.issued bound reached.scope.id
        (lowerAll setting outer inner' reached) (lowerAll setting outer inner reached))
    {outer : List Scope} {work : Work}
    (hplaced : Placed setting.idOf base outer work.world.issued work.scope)
    (hempty : work.scope.children = []) (hcache : work.world.cache = cache)
    (hbound : (lowerAll setting outer importing work).world.issued ≤ bound) :
    Conforms setting location route outer base work.world.issued bound work.scope.id
      (lowerAll setting outer including work) (lowerAll setting outer importing work) := by
  induction h generalizing outer work with
  | @here before after hbefore hafter =>
    obtain ⟨hreached, hid, -, hlater⟩ := reached_before setting hinj hne hplaced hempty hbefore
    rw [lowerAll_append, lowerAll_append] at hbound
    have hreachedBound := Nat.le_trans (lowerAll_later setting after hafter outer _).issued hbound
    obtain ⟨move, start, start', count, hmatches, hstep⟩ :=
      hinner hreached (hlater.cache.trans hcache) hreachedBound
    rw [lowerAll_append, lowerAll_append, lowerAll_append, lowerAll_append, ← hid]
    exact Conforms.after hinj hne ⟨move, start, start', count, hmatches.mono hlater.issued, hstep⟩
      hplaced hafter hbound
  | @nested route body body' before after name _ args _ styling _ hbefore hafter _ ih =>
    obtain ⟨hreached, hid, hcount, hlater⟩ :=
      reached_before setting hinj hne hplaced hempty hbefore
    rw [lowerAll_append, lowerAll, lower_scope] at hbound
    have hnested := Nat.le_trans (lowerAll_later setting after hafter outer _).issued hbound
    obtain ⟨move, start, start', count, hmatches, hgives⟩ := nested_conforms hinj hne name args
      styling hreached (fun inside hinside hnone hkept =>
        ih hinside hnone (hkept.trans (hlater.cache.trans hcache))) hnested
    rw [lowerAll_append, lowerAll_append, lowerAll, lowerAll, lower_scope, lower_scope,
      ← hid, ← hcount]
    exact Conforms.after hinj hne
      ⟨move, start, start', count, hmatches.mono hlater.issued, hgives.inStep⟩ hplaced hafter
      hbound
  | @assigned route body body' before after targets name _ args _ styling _ place hbefore hafter
      _ ih =>
    obtain ⟨hreached, hid, hcount, hlater⟩ :=
      reached_before setting hinj hne hplaced hempty hbefore
    have hquiet := quiet_prepareTargets outer targets place (lowerAll setting outer before work)
    have hlater := hlater.trans hquiet.later
    rw [← hquiet.world, ← hquiet.scope] at hreached
    rw [← hquiet.scope] at hid hcount
    rw [lowerAll_append, lowerAll, lower_assigned _ _ _ _ _ rfl] at hbound
    have hassigned := Nat.le_trans (lowerAll_later setting after hafter outer _).issued hbound
    have hnested := Nat.le_trans (growth_later.bindTargets targets _ _).issued hassigned
    obtain ⟨move, start, start', count, hmatches, hgives⟩ := nested_conforms hinj hne name args
      styling hreached (fun inside hinside hnone hkept =>
        ih hinside hnone (hkept.trans (hlater.cache.trans hcache))) hnested
    have hbound' := hgives.bindTargets (bond_noted hinj hmatches hreached location _ _) targets
    rw [lowerAll_append, lowerAll_append, lowerAll, lowerAll, lower_assigned _ _ _ _ _ rfl,
      lower_assigned _ _ _ _ _ rfl, ← hid, ← hcount]
    exact Conforms.after hinj hne
      ⟨move, start, start', count, hmatches.mono hlater.issued, hbound'⟩ hplaced hafter hbound

end Levels

section Inclusion

variable {compiler : Compiler} (hinj : Function.Injective compiler.idOf)
  (hne : ∀ n, compiler.idOf n ≠ "") {location text : String} {chain : List String}
  (hfetch : compiler.library.fetch location = .ok text) (hdepth : 0 < compiler.library.depth)
  (hrefusal : refusal? location chain = none)
  (himports : Node.locationsOfAll (Recipe.ofText text location).recipe.statements = [])
  (hsilent : (compiler.compile text location [] {}).1.diagnostics = [])

include hinj hne hfetch hdepth hrefusal himports hsilent

theorem including_conforms {route : List Nat} {importing including : List Node}
    (h : Including location (Recipe.ofText text location).recipe.statements route importing
      including) {base bound : Nat} {outer : List Scope} {work : Work}
    (hplaced : Placed compiler.idOf base outer work.world.issued work.scope)
    (hempty : work.scope.children = [])
    (hsound : compiler.Sound location text base work.world.cache)
    (hbound : (lowerAll (compiler.setting chain) outer importing work).world.issued ≤ bound) :
    Conforms (compiler.setting chain) location route outer base work.world.issued bound
      work.scope.id
      (lowerAll (compiler.setting chain) outer including work)
      (lowerAll (compiler.setting chain) outer importing work) := by
  obtain ⟨extent, haround⟩ := h.around
  refine haround.conforms hinj hne ?_ hplaced hempty rfl hbound
  intro outer reached hreached hcache _
  have hsound' : compiler.Sound location text base reached.world.cache := by
    rw [hcache]
    exact hsound
  rw [lowerAll, lowerAll, lower_package]
  exact package_in_step hinj hne himports hsilent hfetch hdepth hrefusal hreached hsound' extent
    bound

end Inclusion

/-- A package brought in without a name means what its statements mean in its place, wherever in
the nested scopes that is and whether or not it was compiled before: the same is reported, and
the scopes are the same under other ids, but that the location is noted in the scope with the
package. Elements, names, children and all orders are the same, and so is whatever is looked
up. -/
theorem imported_as_included {compiler : Compiler} (hinj : Function.Injective compiler.idOf)
    (hne : ∀ n, compiler.idOf n ≠ "") {location text : String}
    (hextension : location.endsWith fileExtension = true)
    (hfetch : compiler.library.fetch location = .ok text) (hdepth : 0 < compiler.library.depth)
    (himports : Node.locationsOfAll (Recipe.ofText text location).recipe.statements = [])
    (hsilent : (compiler.compile text location [] {}).1.diagnostics = [])
    {chain : List String} (hchain : location ∉ chain) {world : World}
    (hsession : compiler.Session world) {route : List Nat} {importing including : List Node}
    (h : Including location (Recipe.ofText text location).recipe.statements route importing
      including) :
    let imported := lowerRecipe (compiler.setting chain) importing world
    let included := lowerRecipe (compiler.setting chain) including world
    imported.diagnostics = included.diagnostics ∧
      ∃ rename, Function.Injective rename ∧
        Scope.Noted location route (included.scope.rename rename) imported.scope := by
  intro imported included
  have hrefusal : refusal? location chain = none := by
    unfold refusal?
    rw [if_neg hchain, if_pos hextension]
  have hsound : compiler.Sound location text world.issued world.cache :=
    hsession.reliable hfetch
  obtain ⟨move, start, start', count, hmatches, hstep⟩ := including_conforms hinj hne hfetch
    hdepth hrefusal himports hsilent h (placed_opening (compiler.setting chain) world) rfl hsound
    (Nat.le_refl _)
  have hreported : included.diagnostics = [] ++ imported.diagnostics := hstep.diagnostics
  exact ⟨hreported.symm, _, renumber_injective hinj hmatches.injective, hstep.related.same⟩

/-- A package that binds a name and uses it. -/
def smallText : String := "x = f()\ng(x)"

/-- A library of that package alone. -/
def smallCompiler : Compiler :=
  ⟨tally, ⟨fun _ => .ok smallText, 1⟩⟩

/-- What is left when the package was asked for before. -/
def warmWorld : World :=
  (smallCompiler.compile "@\"small.fiz\"" "before.fiz" [] {}).2

/-- A recipe that binds the same name before, and uses it after what stands in a nested scope. -/
def recipeAround (inside : List Node) : List Node :=
  [.assignment [.target "x" none none] (some (.call "e" [] none none)) none,
    .scope "n"
      (.call "h" [.variable ["x"] none] none none :: inside ++
        [.call "k" [.variable ["x"] none] none none]) none
      [.variable ["n", "x"] none] none none none]

theorem including_around (statements : List Node) :
    Including "small.fiz" statements [0] (recipeAround [.package "small.fiz" none none])
      (recipeAround statements) := by
  let first : Node := .call "h" [.variable ["x"] none] none none
  let last : Node := .call "k" [.variable ["x"] none] none none
  let bound : Node := .assignment [.target "x" none none] (some (.call "e" [] none none)) none
  have hfirst : Node.locationsOfAll [first] = [] := rfl
  have hlast : Node.locationsOfAll [last] = [] := rfl
  have hbound : Node.locationsOfAll [bound] = [] := rfl
  have hnone : Node.locationsOfAll [] = [] := rfl
  have hhere : Including "small.fiz" statements []
      ([first] ++ .package "small.fiz" none none :: [last])
      ([first] ++ (statements ++ [last])) := .here none hfirst hlast
  have hnested := Including.nested "n" none [.variable ["n", "x"] none] none none none hbound hnone
    hhere
  exact hnested

theorem imported_as_included_small :
    let statements := (Recipe.ofText smallText "small.fiz").recipe.statements
    let imported := lowerRecipe (smallCompiler.setting [])
      (recipeAround [.package "small.fiz" none none]) warmWorld
    let included := lowerRecipe (smallCompiler.setting []) (recipeAround statements) warmWorld
    Node.locationsOfAll statements = [] ∧ statements.length = 2 ∧
      (warmWorld.cache.get? "small.fiz").isSome = true ∧
      (smallCompiler.compile smallText "small.fiz" [] {}).1.diagnostics = [] ∧
      imported.diagnostics = included.diagnostics ∧
      ∃ rename, Function.Injective rename ∧
        Scope.Noted "small.fiz" [0] (included.scope.rename rename) imported.scope := by
  have himports : Node.locationsOfAll
      (Recipe.ofText smallText "small.fiz").recipe.statements = [] := by decide +kernel
  have hsilent : (smallCompiler.compile smallText "small.fiz" [] {}).1.diagnostics = [] := by
    decide +kernel
  have hsession : smallCompiler.Session warmWorld := .compile .begin _ _ _
  exact ⟨himports, by decide +kernel, by decide +kernel, hsilent,
    imported_as_included tally_injective tally_ne_empty (by decide +kernel) rfl (by decide)
      himports hsilent List.not_mem_nil hsession (including_around _)⟩

end RecipeGraph.Compile
