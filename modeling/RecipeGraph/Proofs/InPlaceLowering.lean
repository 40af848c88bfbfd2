import Mathlib
import RecipeGraph.Proofs.Independence
import RecipeGraph.Proofs.Likeness

/-!
Lowering in place does what lowering does, and leaves everyone else alone. Statement by statement the
member that is filled depicts the scope that comes of the statements, with the same diagnostics, ids
and packages, and a nested scope is put where it belongs when it is done.
-/
namespace RecipeGraph.Compile.InPlace

open RecipeGraph.Graph Recipe Package

/-- The one brings in what the other one brings in, whoever is at work. -/
def Supplier.Mirrors (supplier : Supplier) (loader : Loader) : Prop :=
  ∀ (location : String) (chain : List String) {busy : List Nat} {yard : Yard} {world : World},
    yard.Shows busy world →
      (supplier location chain yard).2.Shows busy (loader location chain world).2 ∧
        Fits (supplier location chain yard).2.hierarchy busy (supplier location chain yard).1
          (loader location chain world).1

variable {n : Nat} {busy : List Nat} {outer : List Scope} {job : Job} {work : Work}

section Arguments

variable {setting : Setting} {supplier : Option Supplier}

theorem Agrees.feed {args : List Node}
    (hargs : Alike n busy outer (lowerArgs (setting.outfit supplier) n args job)
      (Compile.lowerArgs setting outer args work)) (id : String) :
    Agrees n busy outer (InPlace.leave (setting.outfit supplier) n id args job)
      (Compile.feed setting outer id args work) := by
  obtain ⟨hinflows, hrest⟩ := hargs
  unfold InPlace.leave Compile.feed
  rw [← hinflows]
  exact hrest.addInflows setting supplier id _

theorem arguments_agree (n : Nat) (busy : List Nat) (outer : List Scope) :
    Node.ArgumentCases
      (fun arg => ∀ (job : Job) (work : Work), Agrees n busy outer job work →
        Alike n busy outer (lowerArg (setting.outfit supplier) n arg job)
          (Compile.lowerArg setting outer arg work))
      (fun args => ∀ (job : Job) (work : Work), Agrees n busy outer job work →
        Alike n busy outer (lowerArgs (setting.outfit supplier) n args job)
          (Compile.lowerArgs setting outer args work)) where
  call name args styling extent ih job work hagrees := by
    rw [lowerArg_call, Compile.lowerArg_call, hagrees.shows.issued]
    exact ⟨rfl, Agrees.feed (ih _ _ (hagrees.placeCall setting supplier name styling)) _⟩
  reference path extent job work hagrees := by
    rw [lowerArg_variable, Compile.lowerArg_variable, hagrees.elementOf?, hagrees.variableLook?]
    cases work.elementOf? outer path with
    | some id => exact ⟨rfl, hagrees⟩
    | none => exact ⟨rfl, hagrees.report _ _⟩
  other node hnode job work hagrees := by
    rw [lowerArg_other _ _ _ hnode, Compile.lowerArg_other _ _ _ hnode]
    exact ⟨rfl, hagrees.report _ _⟩
  nil job work hagrees := ⟨rfl, hagrees⟩
  cons arg rest hfirst hrest job work hagrees := by
    obtain ⟨hinflow, hagrees⟩ := hfirst job work hagrees
    obtain ⟨hinflows, hagrees⟩ := hrest _ _ hagrees
    rw [lowerArgs_cons, Compile.lowerArgs_cons, hinflow, hinflows]
    exact ⟨rfl, hagrees⟩

end Arguments

section Copies

/-- A copy, before it is put anywhere. -/
theorem Agrees.copied {package : Nat} {scope : Scope} (hagrees : Agrees n busy outer job work)
    (hscope : job.yard.hierarchy.Depicts package scope) :
    (job.yard.hierarchy.copy package).Forest ∧
      job.yard.hierarchy.Grown (job.yard.hierarchy.copy package) ∧
      (job.yard.hierarchy.copy package).Depicts n work.scope ∧
      (job.yard.hierarchy.copy package).TopDepicts job.yard.size scope.copy :=
  have hgrown := Hierarchy.grown_copy job.yard.hierarchy package
  ⟨hagrees.shows.forest.copyWithin _ package, hgrown, hagrees.depicts.grown hgrown,
    Hierarchy.topDepicts_copy hagrees.shows.forest hscope⟩

/-- A copy that comes as a child, with an id and a name of its own. -/
theorem Agrees.attachCopy {package : Nat} {scope : Scope} (hagrees : Agrees n busy outer job work)
    (hscope : job.yard.hierarchy.Depicts package scope) {id id' : String} (hid : id = id')
    (name : String) :
    Agrees n busy outer
      (job.change fun h =>
        (((h.copy package).setId job.yard.size id).setName job.yard.size name).attach n
          job.yard.size)
      (work.attach (scope.copy.mapContents fun contents =>
        { contents with id := id', name := name })) := by
  subst hid
  obtain ⟨hforest, hgrown, hself, hcopy⟩ := hagrees.copied hscope
  have hle : job.yard.hierarchy.members.length ≤ job.yard.size := Nat.le_refl _
  have hlabeled := ((hgrown.annexed hagrees.there).setId hle id).setName hle name
  refine hagrees.change (hlabeled.attach (Or.inl rfl) hle)
    (((hforest.setId _ id).setName _ name).attach n _) ?_ rfl
  exact hself.attach_labeled hforest hcopy (Nat.ne_of_lt hagrees.there) id name
    (hlabeled.off hle hagrees.there)

/-- A copy that is merged. -/
theorem Agrees.mergeCopy {package : Nat} {scope : Scope} (hagrees : Agrees n busy outer job work)
    (hscope : job.yard.hierarchy.Depicts package scope) :
    Agrees n busy outer (job.change fun h => (h.copy package).merge n job.yard.size)
      { work with scope := work.scope.merge scope.copy } := by
  obtain ⟨hforest, hgrown, hself, hcopy⟩ := hagrees.copied hscope
  have hle : job.yard.hierarchy.members.length ≤ job.yard.size := Nat.le_refl _
  have hannexed := hgrown.annexed hagrees.there
  have hlabel : (work.scope.merge scope.copy).contents.label = work.scope.contents.label := by
    rw [Scope.contents_merge, Contents.label_merge]
  refine hagrees.change (hannexed.merge (Or.inl rfl) hle) (hforest.merge n _) ?_ hlabel
  refine hself.merge hforest.linked hcopy.depicts (hannexed.off hle hagrees.there) fun way hway => ?_
  exact Nat.ne_of_lt hagrees.there (hforest.linked.eq_of_descends_top hcopy.top hway)

end Copies

section Packages

variable {setting : Setting} {supplier : Option Supplier}
  (hadds : ∀ added ∈ supplier, added.Adds)
  (hmirrors : Option.Rel Supplier.Mirrors supplier setting.loader)

include hadds hmirrors

/-- Either nothing comes to both of them, or a copy of what stands for the same. -/
theorem Agrees.bringIn (hagrees : Agrees n busy outer job work) (location : String)
    (extent : Option Span) :
    (∃ after done,
      InPlace.bringIn (setting.outfit supplier) n location extent job =
          (none, after) ∧
        Compile.bringIn setting location extent work = (none, done) ∧
        Agrees n busy outer after done) ∨
    ∃ after done package scope,
      InPlace.bringIn (setting.outfit supplier) n location extent job =
          (some after.yard.size, after.change (·.copy package)) ∧
        Compile.bringIn setting location extent work = (some scope.copy, done) ∧
        Agrees n busy outer after done ∧ after.yard.hierarchy.Depicts package scope := by
  have hnoted : Agrees n busy outer (job.update n (·.addPackage location))
      (work.update (·.addPackage location)) :=
    hagrees.update (Contents.label_addPackage · location)
  unfold InPlace.bringIn Compile.bringIn
  generalize setting.loader = loader at hmirrors ⊢
  cases hmirrors with
  | none => exact Or.inl ⟨_, _, rfl, rfl, hnoted.report _ _⟩
  | @some supplier loader hmirror =>
    have hadded := hadds supplier rfl location setting.chain
      (job.update n (·.addPackage location)).yard
    obtain ⟨hshows, hfits⟩ := hmirror location setting.chain hnoted.shows
    dsimp only
    rcases hsupply : supplier location setting.chain (job.update n (·.addPackage location)).yard
      with ⟨result, yard⟩
    rcases hload : loader location setting.chain (work.update (·.addPackage location)).world
      with ⟨result', world⟩
    rw [hsupply] at hadded
    rw [hsupply, hload] at hshows hfits
    have hbrought : Agrees n busy outer { job.update n (·.addPackage location) with yard := yard }
        { work.update (·.addPackage location) with world := world } := {
      diagnostics := hnoted.diagnostics
      depicts := hnoted.depicts.grown hadded
      around := hnoted.around.annexed (hadded.annexed hnoted.there) (Or.inl rfl)
      shows := hshows }
    cases hfits with
    | error fault => exact Or.inl ⟨_, _, rfl, rfl, hbrought.report _ _⟩
    | ok hclear => exact Or.inr ⟨_, _, _, _, rfl, rfl, hbrought, hclear.depicts⟩

theorem Agrees.attachPackage (hagrees : Agrees n busy outer job work) (location : String)
    (label : Option String) (extent : Option Span) :
    Alike n busy outer
      (InPlace.attachPackage (setting.outfit supplier) n location label extent job)
      (Compile.attachPackage setting location label extent work) := by
  unfold InPlace.attachPackage Compile.attachPackage
  rcases hagrees.bringIn hadds hmirrors location extent with
    ⟨after, done, hbring, hbring', hagrees⟩ |
    ⟨after, done, package, scope, hbring, hbring', hagrees, hscope⟩
  · rw [hbring, hbring']
    exact ⟨rfl, hagrees⟩
  · obtain ⟨hid, hrest⟩ := hagrees.freshId setting supplier
    rw [hbring, hbring']
    exact ⟨congrArg some hid, hrest.attachCopy hscope hid (label.getD "")⟩

theorem Agrees.lowerPackage (hagrees : Agrees n busy outer job work) (location : String)
    (label : Option String) (extent : Option Span) :
    Agrees n busy outer
      (InPlace.lowerPackage (setting.outfit supplier) n location label extent job)
      (Compile.lowerPackage setting location label extent work) := by
  unfold InPlace.lowerPackage Compile.lowerPackage
  cases label with
  | some name => exact (hagrees.attachPackage hadds hmirrors location (some name) extent).rest
  | none =>
    rcases hagrees.bringIn hadds hmirrors location extent with
      ⟨after, done, hbring, hbring', hagrees⟩ |
      ⟨after, done, package, scope, hbring, hbring', hagrees, hscope⟩
    · rw [hbring, hbring']
      exact hagrees
    · rw [hbring, hbring']
      exact hagrees.mergeCopy hscope

omit hmirrors in
/-- A scope inside, from its beginning to its last statement, and the scope around afterwards. -/
theorem Agrees.nest (hagrees : Agrees n busy outer job work) (given : Option String)
    (name : String) (body : List Node) (styling : Option Node)
    (hbody : ∀ (entered : Job) (done : Work),
      Agrees job.yard.size (n :: busy) (work.scope :: outer) entered done →
        Agrees job.yard.size (n :: busy) (work.scope :: outer)
          (InPlace.lowerAll (setting.outfit supplier) job.yard.size body entered)
          (Compile.lowerAll setting (work.scope :: outer) body done)) :
    let inside := InPlace.lowerAll (setting.outfit supplier) job.yard.size body
      (InPlace.enter (setting.outfit supplier) (some n) given name styling job)
    let done := Compile.lowerAll setting (work.scope :: outer) body
      (Compile.enter setting (work.scope :: outer) given name styling work)
    Agrees job.yard.size (n :: busy) (work.scope :: outer) inside done ∧
      Agrees n busy outer inside { done with scope := work.scope.attach done.scope } := by
  have hinside := hbody _ _ (hagrees.enter setting supplier given name styling)
  have hannexes : ∀ entered : Job, job.yard.size < entered.yard.size →
      Annexes job.yard.size entered (InPlace.lowerAll (setting.outfit supplier)
        job.yard.size body entered) := (statements_annex hadds).all body job.yard.size
  exact ⟨hinside, hagrees.leave hinside
    (annexes_inside given name body styling hagrees.there hannexes)
    (parent_inside given name body styling hagrees.there hannexes)⟩

theorem statements_agree :
    Node.StatementCases
      (fun value => ∀ (n : Nat) (busy : List Nat) (outer : List Scope) (job : Job) (work : Work),
        Agrees n busy outer job work →
          Alike n busy outer
            (lowerValue (setting.outfit supplier) n value job)
            (Compile.lowerValue setting outer value work))
      (fun node => ∀ (n : Nat) (busy : List Nat) (outer : List Scope) (job : Job) (work : Work),
        Agrees n busy outer job work →
          Agrees n busy outer (lower (setting.outfit supplier) n node job)
            (Compile.lower setting outer node work))
      (fun nodes => ∀ (n : Nat) (busy : List Nat) (outer : List Scope) (job : Job) (work : Work),
        Agrees n busy outer job work →
          Agrees n busy outer (lowerAll (setting.outfit supplier) n nodes job)
            (Compile.lowerAll setting outer nodes work)) where
  call name args styling extent n busy outer job work hagrees := by
    obtain ⟨hinflow, hrest⟩ :=
      (arguments_agree n busy outer).one (.call name args styling extent) job work hagrees
    exact ⟨congrArg (Option.map Inflow.source) hinflow, hrest⟩
  scope name body _ args _ styling _ hbody n busy outer job work hagrees := by
    obtain ⟨-, hrest⟩ := hagrees.freshId setting supplier
    obtain ⟨-, hdone⟩ := hrest.nest hadds (some (setting.idOf work.world.issued)) name body
      styling (hbody _ _ _)
    rw [lowerValue_scope, Compile.lowerValue_scope]
    unfold lowerNested
    rw [hagrees.shows.issued]
    exact ⟨rfl, Agrees.feed ((arguments_agree n busy outer).all args _ _ hdone) _⟩
  package location label extent n busy outer job work hagrees :=
    hagrees.attachPackage hadds hmirrors location label extent
  unbuilt node hnode n busy outer job work hagrees := by
    rw [lowerValue_unbuilt _ _ _ hnode, Compile.lowerValue_unbuilt _ _ _ hnode]
    exact ⟨rfl, hagrees.report _ _⟩
  bareCall name args styling extent hvalue n busy outer job work hagrees :=
    (hvalue n busy outer job work hagrees).rest
  bareScope name body bodyExtent args argsExtent styling extent hvalue n busy outer job work
      hagrees :=
    (hvalue n busy outer job work hagrees).rest
  barePackage location label extent n busy outer job work hagrees :=
    hagrees.lowerPackage hadds hmirrors location label extent
  reference path extent n busy outer job work hagrees := hagrees
  incomplete targets extent n busy outer job work hagrees :=
    (hagrees.checkLeft targets extent).report _ _
  synonym targets path place extent n busy outer job work hagrees := by
    rw [lower_synonym, Compile.lower_synonym]
    exact (hagrees.prepareTargets targets extent).lowerAlias targets path place
  assigned targets value extent hvariable hvalue n busy outer job work hagrees := by
    obtain ⟨hsource, hrest⟩ := hvalue n busy outer _ _ (hagrees.prepareTargets targets extent)
    rw [lower_assigned _ _ _ _ _ hvariable, Compile.lower_assigned _ _ _ _ _ hvariable]
    dsimp only
    rw [hsource]
    exact hrest.bindTargets targets _
  namedStyle name style extent n busy outer job work hagrees := hagrees.lowerNamedStyle name style
  styleBinding keyword tags extent n busy outer job work hagrees := hagrees.update fun _ => rfl
  other node hnode n busy outer job work hagrees := by
    rw [lower_other _ _ _ hnode, Compile.lower_other _ _ _ hnode]
    exact hagrees.report _ _
  nil n busy outer job work hagrees := hagrees
  cons node rest hnode hrest n busy outer job work hagrees :=
    hrest n busy outer _ _ (hnode n busy outer job work hagrees)

variable (setting) in
/-- A new member below one that depicts a scope. -/
theorem Agrees.lowerInto {scope : Scope} {yard : Yard} {world : World}
    (hagrees : Agrees n busy outer ⟨yard, []⟩ ⟨world, [], scope⟩) (given : Option String)
    (name : String) (styling : Option Node) (statements : List Node) :
    let job := InPlace.lowerInto (setting.outfit supplier) (some n) given name styling
      statements yard
    let work := Compile.lowerInto setting (scope :: outer) given name styling statements world
    Agrees yard.size (n :: busy) (scope :: outer) job work ∧
      Agrees n busy outer job { work with scope := scope.attach work.scope } := by
  have henter : Compile.enter setting (scope :: outer) given name styling
      ⟨world, [], .ofContents { id := "" }⟩ =
        Compile.enter setting (scope :: outer) given name styling ⟨world, [], scope⟩ := by
    unfold Compile.enter
    cases given.filter (· ≠ "") <;> rfl
  unfold Compile.lowerInto
  dsimp only
  rw [henter]
  exact hagrees.nest hadds given name statements styling fun _ _ hentered =>
    (statements_agree hadds hmirrors).all statements _ _ _ _ _ hentered

variable (setting) in
/-- A new member that has nothing around it. -/
theorem Yard.Shows.lowerInto {yard : Yard} {world : World} (hshows : yard.Shows busy world)
    (given : Option String) (name : String) (styling : Option Node) (statements : List Node) :
    Agrees yard.size busy []
      (InPlace.lowerInto (setting.outfit supplier) none given name styling statements
        yard)
      (Compile.lowerInto setting [] given name styling statements world) :=
  (statements_agree hadds hmirrors).all statements _ _ _ _ _
    (hshows.enter setting supplier given name styling)

end Packages

section Suppliers

variable {idOf : Nat → String} {library : Library}

theorem Yard.Shows.remember {yard : Yard} {world : World} (hshows : yard.Shows busy world)
    (location : String) {obtain : Yard → Except Fault Nat × Yard}
    {obtain' : World → Except Fault Scope × World}
    (hobtain : ∀ {yard : Yard} {world : World}, yard.Shows busy world →
      (obtain yard).2.Shows busy (obtain' world).2 ∧
        Fits (obtain yard).2.hierarchy busy (obtain yard).1 (obtain' world).1) :
    (InPlace.remember location obtain yard).2.Shows busy
        (Compile.remember location obtain' world).2 ∧
      Fits (InPlace.remember location obtain yard).2.hierarchy busy
        (InPlace.remember location obtain yard).1 (Compile.remember location obtain' world).1 := by
  have hrecall := hshows.recall location
  unfold InPlace.remember Compile.remember
  generalize yard.cache.get? location = parcel, world.cache.get? location = entry at hrecall ⊢
  cases hrecall with
  | none =>
    obtain ⟨hafter, hfits⟩ := hobtain (hshows.record location .loading)
    exact ⟨hafter.record location (.loaded hfits), hfits⟩
  | some hrecalls =>
    cases hrecalls with
    | loading => exact ⟨hshows, .error _⟩
    | loaded hfits => exact ⟨hshows, hfits⟩

/-- The member of a package leads to nobody who was there before. -/
theorem Yard.Shows.packageMember {supplier : Supplier} {loader : Loader} (hadds : supplier.Adds)
    (hmirrors : supplier.Mirrors loader) {yard : Yard} {world : World}
    (hshows : yard.Shows busy world) (location text : String) (chain : List String) :
    (InPlace.packageMember idOf supplier location text chain yard).2.Shows busy
        (packageScope idOf loader location text chain world).2 ∧
      (InPlace.packageMember idOf supplier location text chain yard).2.hierarchy.Clear busy
        (InPlace.packageMember idOf supplier location text chain yard).1
        (packageScope idOf loader location text chain world).1 := by
  let outfit : Outfit := ⟨idOf, chain, some supplier⟩
  let setting : Setting := ⟨idOf, chain, some loader⟩
  let statements := (Recipe.ofText text location).recipe.statements
  have hall : ∀ added ∈ outfit.supplier, added.Adds := by
    rintro _ ⟨⟩
    exact hadds
  have hgrown := grown_lowerInto hall none "" none statements yard
  have hagrees : Agrees yard.size busy []
      (InPlace.lowerInto outfit none none "" none statements yard)
      (Compile.lowerInto setting [] none "" none statements world) :=
    hshows.lowerInto setting hall (.some hmirrors) none "" none statements
  refine ⟨hagrees.shows.subset (List.subset_cons_self _ _), hagrees.depicts, ?_⟩
  intro way k hway hk
  exact absurd (hgrown.descends (Nat.le_refl _) hway) (Nat.not_le_of_lt (hshows.bound k hk))

theorem mirrors_supplyWithin (depth : Nat) :
    (supplyWithin idOf library depth).Mirrors (loadWithin idOf library depth) := by
  induction depth with
  | zero => exact fun _ _ _ _ _ hshows => ⟨hshows, .error _⟩
  | succ depth ih =>
    intro location chain busy yard world hshows
    unfold supplyWithin loadWithin
    cases refusal? location chain with
    | some fault => exact ⟨hshows, .error fault⟩
    | none =>
      refine hshows.remember location fun {yard world} hshows => ?_
      have hnoted := hshows.noteFetch location
      unfold InPlace.fetchWith Compile.fetchWith
      cases library.fetch location with
      | error fault => exact ⟨hnoted, .error fault⟩
      | ok text =>
        obtain ⟨hafter, hclear⟩ := hnoted.packageMember (adds_supplyWithin depth) ih location text
          (location :: chain)
        exact ⟨hafter, .ok hclear⟩

end Suppliers

section Compilers

variable (idOf : Nat → String) (chain : List String) (packages : Option Library)

/-- What stays fixed where packages come from a library, if there is one. -/
def outfitWith : Outfit :=
  ⟨idOf, chain, packages.map fun library => Compiler.supplier ⟨idOf, library⟩⟩

def settingWith : Setting :=
  ⟨idOf, chain, packages.map fun library => Compiler.loader ⟨idOf, library⟩⟩

theorem adds_outfitWith : ∀ supplier ∈ (outfitWith idOf chain packages).supplier, supplier.Adds := by
  intro supplier hsupplier
  obtain ⟨library, -, rfl⟩ := Option.map_eq_some_iff.mp hsupplier
  exact adds_supplyWithin library.depth

theorem mirrors_outfitWith : Option.Rel Supplier.Mirrors (outfitWith idOf chain packages).supplier
    (settingWith idOf chain packages).loader := by
  cases packages with
  | none => exact .none
  | some library => exact .some (mirrors_supplyWithin library.depth)

theorem shows_start : Yard.Shows {} [] {} where
  forest := Hierarchy.forest_start
  bound _ hk := absurd hk List.not_mem_nil
  issued := rfl
  fetched := rfl
  cache := .nil

/-- A whole recipe is lowered in place to the same document as otherwise, with the same diagnostics,
ids and fetches. -/
theorem recipe_in_place (statements : List Node) :
    let job := lowerInto (outfitWith idOf chain packages) none none "" none statements {}
    let work := lowerRecipe (settingWith idOf chain packages) statements {}
    job.yard.hierarchy.toJson 0 = work.scope.toJson ∧ job.diagnostics = work.diagnostics ∧
      job.yard.issued = work.world.issued ∧ job.yard.fetched = work.world.fetched := by
  intro job work
  have hagrees : Agrees 0 [] [] job work :=
    shows_start.lowerInto (settingWith idOf chain packages) (adds_outfitWith idOf chain packages)
      (mirrors_outfitWith idOf chain packages) none "" none statements
  have htop : job.yard.hierarchy.IsTop 0 := by
    cases hagrees.around with
    | top hparent => exact Option.map_eq_some_iff.mp hparent
  exact ⟨Hierarchy.TopDepicts.toJson hagrees.shows.forest ⟨hagrees.depicts, htop⟩,
    hagrees.diagnostics, hagrees.shows.issued, hagrees.shows.fetched⟩

/-- Lowering a nested scope does not leak. Whatever its statements are, and whatever is wrong with
them, the member that it comes below only gains it as a child, and nobody else who was there is
touched. What comes of it is what comes of lowering the statements inside the scopes around. -/
theorem nested_without_leak (name : String) (styling : Option Node) (statements : List Node)
    {yard : Yard} {p : Nat} {member : Member} {id : String}
    (hp : yard.hierarchy.get? p = some member) (hid : id ≠ "") (hnew : id ∉ member.children.keys) :
    let job := lowerInto (outfitWith idOf chain packages) (some p) (some id) name styling statements
      yard
    yard.hierarchy.Gains job.yard.hierarchy p id name ∧
      ∀ (busy : List Nat) (outer : List Scope) (scope : Scope) (world : World),
        Agrees p busy outer ⟨yard, []⟩ ⟨world, [], scope⟩ →
          let work := Compile.lowerInto (settingWith idOf chain packages) (scope :: outer) (some id)
            name styling statements world
          Agrees yard.size (p :: busy) (scope :: outer) job work ∧
            Agrees p busy outer job { work with scope := scope.attach work.scope } :=
  ⟨gains_lowerInto (adds_outfitWith idOf chain packages) name styling statements hp hid hnew,
    fun _ _ _ _ hagrees => hagrees.lowerInto (settingWith idOf chain packages)
      (adds_outfitWith idOf chain packages) (mirrors_outfitWith idOf chain packages) (some id) name
      styling statements⟩

end Compilers

section Fixed

/-- A package with a nested scope. -/
def shelf : Library :=
  .ofStored ⟨[("base.fiz", .text "a[y = g()]")]⟩

def hall : List Node :=
  [.assignment [.target "x" none none] (some (.call "f" [] none none)) none,
   .scope "room" [] none [] none none none]

/-- A merged package, a scope inside, a use of what is outside, and a variable that is missing. -/
def cellar : List Node :=
  [.call "h" [.variable ["x"] none, .variable ["w"] none] none none,
   .package "base.fiz" none none,
   .scope "box" [.call "k" [.variable ["a", "y"] none] none none] none [.variable ["x"] none]
    none none none]

def start : Job :=
  lowerInto (outfitWith tally [] (some shelf)) none none "" none hall {}

def house : Job :=
  lowerInto (outfitWith tally [] (some shelf)) (some 0) (some "h") "house" none hall start.yard

/-- A new start for someone who goes on with what is there. -/
theorem Agrees.afresh (hagrees : Agrees n busy outer job work) :
    Agrees n busy outer ⟨job.yard, []⟩ ⟨work.world, [], work.scope⟩ :=
  ⟨rfl, hagrees.depicts, hagrees.around, hagrees.shows⟩

set_option maxRecDepth 20000 in
/-- Two levels down, below a member that has a nested scope of that name already. -/
theorem nested_without_leak_cellar :
    let setting := settingWith tally [] (some shelf)
    let job := lowerInto (outfitWith tally [] (some shelf)) (some 2) (some "c") "room" none cellar
      house.yard
    house.yard.hierarchy.Gains job.yard.hierarchy 2 "c" "room" ∧
      (job.diagnostics.map Diagnostic.problem, (job.yard.hierarchy.get? 2).map fun member =>
          (member.children.entries, member.names.entries)) =
        ([.undefinedVariable ["w"]], some ([("|||||", 3), ("c", 4)], [("room", "c")])) ∧
      ∃ outer scope world, Agrees 2 [0] outer ⟨house.yard, []⟩ ⟨world, [], scope⟩ ∧
        Agrees house.yard.size [2, 0] (scope :: outer) job
          (Compile.lowerInto setting (scope :: outer) (some "c") "room" none cellar world) := by
  have hadds := adds_outfitWith tally [] (some shelf)
  have hmirrors := mirrors_outfitWith tally [] (some shelf)
  have hsize : start.yard.size = 2 := by cbv
  have hkeys : (house.yard.hierarchy.get? 2).map (·.children.keys) = some ["|||||"] := by cbv
  obtain ⟨member, hmember, hmemberKeys⟩ := Option.map_eq_some_iff.mp hkeys
  have hnew : "c" ∉ member.children.keys := by
    rw [hmemberKeys]
    decide
  obtain ⟨hgains, halike⟩ := nested_without_leak tally [] (some shelf) "room" none cellar hmember
    (by decide) hnew
  have hstart : Agrees 0 [] [] start _ := shows_start.lowerInto (settingWith tally [] (some shelf))
    hadds hmirrors none "" none hall
  have hhouse := (hstart.afresh.lowerInto (settingWith tally [] (some shelf)) hadds hmirrors
    (some "h") "house" none hall).1.afresh
  rw [hsize] at hhouse
  exact ⟨hgains, by cbv, _, _, _, hhouse, (halike _ _ _ _ hhouse).1⟩

end Fixed

end RecipeGraph.Compile.InPlace
