import RecipeGraph.Proofs.Moves
import RecipeGraph.Proofs.Notes
import RecipeGraph.Proofs.Progress

/-!
The packages that a recipe names are those that it asks for. A walk through its statements finds
them where lowering comes to them: in the statements, on the right of assignments and in nested
scopes, but not among arguments. Without a loader each of them is noted in the scope that names it,
and is reported once. A loader gets just these requests, whatever it answers.
-/
namespace RecipeGraph

open RecipeGraph.Graph Recipe Package

/-- The package that a problem says does not come, and why it does not. -/
def Problem.failure? : Problem → Option (String × String)
  | .importFailed location reason => some (location, reason)
  | _ => none

namespace Graph.Scope

/-- The locations noted in a scope and in the scopes inside. -/
def locations (scope : Scope) : List String :=
  scope.gather (·.packages)

section Locations

variable {scope child : Scope} {location : String}

theorem mem_locations : location ∈ scope.locations ↔
    location ∈ scope.contents.packages ∨ ∃ child ∈ scope.children, location ∈ child.locations :=
  mem_gather_iff

theorem mem_locations_congr {other : Scope}
    (hpackages : other.contents.packages = scope.contents.packages)
    (hchildren : other.children = scope.children) :
    location ∈ other.locations ↔ location ∈ scope.locations := by
  rw [mem_locations, mem_locations, hpackages, hchildren]

theorem mem_locations_addPackage {noted : String} :
    location ∈ (scope.mapContents (·.addPackage noted)).locations ↔
      location ∈ scope.locations ∨ location = noted := by
  rw [mem_locations, mem_locations, contents_mapContents, children_mapContents,
    Contents.mem_addPackage, or_right_comm]

/-- A child with a new id comes in beside the others, and takes the place of none of them. -/
theorem mem_locations_attach (hfresh : child.id ∉ scope.children.map id) :
    location ∈ (scope.attach child).locations ↔
      location ∈ scope.locations ∨ location ∈ child.locations := by
  rw [mem_locations, mem_locations, contents_attach, children_attach, placeChild_of_not_mem hfresh,
    or_assoc]
  simp only [List.mem_append, List.mem_singleton, or_and_right, exists_or, exists_eq_left]

end Locations

end Graph.Scope

/-- A loader that writes down what it is asked for. -/
def Package.Loader.logged (loader : Loader) : Loader := fun location chain world =>
  let (result, after) := loader location chain world
  (result, { after with fetched := world.fetched ++ [location] })

namespace Compile

/-- What is given as the reason where there is no loader. -/
def unsupplied : String := "no import cache configured"

namespace Work

/-- The packages that were reported not to come, with the reasons. -/
def failures (work : Work) : List (String × String) :=
  work.diagnostics.filterMap (·.problem.failure?)

theorem failures_report (work : Work) (extent : Span) (problem : Problem) :
    (work.report extent problem).failures = work.failures ++ problem.failure?.toList := by
  unfold failures report
  rw [List.filterMap_append]
  cases hfailure : problem.failure? <;> simp [hfailure]

/-- Nothing happens that has to do with packages. -/
structure Aside (work after : Work) : Prop where
  issued : work.world.issued ≤ after.world.issued
  id : after.scope.id = work.scope.id
  packages : after.scope.contents.packages = work.scope.contents.packages
  children : after.scope.children = work.scope.children
  failures : after.failures = work.failures

section Aside

variable {work middle after : Work}

theorem Aside.refl (work : Work) : Aside work work :=
  ⟨Nat.le_refl _, rfl, rfl, rfl, rfl⟩

theorem Aside.trans (h : Aside work middle) (h' : Aside middle after) : Aside work after :=
  ⟨h.issued.trans h'.issued, h'.id.trans h.id, h'.packages.trans h.packages,
   h'.children.trans h.children, h'.failures.trans h.failures⟩

theorem aside_foldl {α : Type} {step : Work → α → Work}
    (hstep : ∀ work item, Aside work (step work item)) (items : List α) (work : Work) :
    Aside work (items.foldl step work) :=
  List.foldlRecOn (motive := Aside work) items step (.refl work) fun after h item _ =>
    h.trans (hstep after item)

theorem aside_report (work : Work) (extent : Span) {problem : Problem}
    (h : problem.failure? = none) : Aside work (work.report extent problem) := by
  refine ⟨Nat.le_refl _, rfl, rfl, rfl, ?_⟩
  rw [failures_report, h]
  exact List.append_nil _

theorem aside_freshId (setting : Setting) (work : Work) : Aside work (work.freshId setting).2 :=
  ⟨Nat.le_succ _, rfl, rfl, rfl, rfl⟩

theorem aside_update (work : Work) {f : Contents → Contents}
    (hid : ∀ contents, (f contents).id = contents.id)
    (hpackages : ∀ contents, (f contents).packages = contents.packages) :
    Aside work (work.update f) := by
  refine ⟨Nat.le_refl _, ?_, ?_, Scope.children_mapContents f work.scope, rfl⟩
  · unfold Scope.id
    rw [scope_update, Scope.contents_mapContents, hid]
  · rw [scope_update, Scope.contents_mapContents, hpackages]

theorem aside_checkTags (outer : List Scope) (styling : Option Node) (work : Work) :
    Aside work (work.checkTags outer styling) := by
  cases styling with
  | none => exact .refl work
  | some style =>
    refine aside_foldl ?_ style.tags work
    intro work tag
    unfold checkTag
    split
    · exact .refl work
    · exact aside_report work _ rfl

theorem aside_addInflows (setting : Setting) (target : String) (inflows : List Inflow)
    (work : Work) : Aside work (work.addInflows setting target inflows) := by
  refine aside_foldl ?_ inflows work
  intro work inflow
  exact (aside_freshId setting work).trans (aside_update _ (fun _ => rfl) fun _ => rfl)

theorem aside_bindAll (id : String) (look : Node → Option Look) (targets : List Node)
    (work : Work) : Aside work (targets.foldl (Work.bindTarget id look) work) := by
  refine aside_foldl ?_ targets work
  intro work target
  exact aside_update work (fun _ => rfl) fun _ => rfl

end Aside

end Work

open Work (Aside)

section Steps

theorem aside_placeCall (setting : Setting) (outer : List Scope) (name : String)
    (styling : Option Node) (work : Work) :
    Aside work (placeCall setting outer name styling work) :=
  ((Work.aside_freshId setting work).trans (Work.aside_checkTags outer styling _)).trans
    (Work.aside_update _ (fun _ => rfl) fun _ => rfl)

theorem aside_arguments (setting : Setting) (outer : List Scope) :
    Node.ArgumentCases
      (fun arg => ∀ work, Aside work (lowerArg setting outer arg work).2)
      (fun args => ∀ work, Aside work (lowerArgs setting outer args work).2) where
  call name args styling extent ih work := by
    rw [lowerArg_call]
    exact (aside_placeCall setting outer name styling work).trans
      ((ih _).trans (Work.aside_addInflows setting _ _ _))
  reference path extent work := by
    rw [lowerArg_variable]
    cases work.elementOf? outer path with
    | none => exact Work.aside_report work _ rfl
    | some id => exact .refl work
  other node hnode work := by
    rw [lowerArg_other setting outer work hnode]
    exact Work.aside_report work _ rfl
  nil work := .refl work
  cons arg rest hfirst hrest work := by
    rw [lowerArgs_cons]
    exact (hfirst work).trans (hrest _)

theorem aside_feed (setting : Setting) (outer : List Scope) (target : String) (args : List Node)
    (work : Work) : Aside work (feed setting outer target args work) :=
  ((aside_arguments setting outer).all args work).trans (Work.aside_addInflows setting target _ _)

theorem aside_checkLeft (targets : List Node) (extent : Option Span) (work : Work) :
    Aside work (checkLeft targets extent work) := by
  unfold checkLeft
  split
  · exact Work.aside_report work _ rfl
  · exact .refl work

theorem aside_prepareTargets (outer : List Scope) (targets : List Node) (extent : Option Span)
    (work : Work) : Aside work (prepareTargets outer targets extent work) := by
  refine (aside_checkLeft targets extent work).trans (Work.aside_foldl ?_ targets _)
  intro work target
  exact Work.aside_checkTags outer target.styling work

theorem aside_bindTargets (targets : List Node) (value : Option String) (work : Work) :
    Aside work (bindTargets targets value work) := by
  cases value with
  | none => exact .refl work
  | some id => exact Work.aside_bindAll id _ targets work

theorem aside_synonym (outer : List Scope) (targets : List Node) (path : Path)
    (extent : Option Span) (work : Work) :
    Aside work (lowerAlias outer targets path extent work) := by
  unfold lowerAlias
  cases work.elementOf? outer path with
  | none => exact Work.aside_report work _ rfl
  | some id => exact Work.aside_bindAll id _ targets work

theorem aside_namedStyle (outer : List Scope) (name : String) (style : Node) (work : Work) :
    Aside work (lowerNamedStyle outer name style work) := by
  have hflat : Aside work (flatten outer style work).2 :=
    Work.flatten_keeps
      (fun work extent _ h => h.trans (Work.aside_report work extent rfl)) outer style (.refl work)
  exact hflat.trans (Work.aside_update _ (fun _ => rfl) fun _ => rfl)

end Steps

/-- The children of the scope have ids that were given out, so none of them has the next one. -/
def Work.Orderly (idOf : Nat → String) (work : Work) : Prop :=
  ∀ child ∈ work.scope.children, Numbered idOf work.world.issued child.id

/-- Packages are asked for in vain, one after the other. Each is noted and reported. -/
structure InVain (idOf : Nat → String) (asked : List String) (work after : Work) : Prop where
  issued : work.world.issued ≤ after.world.issued
  id : after.scope.id = work.scope.id
  failures : after.failures = work.failures ++ asked.map (·, unsupplied)
  orderly : work.Orderly idOf → after.Orderly idOf
  noted : work.Orderly idOf → ∀ location,
    location ∈ after.scope.locations ↔ location ∈ work.scope.locations ∨ location ∈ asked

section InVain

variable {idOf : Nat → String} {asked further : List String} {work middle after : Work}

theorem Work.Aside.inVain (h : Aside work after) : InVain idOf [] work after where
  issued := h.issued
  id := h.id
  failures := h.failures.trans (List.append_nil _).symm
  orderly horderly := by
    unfold Work.Orderly
    rw [h.children]
    exact fun child hchild => (horderly child hchild).mono h.issued
  noted _ location := by
    rw [Scope.mem_locations_congr h.packages h.children]
    simp

theorem InVain.trans (h : InVain idOf asked work middle) (h' : InVain idOf further middle after) :
    InVain idOf (asked ++ further) work after where
  issued := h.issued.trans h'.issued
  id := h'.id.trans h.id
  failures := by
    rw [h'.failures, h.failures, List.map_append, List.append_assoc]
  orderly horderly := h'.orderly (h.orderly horderly)
  noted horderly location := by
    rw [h'.noted (h.orderly horderly), h.noted horderly, List.mem_append, or_assoc]

theorem InVain.after_aside (hbefore : Aside work middle) (h : InVain idOf asked middle after) :
    InVain idOf asked work after :=
  hbefore.inVain.trans h

theorem InVain.then_aside (h : InVain idOf asked work middle) (hafter : Aside middle after) :
    InVain idOf asked work after := by
  have hrest : InVain idOf [] middle after := hafter.inVain
  have hjoined := h.trans hrest
  rwa [List.append_nil] at hjoined

/-- Without a loader a package is noted and reported, and that is all. -/
theorem inVain_package (location : String) (extent : Span) (work : Work) :
    InVain idOf [location] work
      ((work.update (·.addPackage location)).report extent
        (.importFailed location unsupplied)) where
  issued := Nat.le_refl _
  id := by
    change (work.scope.mapContents (·.addPackage location)).id = work.scope.id
    unfold Scope.id
    rw [Scope.contents_mapContents, Contents.addPackage_id]
  failures := Work.failures_report (work.update (·.addPackage location)) extent _
  orderly horderly := by
    unfold Work.Orderly
    change ∀ child ∈ (work.scope.mapContents (·.addPackage location)).children, _
    rw [Scope.children_mapContents]
    exact horderly
  noted _ other := by
    change other ∈ (work.scope.mapContents (·.addPackage location)).locations ↔ _
    rw [Scope.mem_locations_addPackage, List.mem_singleton]

/-- A nested scope with nothing in it, under the next id. -/
def openNested (idOf : Nat → String) (name : String) (look : Look) (work : Work) : Work where
  world := { work.world with issued := work.world.issued + 1 }
  diagnostics := work.diagnostics
  scope := .ofContents { id := idOf work.world.issued, name := name, look := look }

theorem locations_openNested (idOf : Nat → String) (name : String) (look : Look) (work : Work) :
    (openNested idOf name look work).scope.locations = [] := rfl

/-- What is asked for inside a nested scope is noted there, and so below the scope around it. The
nested scope takes the place of no other child, since it has an id of its own. -/
theorem InVain.leave (hinj : Function.Injective idOf) {name : String} {look : Look} {inside : Work}
    (h : InVain idOf asked (openNested idOf name look work) inside) :
    InVain idOf asked work { inside with scope := work.scope.attach inside.scope } := by
  have hlater : work.world.issued < inside.world.issued := h.issued
  have hid : inside.scope.id = idOf work.world.issued := h.id
  constructor
  case issued => exact hlater.le
  case id => exact Scope.id_attach
  case failures => exact h.failures
  case orderly =>
    intro horderly child hchild
    rcases Scope.mem_placeChild hchild with rfl | hold
    · exact ⟨work.world.issued, hlater, hid⟩
    · exact (horderly child hold).mono hlater.le
  case noted =>
    intro horderly location
    have hfresh : inside.scope.id ∉ work.scope.children.map Scope.id := by
      intro hin
      obtain ⟨child, hchild, hsame⟩ := List.mem_map.mp hin
      exact (horderly child hchild).ne_next hinj (hsame.trans hid)
    have hinside : location ∈ inside.scope.locations ↔ location ∈ asked := by
      rw [h.noted (fun child hchild => nomatch hchild), locations_openNested]
      simp
    rw [Scope.mem_locations_attach hfresh, hinside]

end InVain

section Lowering

variable {setting : Setting} (hnone : setting.loader = none)

include hnone

theorem inVain_attachPackage (location : String) (label : Option String) (extent : Option Span)
    (work : Work) : InVain setting.idOf [location] work
      (attachPackage setting location label extent work).2 := by
  rw [attachPackage_absent (bringIn_unsupplied hnone extent)]
  exact inVain_package location _ work

theorem inVain_lowerPackage (location : String) (label : Option String) (extent : Option Span)
    (work : Work) : InVain setting.idOf [location] work
      (lowerPackage setting location label extent work) := by
  cases label with
  | some name => exact inVain_attachPackage hnone location (some name) extent work
  | none =>
    rw [lowerPackage_absent (bringIn_unsupplied hnone extent)]
    exact inVain_package location _ work

/-- Statements ask in vain for what they name, by induction on them. -/
theorem statements_inVain (hinj : Function.Injective setting.idOf)
    (hne : ∀ n, setting.idOf n ≠ "") :
    Node.StatementCases
      (fun value => ∀ outer work, InVain setting.idOf (Node.locationsOfValue (some value)) work
        (lowerValue setting outer value work).2)
      (fun node => ∀ outer work, InVain setting.idOf node.locations work
        (lower setting outer node work))
      (fun nodes => ∀ outer work, InVain setting.idOf (Node.locationsOfAll nodes) work
        (lowerAll setting outer nodes work)) where
  call name args styling extent outer work := by
    rw [lowerValue_call]
    exact ((aside_placeCall setting outer name styling work).trans
      (aside_feed setting outer _ args _)).inVain
  scope name body _ args _ styling _ hbody outer work := by
    have hchecked : Aside
        (openNested setting.idOf name ((lookOf styling).getD {}) work)
        (enter setting (work.scope :: outer) (some (setting.idOf work.world.issued)) name styling
          (work.freshId setting).2) := by
      rw [enter_given setting _ (hne _)]
      exact Work.aside_checkTags (work.scope :: outer) styling _
    have hinside := ((hbody (work.scope :: outer) _).after_aside hchecked).leave hinj
    exact hinside.then_aside (aside_feed setting outer _ args _)
  package location label extent outer work :=
    inVain_attachPackage hnone location label extent work
  unbuilt node hnode outer work := by
    rw [lowerValue_unbuilt setting outer work hnode, Node.locationsOfValue_unbuilt hnode]
    exact (Work.aside_report work _ rfl).inVain
  bareCall name args styling extent hvalue outer work := hvalue outer work
  bareScope name body bodyExtent args argsExtent styling extent hvalue outer work :=
    hvalue outer work
  barePackage location label extent outer work :=
    inVain_lowerPackage hnone location label extent work
  reference path extent outer work := (Aside.refl work).inVain
  incomplete targets extent outer work := by
    rw [lower_incomplete]
    exact ((aside_checkLeft targets extent work).trans (Work.aside_report _ _ rfl)).inVain
  synonym targets path place extent outer work := by
    rw [lower_synonym]
    exact ((aside_prepareTargets outer targets extent work).trans
      (aside_synonym outer targets path place _)).inVain
  assigned targets value extent hvariable hvalue outer work := by
    rw [lower_assigned setting outer work targets extent hvariable]
    exact ((hvalue outer _).after_aside
      (aside_prepareTargets outer targets extent work)).then_aside (aside_bindTargets targets _ _)
  namedStyle name style extent outer work := (aside_namedStyle outer name style work).inVain
  styleBinding keyword tags extent outer work := by
    have hbound : Aside work (work.update (·.bindStyle keyword (tags.map Node.path))) :=
      Work.aside_update work (fun _ => rfl) fun _ => rfl
    exact hbound.inVain
  other node hnode outer work := by
    rw [lower_other setting outer work hnode, Node.locations_other hnode]
    exact (Work.aside_report work _ rfl).inVain
  nil outer work := by
    rw [lowerAll]
    exact (Aside.refl work).inVain
  cons node rest hnode hrest outer work := by
    rw [lowerAll]
    exact (hnode outer work).trans (hrest outer _)

/-- A recipe asks in vain for what it names, starting with nothing noted and nothing reported. -/
theorem recipe_inVain (hinj : Function.Injective setting.idOf) (hne : ∀ n, setting.idOf n ≠ "")
    (statements : List Node) (world : World) :
    let lowered := lowerRecipe setting statements world
    lowered.failures = (Node.locationsOfAll statements).map (·, unsupplied) ∧
      ∀ location,
        location ∈ lowered.scope.locations ↔ location ∈ Node.locationsOfAll statements := by
  intro lowered
  have hvain : InVain setting.idOf (Node.locationsOfAll statements)
      (openNested setting.idOf "" {} ⟨world, [], .ofContents { id := "" }⟩) lowered :=
    (statements_inVain hnone hinj hne).all statements [] _
  refine ⟨hvain.failures, fun location => ?_⟩
  rw [hvain.noted (fun child hchild => nomatch hchild), locations_openNested]
  simp

end Lowering

/-- A loader that writes down its requests has them all in the end, in their order. -/
theorem tour_logged : Tour fun asked work after =>
    after.world.fetched = work.world.fetched ++ asked where
  still :=
    { trans := fun h h' => by rw [h', h, List.append_assoc]; rfl
      quiet := fun h => by rw [h.world, List.append_nil]
      report := fun work _ _ => (List.append_nil work.world.fetched).symm
      scope := fun work _ => (List.append_nil work.world.fetched).symm
      freshId := fun _ work => (List.append_nil work.world.fetched).symm }
  join h h' := by rw [h', h, List.append_assoc]

theorem recipe_logged (idOf : Nat → String) (chain : List String) (loader : Loader)
    (statements : List Node) (world : World) :
    (lowerRecipe ⟨idOf, chain, some loader.logged⟩ statements world).world.fetched =
      world.fetched ++ Node.locationsOfAll statements :=
  tour_logged.recipe ⟨idOf, chain, some loader.logged⟩ statements (fun _ _ _ => rfl) world

/-- What a recipe names is what it attempts to bring in. Without a loader all of it is noted, and
each attempt is reported once. A loader gets the same requests, whatever comes of them. -/
theorem named_packages_requested {idOf : Nat → String} (hinj : Function.Injective idOf)
    (hne : ∀ n, idOf n ≠ "") (chain : List String) (statements : List Node) (world : World) :
    let alone := lowerRecipe ⟨idOf, chain, none⟩ statements world
    ∃ attempted : List String,
      Text.sortedDistinct attempted = Recipe.packages statements ∧
      Text.sortedDistinct alone.scope.locations = Recipe.packages statements ∧
      alone.failures = attempted.map (·, unsupplied) ∧
      ∀ loader : Loader,
        (lowerRecipe ⟨idOf, chain, some loader.logged⟩ statements world).world.fetched =
          world.fetched ++ attempted := by
  intro alone
  have hnone : (Setting.mk idOf chain none).loader = none := rfl
  obtain ⟨hfailures, hnoted⟩ := recipe_inVain hnone hinj hne statements world
  exact ⟨Node.locationsOfAll statements, rfl, Text.sortedDistinct_congr hnoted, hfailures,
    fun loader => recipe_logged idOf chain loader statements world⟩

/-- Packages in and beside a nested scope, one of them twice. What stands among arguments or where
no statement belongs is never asked for. -/
theorem named_packages_requested_nested :
    let statements : List Node :=
      [.package "b.fiz" none none,
       .scope "n"
         [.assignment [.target "x" none none] (some (.package "a.fiz" (some "x") none)) none]
         none [.package "c.fiz" none none] none none none,
       .assignment [] (some (.valueList [.package "d.fiz" none none] none)) none,
       .package "b.fiz" (some "y") none]
    let alone := lowerRecipe ⟨tally, [], none⟩ statements {}
    Text.sortedDistinct alone.scope.locations = ["a.fiz", "b.fiz"] ∧
      ∃ attempted : List String,
        Text.sortedDistinct attempted = ["a.fiz", "b.fiz"] ∧
        alone.failures = attempted.map (·, unsupplied) ∧
        ∀ loader : Loader,
          (lowerRecipe ⟨tally, [], some loader.logged⟩ statements {}).world.fetched =
            [] ++ attempted := by
  intro statements alone
  have hnamed : Recipe.packages statements = ["a.fiz", "b.fiz"] := by decide +kernel
  obtain ⟨attempted, hattempted, hnoted, hfailures, hlogged⟩ :=
    named_packages_requested tally_injective tally_ne_empty [] statements {}
  exact ⟨hnoted.trans hnamed, attempted, hattempted.trans hnamed, hfailures, hlogged⟩

end Compile

end RecipeGraph
