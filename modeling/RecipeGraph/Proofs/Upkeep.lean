import RecipeGraph.Proofs.LoweringMoves
import RecipeGraph.Recipe.Packages

/-!
What lowering keeps up. A property of the scope under construction, of the scopes around it and
of the world, once it outlasts the single steps, outlasts lowering as a whole. It may depend on
the packages that are still to come; each step that brings one in takes it off the front.
-/
namespace RecipeGraph.Compile

open RecipeGraph.Graph Recipe Package

/-- The world after one more id was given out. -/
def issueNext (world : World) : World :=
  { world with issued := world.issued + 1 }

/-- Properties that every single step keeps up. -/
structure Upkeep (setting : Setting)
    (holds : List String → List Scope → World → Scope → Prop) : Prop where
  vertex : ∀ {pending outer world scope}, holds pending outer world scope → ∀ name look,
    holds pending outer (issueNext world)
      (scope.mapContents (·.addVertex ⟨setting.idOf world.issued, name, look⟩))
  edge : ∀ {pending outer world scope}, holds pending outer world scope →
    ∀ name source target look, holds pending outer (issueNext world)
      (scope.mapContents (·.addEdge ⟨setting.idOf world.issued, name, source, target, look⟩))
  bind : ∀ {pending outer world scope}, holds pending outer world scope → ∀ name id look,
    holds pending outer world
      (scope.mapContents fun contents => (contents.bindVariable name id).setVariableLook name look)
  adorn : ∀ {pending outer world scope}, holds pending outer world scope → ∀ adornment : Adornment,
    holds pending outer world (scope.mapContents adornment.apply)
  enter : ∀ {pending outer world scope}, holds pending outer world scope → ∀ name look,
    holds pending (scope :: outer) (issueNext world)
      (.ofContents { id := setting.idOf world.issued, name := name, look := look })
  leave : ∀ {pending outer world scope inside}, holds pending (scope :: outer) world inside →
    holds pending outer world (scope.attach inside)
  /-- No package can be brought in at all. -/
  alone : setting.loader = none → ∀ {location pending outer world scope},
    holds (location :: pending) outer world scope → holds pending outer world scope
  missed : ∀ loader, setting.loader = some loader →
    ∀ {location pending outer world scope fault after},
      loader location setting.chain world = (.error fault, after) →
      holds (location :: pending) outer world scope → holds pending outer after scope
  adopt : ∀ loader, setting.loader = some loader →
    ∀ {location pending outer world scope package after},
      loader location setting.chain world = (.ok package, after) →
      holds (location :: pending) outer world scope → ∀ name,
      holds pending outer (issueNext after)
        (scope.attach (Stage.relabel package (setting.idOf after.issued) name))
  absorb : ∀ loader, setting.loader = some loader →
    ∀ {location pending outer world scope package after},
      loader location setting.chain world = (.ok package, after) →
      holds (location :: pending) outer world scope →
      holds pending outer after (scope.merge package.copy)

namespace Upkeep

variable {setting : Setting} {holds : List String → List Scope → World → Scope → Prop}
  {pending : List String} {outer : List Scope} {work : Work}

/-- The property at the current point of the work. -/
abbrev At (holds : List String → List Scope → World → Scope → Prop) (pending : List String)
    (outer : List Scope) (work : Work) : Prop :=
  holds pending outer work.world work.scope

theorem quiet {after : Work} (hquiet : work.Quiet after) (h : At holds pending outer work) :
    At holds pending outer after := by
  unfold At
  rw [hquiet.world, hquiet.scope]
  exact h

theorem foldl {α : Type} {step : Work → α → Work}
    (hstep : ∀ work item, At holds pending outer work → At holds pending outer (step work item))
    (items : List α) (h : At holds pending outer work) :
    At holds pending outer (items.foldl step work) :=
  List.foldlRecOn (motive := At holds pending outer) items step h fun work hwork item _ =>
    hstep work item hwork

variable (hkept : Upkeep setting holds)

include hkept

section Elements

theorem placeCall (name : String) (styling : Option Node) (h : At holds pending outer work) :
    At holds pending outer (placeCall setting outer name styling work) := by
  have hquiet := Work.quiet_checkTags outer styling (work.freshId setting).2
  unfold Compile.placeCall At
  rw [Work.world_update, Work.scope_update, hquiet.world, hquiet.scope]
  exact hkept.vertex h name _

theorem addInflows (target : String) (inflows : List Inflow) (h : At holds pending outer work) :
    At holds pending outer (work.addInflows setting target inflows) :=
  foldl (fun _ inflow h => hkept.edge h inflow.name inflow.source target _) inflows h

theorem arguments :
    Node.ArgumentCases
      (fun arg => ∀ {pending outer work}, At holds pending outer work →
        At holds pending outer (lowerArg setting outer arg work).2)
      (fun args => ∀ {pending outer work}, At holds pending outer work →
        At holds pending outer (lowerArgs setting outer args work).2) where
  call name args styling extent ih pending outer work h := by
    rw [lowerArg_call]
    exact hkept.addInflows _ _ (ih (hkept.placeCall name styling h))
  reference path extent pending outer work h := by
    rw [lowerArg_variable]
    cases work.elementOf? outer path with
    | none => exact h
    | some id => exact h
  other node hnode pending outer work h := by
    rw [lowerArg_other setting outer work hnode]
    exact h
  nil h := h
  cons arg rest hfirst hrest pending outer work h := by
    rw [lowerArgs_cons]
    exact hrest (hfirst h)

theorem feed (target : String) (args : List Node) (h : At holds pending outer work) :
    At holds pending outer (feed setting outer target args work) :=
  hkept.addInflows target _ (hkept.arguments.all args h)

theorem bindAll (id : String) (look : Node → Option Look) (targets : List Node)
    (h : At holds pending outer work) :
    At holds pending outer (targets.foldl (Work.bindTarget id look) work) :=
  foldl (fun _ target h => hkept.bind h target.name id (look target)) targets h

theorem bindTargets (targets : List Node) (value : Option String)
    (h : At holds pending outer work) :
    At holds pending outer (bindTargets targets value work) := by
  cases value with
  | none => exact h
  | some id => exact hkept.bindAll id _ targets h

theorem synonym (targets : List Node) (path : Path) (extent : Option Span)
    (h : At holds pending outer work) :
    At holds pending outer (lowerAlias outer targets path extent work) := by
  unfold lowerAlias
  cases work.elementOf? outer path with
  | none => exact h
  | some id => exact hkept.bindAll id _ targets h

theorem namedStyle (name : String) (style : Node) (h : At holds pending outer work) :
    At holds pending outer (lowerNamedStyle outer name style work) :=
  hkept.adorn (quiet (Work.quiet_flatten outer style work) h)
    (.style name (flatten outer style work).1)

end Elements

section Packages

variable {location : String}

/-- A package that does not come leaves nothing but its location behind. -/
theorem bringIn_none {extent : Option Span} {after : Work}
    (hbrought : bringIn setting location extent work = (none, after))
    (h : At holds (location :: pending) outer work) : At holds pending outer after := by
  have hnoted : holds (location :: pending) outer work.world
      (work.scope.mapContents (·.addPackage location)) := hkept.adorn h (.package location)
  cases brought_of_eq hbrought with
  | unsupplied hloader => exact hkept.alone hloader hnoted
  | failed hloader hload => exact hkept.missed _ hloader hload hnoted

omit hkept in
theorem bringIn_some {extent : Option Span} {package : Scope} {after : Work}
    (hbrought : bringIn setting location extent work = (some package, after)) :
    ∃ loader original, setting.loader = some loader ∧ package = original.copy ∧
      loader location setting.chain work.world = (.ok original, after.world) ∧
      after.scope = work.scope.mapContents (·.addPackage location) := by
  cases brought_of_eq hbrought with
  | arrived hloader hload => exact ⟨_, _, hloader, rfl, hload, rfl⟩

theorem attachPackage (label : Option String) (extent : Option Span)
    (h : At holds (location :: pending) outer work) :
    At holds pending outer (attachPackage setting location label extent work).2 := by
  rcases hbrought : bringIn setting location extent work with ⟨_ | package, after⟩
  · rw [attachPackage_absent hbrought]
    exact hkept.bringIn_none hbrought h
  · obtain ⟨loader, original, hloader, rfl, hresult, hscope⟩ := bringIn_some hbrought
    have hadopted := hkept.adopt loader hloader hresult (hkept.adorn h (.package location))
      (label.getD "")
    rw [attachPackage_present hbrought]
    change holds pending outer (issueNext after.world) (after.scope.attach _)
    rw [hscope]
    exact hadopted

theorem package (label : Option String) (extent : Option Span)
    (h : At holds (location :: pending) outer work) :
    At holds pending outer (lowerPackage setting location label extent work) := by
  cases label with
  | some name => exact hkept.attachPackage (some name) extent h
  | none =>
    rcases hbrought : bringIn setting location extent work with ⟨_ | package, after⟩
    · rw [lowerPackage_absent hbrought]
      exact hkept.bringIn_none hbrought h
    · obtain ⟨loader, original, hloader, rfl, hresult, hscope⟩ := bringIn_some hbrought
      have habsorbed := hkept.absorb loader hloader hresult (hkept.adorn h (.package location))
      rw [lowerPackage_present hbrought]
      change holds pending outer after.world (after.scope.merge _)
      rw [hscope]
      exact habsorbed

end Packages

/-- By induction over statements, with the packages that come after them still pending. -/
theorem statements (hne : ∀ n, setting.idOf n ≠ "") :
    Node.StatementCases
      (fun value => ∀ {pending outer work},
        At holds (Node.locationsOfValue (some value) ++ pending) outer work →
          At holds pending outer (lowerValue setting outer value work).2)
      (fun node => ∀ {pending outer work}, At holds (node.locations ++ pending) outer work →
        At holds pending outer (lower setting outer node work))
      (fun nodes => ∀ {pending outer work},
        At holds (Node.locationsOfAll nodes ++ pending) outer work →
          At holds pending outer (lowerAll setting outer nodes work)) where
  call name args styling extent pending outer work h := by
    rw [lowerValue_call]
    exact hkept.feed _ _ (hkept.placeCall name styling h)
  scope name body _ args _ styling _ hbody pending outer work h := by
    have hentered : At holds (Node.locationsOfAll body ++ pending) (work.scope :: outer)
        (Compile.enter setting (work.scope :: outer) (some (setting.idOf work.world.issued)) name
          styling (work.freshId setting).2) :=
      quiet (quiet_enter setting _ (hne _) name styling _) (hkept.enter h name _)
    rw [lowerValue_scope]
    exact hkept.feed _ _ (hkept.leave (hbody hentered))
  package location label extent pending outer work h := hkept.attachPackage label extent h
  unbuilt node hnode pending outer work h := by
    have hnone : Node.locationsOfValue (some node) = [] := by
      cases node with
      | package | scope => cases hnode
      | _ => rfl
    rw [hnone] at h
    rw [lowerValue_unbuilt setting outer work hnode]
    exact h
  bareCall name args styling extent hvalue pending outer work h := by
    rw [lower_call]
    exact hvalue h
  bareScope name body bodyExtent args argsExtent styling extent hvalue pending outer work h := by
    rw [lower_scope]
    exact hvalue h
  barePackage location label extent pending outer work h := by
    rw [lower_package]
    exact hkept.package label extent h
  reference path extent pending outer work h := by
    rw [lower_variable]
    exact h
  incomplete targets extent pending outer work h := by
    have hchecked : At holds pending outer (checkLeft targets extent work) :=
      quiet (Work.quiet_checkLeft targets extent work) h
    rw [lower_incomplete]
    exact hchecked
  synonym targets path place extent pending outer work h := by
    rw [lower_synonym]
    exact hkept.synonym targets path place
      (quiet (quiet_prepareTargets outer targets extent work) h)
  assigned targets value extent hvariable hvalue pending outer work h := by
    have hready : At holds (Node.locationsOfValue (some value) ++ pending) outer
        (prepareTargets outer targets extent work) :=
      quiet (quiet_prepareTargets outer targets extent work) h
    rw [lower_assigned setting outer work targets extent hvariable]
    exact hkept.bindTargets targets _ (hvalue hready)
  namedStyle name style extent pending outer work h := by
    rw [lower_namedStyle]
    exact hkept.namedStyle name style h
  styleBinding keyword tags extent pending outer work h := by
    rw [lower_styleBinding]
    exact hkept.adorn h (.binding keyword (tags.map Node.path))
  other node hnode pending outer work h := by
    have hnone : node.locations = [] := by
      cases node with
      | package | scope | assignment => cases hnode
      | _ => rfl
    rw [hnone] at h
    rw [lower_other setting outer work hnode]
    exact h
  nil h := by
    rw [lowerAll]
    exact h
  cons node rest hnode hrest pending outer work h := by
    have hsplit :
        At holds (node.locations ++ (Node.locationsOfAll rest ++ pending)) outer work := by
      rw [← List.append_assoc]
      exact h
    rw [lowerAll]
    exact hrest (hnode hsplit)

end Upkeep

end RecipeGraph.Compile
