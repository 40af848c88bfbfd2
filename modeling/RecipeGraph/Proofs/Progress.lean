import RecipeGraph.Proofs.LoweringCases
import RecipeGraph.Recipe.Packages

/-!
What lowering never takes back. A relation between what was before and what is after, once it
holds of the single steps, holds of lowering as a whole. For packages this depends on the loader,
which could be anything. One such relation is that ids are given out for good and that all
reports stay, in their order, at the front.
-/
namespace RecipeGraph

open RecipeGraph.Graph

namespace Recipe.Node

theorem locationsOfValue_unbuilt {node : Node} (h : node.isBuilt = false) :
    locationsOfValue (some node) = [] := by
  cases node with
  | scope => cases h
  | package => cases h
  | _ => rfl

theorem locations_other {node : Node} (h : node.isStatement = false) : node.locations = [] := by
  cases node with
  | scope => cases h
  | package => cases h
  | assignment => cases h
  | _ => rfl

end Recipe.Node

namespace Compile

open Recipe

/-- Relations that hold of every single step and carry on from step to step. -/
structure Growth (grows : Work → Work → Prop) : Prop where
  trans : ∀ {work middle after : Work}, grows work middle → grows middle after → grows work after
  quiet : ∀ {work after : Work}, work.Quiet after → grows work after
  report : ∀ (work : Work) (extent : Span) (problem : Problem),
    grows work (work.report extent problem)
  scope : ∀ (work : Work) (scope : Scope), grows work { work with scope := scope }
  freshId : ∀ (setting : Setting) (work : Work), grows work (work.freshId setting).2

namespace Growth

variable {grows : Work → Work → Prop} (h : Growth grows)

include h

section Steps

theorem refl (work : Work) : grows work work :=
  h.quiet (.refl work)

theorem update (work : Work) (f : Contents → Contents) : grows work (work.update f) :=
  h.scope work _

theorem foldl {α : Type} {step : Work → α → Work} (hstep : ∀ work item, grows work (step work item))
    (items : List α) (work : Work) : grows work (items.foldl step work) :=
  List.foldlRecOn (motive := grows work) items step (h.refl work) fun after hgrown item _ =>
    h.trans hgrown (hstep after item)

theorem addInflows (setting : Setting) (target : String) (inflows : List Inflow) (work : Work) :
    grows work (work.addInflows setting target inflows) := by
  refine h.foldl ?_ inflows work
  intro work inflow
  exact h.trans (h.freshId setting work) (h.update _ _)

theorem bindAll (id : String) (look : Node → Option Look) (targets : List Node) (work : Work) :
    grows work (targets.foldl (Work.bindTarget id look) work) :=
  h.foldl (fun work _ => h.update work _) targets work

theorem bindTargets (targets : List Node) (value : Option String) (work : Work) :
    grows work (bindTargets targets value work) := by
  cases value with
  | none => exact h.refl work
  | some id => exact h.bindAll id _ targets work

theorem synonym (outer : List Scope) (targets : List Node) (path : Path) (extent : Option Span)
    (work : Work) : grows work (lowerAlias outer targets path extent work) := by
  unfold lowerAlias
  cases work.elementOf? outer path with
  | none => exact h.report work _ _
  | some id => exact h.bindAll id _ targets work

theorem enter (setting : Setting) (outer : List Scope) (given : Option String) (name : String)
    (styling : Option Node) (work : Work) :
    grows work (enter setting outer given name styling work) := by
  have hopened : ∀ (middle : Work) (scope : Scope),
      grows middle (Work.checkTags outer styling { middle with scope := scope }) := by
    intro middle scope
    exact h.trans (h.scope middle scope) (h.quiet (Work.quiet_checkTags outer styling _))
  unfold Compile.enter
  cases given.filter (· ≠ "") with
  | some id => exact hopened work _
  | none => exact h.trans (h.freshId setting work) (hopened _ _)

theorem placeCall (setting : Setting) (outer : List Scope) (name : String)
    (styling : Option Node) (work : Work) :
    grows work (placeCall setting outer name styling work) :=
  h.trans (h.freshId setting work)
    (h.trans (h.quiet (Work.quiet_checkTags outer styling _)) (h.update _ _))

end Steps

section Lowering

variable (setting : Setting)

theorem arguments (outer : List Scope) :
    Node.ArgumentCases
      (fun arg => ∀ work, grows work (lowerArg setting outer arg work).2)
      (fun args => ∀ work, grows work (lowerArgs setting outer args work).2) where
  call name args styling extent ih work := by
    rw [lowerArg_call]
    exact h.trans (h.placeCall setting outer name styling work)
      (h.trans (ih _) (h.addInflows setting _ _ _))
  reference path extent work := by
    rw [lowerArg_variable]
    cases work.elementOf? outer path with
    | none => exact h.report work _ _
    | some id => exact h.refl work
  other node hnode work := by
    rw [lowerArg_other setting outer work hnode]
    exact h.report work _ _
  nil work := h.refl work
  cons arg rest hfirst hrest work := by
    rw [lowerArgs_cons]
    exact h.trans (hfirst work) (hrest _)

theorem feed (outer : List Scope) (target : String) (args : List Node) (work : Work) :
    grows work (feed setting outer target args work) :=
  h.trans ((h.arguments setting outer).all args work) (h.addInflows setting target _ _)

end Lowering

end Growth

/-- What comes of the world when a package is asked for. -/
def Setting.ask (setting : Setting) (location : String) (world : Package.World) : Package.World :=
  match setting.loader with
  | none => world
  | some loader => (loader location setting.chain world).2

/-- Asking for a package makes no difference to the world beyond what the loader makes of it. -/
theorem world_bringIn (setting : Setting) (location : String) (extent : Option Span)
    (work : Work) :
    (bringIn setting location extent work).2.world = setting.ask location work.world := by
  unfold Setting.ask
  generalize hbrought : bringIn setting location extent work = brought
  cases brought_of_eq hbrought with
  | unsupplied hloader =>
    rw [hloader]
    rfl
  | failed hloader hload | arrived hloader hload =>
    rw [hloader]
    exact (congrArg Prod.snd hload).symm

/-- Relations that hold of every single step and carry on from step to step, while they tell which
packages are asked for on the way. -/
structure Tour (passes : List String → Work → Work → Prop) : Prop where
  still : Growth (passes [])
  join : ∀ {asked further : List String} {work middle after : Work}, passes asked work middle →
    passes further middle after → passes (asked ++ further) work after

namespace Tour

variable {passes : List String → Work → Work → Prop} (h : Tour passes)

include h

theorem after_still {asked : List String} {work middle after : Work}
    (hstill : passes [] work middle) (hon : passes asked middle after) : passes asked work after :=
  h.join hstill hon

theorem then_still {asked : List String} {work middle after : Work}
    (hbefore : passes asked work middle) (hstill : passes [] middle after) :
    passes asked work after := by
  have hjoined := h.join hbefore hstill
  rwa [List.append_nil] at hjoined

section Asks

variable {setting : Setting} {location : String}
  (hasks : ∀ work : Work,
    passes [location] work { work with world := setting.ask location work.world })

include hasks

theorem bringIn (extent : Option Span) (work : Work) :
    passes [location] work (bringIn setting location extent work).2 := by
  have hasked := h.after_still (h.still.update work (·.addPackage location))
    (hasks (work.update (·.addPackage location)))
  have hworld := world_bringIn setting location extent work
  rw [Work.world_update, ← hworld] at hasked
  generalize hbrought : Compile.bringIn setting location extent work = brought at hasked ⊢
  cases brought_of_eq hbrought with
  | unsupplied | failed => exact h.then_still hasked (h.still.report _ _ _)
  | arrived => exact hasked

theorem attachPackage (label : Option String) (extent : Option Span) (work : Work) :
    passes [location] work (attachPackage setting location label extent work).2 := by
  have hbrought := h.bringIn hasks extent work
  rcases hbring : Compile.bringIn setting location extent work with ⟨_ | package, after⟩ <;>
    rw [hbring] at hbrought
  · rw [attachPackage_absent hbring]
    exact hbrought
  · rw [attachPackage_present hbring]
    exact h.then_still hbrought (h.still.trans (h.still.freshId setting _) (h.still.scope _ _))

theorem package (label : Option String) (extent : Option Span) (work : Work) :
    passes [location] work (lowerPackage setting location label extent work) := by
  cases label with
  | some name => exact h.attachPackage hasks (some name) extent work
  | none =>
    have hbrought := h.bringIn hasks extent work
    rcases hbring : Compile.bringIn setting location extent work with ⟨_ | package, after⟩ <;>
      rw [hbring] at hbrought
    · rw [lowerPackage_absent hbring]
      exact hbrought
    · rw [lowerPackage_present hbring]
      exact h.then_still hbrought (h.still.scope _ _)

end Asks

variable (setting : Setting)

/-- Statements ask for their packages one after the other. -/
theorem statements (known : String → Prop)
    (hasks : ∀ location, known location → ∀ work : Work,
      passes [location] work { work with world := setting.ask location work.world }) :
    Node.StatementCases
      (fun value => (∀ location ∈ Node.locationsOfValue (some value), known location) →
        ∀ outer work,
          passes (Node.locationsOfValue (some value)) work (lowerValue setting outer value work).2)
      (fun node => (∀ location ∈ node.locations, known location) →
        ∀ outer work, passes node.locations work (lower setting outer node work))
      (fun nodes => (∀ location ∈ Node.locationsOfAll nodes, known location) →
        ∀ outer work,
          passes (Node.locationsOfAll nodes) work (lowerAll setting outer nodes work)) where
  call name args styling extent _ outer work := by
    rw [lowerValue_call]
    exact h.still.trans (h.still.placeCall setting outer name styling work)
      (h.still.feed setting _ _ _ _)
  scope name body _ args _ styling _ hbody hknown outer work := by
    have hinside : passes (Node.locationsOfAll body) work
        (lowerInside setting outer name body styling work) :=
      h.after_still (h.still.freshId setting work)
        (h.after_still (h.still.enter setting _ _ name styling _) (hbody hknown _ _))
    rw [lowerValue_scope]
    exact h.then_still hinside
      (h.still.trans (h.still.scope _ _) (h.still.feed setting _ _ _ _))
  package location label extent hknown outer work :=
    h.attachPackage (hasks location (hknown location (List.mem_singleton_self location))) label
      extent work
  unbuilt node hnode _ outer work := by
    rw [lowerValue_unbuilt setting outer work hnode, Node.locationsOfValue_unbuilt hnode]
    exact h.still.report work _ _
  bareCall name args styling extent hvalue _ outer work := by
    rw [lower_call]
    exact hvalue (fun _ hnone => nomatch hnone) outer work
  bareScope name body bodyExtent args argsExtent styling extent hvalue hknown outer work := by
    rw [lower_scope]
    exact hvalue hknown outer work
  barePackage location label extent hknown outer work := by
    rw [lower_package]
    exact h.package (hasks location (hknown location (List.mem_singleton_self location))) label
      extent work
  reference path extent _ outer work := by
    rw [lower_variable]
    exact h.still.refl work
  incomplete targets extent _ outer work := by
    rw [lower_incomplete]
    exact h.still.trans (h.still.quiet (Work.quiet_checkLeft targets extent work))
      (h.still.report _ _ _)
  synonym targets path place extent _ outer work := by
    rw [lower_synonym]
    exact h.still.trans (h.still.quiet (quiet_prepareTargets outer targets extent work))
      (h.still.synonym outer targets path place _)
  assigned targets value extent hvariable hvalue hknown outer work := by
    rw [lower_assigned setting outer work targets extent hvariable]
    exact h.after_still (h.still.quiet (quiet_prepareTargets outer targets extent work))
      (h.then_still (hvalue hknown outer _) (h.still.bindTargets targets _ _))
  namedStyle name style extent _ outer work := by
    rw [lower_namedStyle]
    exact h.still.trans (h.still.quiet (Work.quiet_flatten outer style work)) (h.still.update _ _)
  styleBinding keyword tags extent _ outer work := by
    rw [lower_styleBinding]
    exact h.still.update work _
  other node hnode _ outer work := by
    rw [lower_other setting outer work hnode, Node.locations_other hnode]
    exact h.still.report work _ _
  nil _ outer work := by
    rw [lowerAll]
    exact h.still.refl work
  cons node rest hnode hrest hknown outer work := by
    have hfirst : ∀ location ∈ node.locations, known location :=
      fun location hin => hknown location (List.mem_append_left _ hin)
    have hothers : ∀ location ∈ Node.locationsOfAll rest, known location :=
      fun location hin => hknown location (List.mem_append_right _ hin)
    rw [lowerAll]
    exact h.join (hnode hfirst outer work) (hrest hothers outer _)

/-- A whole text asks for its packages one after the other. -/
theorem recipe (statements : List Node)
    (hasks : ∀ location ∈ Node.locationsOfAll statements, ∀ work : Work,
      passes [location] work { work with world := setting.ask location work.world })
    (world : Package.World) :
    passes (Node.locationsOfAll statements) ⟨world, [], .ofContents { id := "" }⟩
      (lowerRecipe setting statements world) := by
  refine h.after_still (h.still.enter setting [] none "" none _) ?_
  exact (h.statements setting (· ∈ Node.locationsOfAll statements) hasks).all statements
    (fun _ hin => hin) [] _

end Tour

namespace Growth

variable {grows : Work → Work → Prop} (h : Growth grows) (setting : Setting)

include h

theorem tour : Tour fun _ => grows :=
  ⟨h, h.trans⟩

theorem ask {location : String} (hloads : ∀ loader, setting.loader = some loader →
      ∀ work : Work, grows work { work with world := (loader location setting.chain work.world).2 })
    (work : Work) : grows work { work with world := setting.ask location work.world } := by
  unfold Setting.ask
  cases hloader : setting.loader with
  | none => exact h.refl work
  | some loader => exact hloads loader hloader work

/-- Statements that bring in nothing but packages for which the loader is known to comply. -/
theorem statements (known : String → Prop)
    (hloads : ∀ location, known location → ∀ loader, setting.loader = some loader →
      ∀ work : Work,
        grows work { work with world := (loader location setting.chain work.world).2 }) :
    Node.StatementCases
      (fun value => (∀ location ∈ Node.locationsOfValue (some value), known location) →
        ∀ outer work, grows work (lowerValue setting outer value work).2)
      (fun node => (∀ location ∈ node.locations, known location) →
        ∀ outer work, grows work (lower setting outer node work))
      (fun nodes => (∀ location ∈ Node.locationsOfAll nodes, known location) →
        ∀ outer work, grows work (lowerAll setting outer nodes work)) :=
  h.tour.statements setting known
    fun location hlocation => h.ask setting (hloads location hlocation)

/-- A whole text, for whose packages the loader is known to comply. -/
theorem recipe (statements : List Node)
    (hloads : ∀ location ∈ Node.locationsOfAll statements, ∀ loader,
      setting.loader = some loader → ∀ work : Work,
        grows work { work with world := (loader location setting.chain work.world).2 })
    (world : Package.World) :
    grows ⟨world, [], .ofContents { id := "" }⟩ (lowerRecipe setting statements world) :=
  h.tour.recipe setting statements
    (fun location hlocation => h.ask setting (hloads location hlocation)) world

end Growth

/-- What holds of every step for each of some things holds for all of them. -/
theorem growth_all {α : Type} {grows : α → Work → Work → Prop} (h : ∀ a, Growth (grows a)) :
    Growth fun work after => ∀ a, grows a work after where
  trans hfirst hsecond a := (h a).trans (hfirst a) (hsecond a)
  quiet hquiet a := (h a).quiet hquiet
  report work extent problem a := (h a).report work extent problem
  scope work scope a := (h a).scope work scope
  freshId setting work a := (h a).freshId setting work

/-- What caches keep from step to step is kept as long as nothing is brought in. -/
theorem growth_cache (keeps : OrderedMap Package.Entry → OrderedMap Package.Entry → Prop)
    (hrefl : ∀ cache, keeps cache cache)
    (htrans : ∀ {cache middle after}, keeps cache middle → keeps middle after →
      keeps cache after) :
    Growth fun work after => keeps work.world.cache after.world.cache where
  trans := htrans
  quiet h := by
    rw [h.world]
    exact hrefl _
  report work _ _ := hrefl work.world.cache
  scope work _ := hrefl work.world.cache
  freshId _ work := hrefl work.world.cache

namespace Work

/-- Ids were given out and things reported, and no packages were brought in. -/
structure Later (work after : Work) : Prop where
  issued : work.world.issued ≤ after.world.issued
  kept : work.diagnostics <+: after.diagnostics
  cache : after.world.cache = work.world.cache

end Work

theorem growth_later : Growth Work.Later where
  trans h h' := ⟨Nat.le_trans h.issued h'.issued, h.kept.trans h'.kept, h'.cache.trans h.cache⟩
  quiet h := ⟨Nat.le_of_eq (congrArg _ h.world.symm), h.kept, congrArg _ h.world⟩
  report work _ _ := ⟨Nat.le_refl _, List.prefix_append work.diagnostics _, rfl⟩
  scope work _ := ⟨Nat.le_refl _, List.prefix_refl work.diagnostics, rfl⟩
  freshId _ work := ⟨Nat.le_succ _, List.prefix_refl work.diagnostics, rfl⟩

namespace Work

section Later

variable {work middle after : Work}

theorem Later.trans (h : Later work middle) (h' : Later middle after) : Later work after :=
  growth_later.trans h h'

theorem Quiet.later (h : Quiet work after) : Later work after :=
  growth_later.quiet h

/-- Silence at the end means silence all the way. -/
theorem Later.silent (h : Later work after) (hsilent : after.diagnostics = []) :
    work.diagnostics = [] := by
  have hkept := h.kept
  rw [hsilent] at hkept
  exact List.prefix_nil.mp hkept

theorem report_not_silent (work : Work) (extent : Span) (problem : Problem) :
    (work.report extent problem).diagnostics ≠ [] := by
  intro hsilent
  exact List.append_ne_nil_of_right_ne_nil work.diagnostics (List.cons_ne_nil _ _) hsilent

end Later

end Work

open Work (Later)

section Later

variable (setting : Setting)

/-- Without packages all loaders will do. -/
theorem statements_later :
    Node.StatementCases
      (fun value => (∀ location ∈ Node.locationsOfValue (some value), False) →
        ∀ outer work, Later work (lowerValue setting outer value work).2)
      (fun node => (∀ location ∈ node.locations, False) →
        ∀ outer work, Later work (lower setting outer node work))
      (fun nodes => (∀ location ∈ Node.locationsOfAll nodes, False) →
        ∀ outer work, Later work (lowerAll setting outer nodes work)) :=
  growth_later.statements setting (fun _ => False) fun _ hnone => hnone.elim

theorem lowerValue_later (value : Node) (himports : Node.locationsOfValue (some value) = [])
    (outer : List Scope) (work : Work) : Later work (lowerValue setting outer value work).2 :=
  (statements_later setting).value value (by simp [himports]) outer work

theorem lowerAll_later (statements : List Node) (himports : Node.locationsOfAll statements = [])
    (outer : List Scope) (work : Work) : Later work (lowerAll setting outer statements work) :=
  (statements_later setting).all statements (by simp [himports]) outer work

end Later

end Compile

end RecipeGraph
