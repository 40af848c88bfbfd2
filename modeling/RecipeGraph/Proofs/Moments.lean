import RecipeGraph.Compile.Workshop
import RecipeGraph.Proofs.LoweringCases
import Mathlib.Logic.Relation

/-!
The moments of lowering. At each moment something is left to do in a scope, while other scopes
lie around it and texts further out wait for this one, which may be a package. What comes next is
gone through as a whole or entered, so the moments are all points that lowering passes, down to
the single variable that is bound and the single edge that is drawn.
-/
namespace RecipeGraph.Compile

open RecipeGraph.Graph Recipe Package

/-- What is to be done next. -/
inductive Job
  | statements (nodes : List Node)
  | value (node : Node)
  /-- Variables to be bound to an element, each with a style. -/
  | targets (nodes : List Node) (id : String) (lookFor : Node → Option Look)
  /-- Arguments to be lowered for an element, and the edges into it. -/
  | feed (target : String) (args : List Node)
  | args (nodes : List Node)
  | edges (target : String) (inflows : List Inflow)

structure Task where
  setting : Setting
  /-- The scopes of the texts that wait for this one. -/
  suspended : List Scope
  outer : List Scope
  work : Work
  job : Job

def loadedPackages (world : World) : List Scope :=
  (loadedEntries world).filterMap fun entry => entry.2.toOption

theorem mem_loadedPackages {world : World} {package : Scope} :
    package ∈ loadedPackages world ↔
      ∃ location, (location, Entry.loaded (.ok package)) ∈ world.cache.entries := by
  unfold loadedPackages loadedEntries
  rw [List.filterMap_filterMap, List.mem_filterMap]
  constructor
  · rintro ⟨⟨location, entry⟩, hentry, hpackage⟩
    match entry, hpackage with
    | .loaded (.ok found), hpackage =>
      obtain rfl : found = package := Option.some.inj hpackage
      exact ⟨location, hentry⟩
  · rintro ⟨location, hentry⟩
    exact ⟨_, hentry, rfl⟩

namespace Task

/-- The beginning of a text. -/
def opening (setting : Setting) (suspended : List Scope) (statements : List Node)
    (world : World) : Task :=
  ⟨setting, suspended, [],
   enter setting [] none "" none ⟨world, [], .ofContents { id := "" }⟩, .statements statements⟩

/-- The end of a text. -/
def ending (setting : Setting) (suspended : List Scope) (work : Work) : Task :=
  ⟨setting, suspended, [], work, .statements []⟩

/-- Where there are scopes at all: in this text, in the texts that wait, in the cache. -/
def scopes (task : Task) : List Scope :=
  task.work.scope :: task.outer ++ task.suspended ++ loadedPackages task.work.world

/-- All scopes that there are, with those in them. -/
def dags (task : Task) : List Scope :=
  task.scopes.flatMap Scope.all

/-- From one moment to the next, or to the first one inside of what comes next. -/
inductive Leads : Task → Task → Prop
  | next {setting suspended outer work node rest} :
      Leads ⟨setting, suspended, outer, work, .statements (node :: rest)⟩
        ⟨setting, suspended, outer, lower setting outer node work, .statements rest⟩
  | bare {setting suspended outer work node rest} (hbuilt : node.isBuilt = true) :
      Leads ⟨setting, suspended, outer, work, .statements (node :: rest)⟩
        ⟨setting, suspended, outer, work, .value node⟩
  | assigned {setting suspended outer work targets value extent rest}
      (hvalue : value.isVariable = false) :
      Leads
        ⟨setting, suspended, outer, work,
          .statements (.assignment targets (some value) extent :: rest)⟩
        ⟨setting, suspended, outer, prepareTargets outer targets extent work, .value value⟩
  | bind {setting suspended outer work targets value extent rest id after}
      (hvalue : value.isVariable = false)
      (hlowered : lowerValue setting outer value (prepareTargets outer targets extent work) =
        (some id, after)) :
      Leads
        ⟨setting, suspended, outer, work,
          .statements (.assignment targets (some value) extent :: rest)⟩
        ⟨setting, suspended, outer, after,
          .targets targets id fun target => lookOf target.styling⟩
  | synonym {setting suspended outer work targets path place extent rest id prepared}
      (hprepared : prepareTargets outer targets extent work = prepared)
      (hfound : prepared.elementOf? outer path = some id) :
      Leads
        ⟨setting, suspended, outer, work,
          .statements (.assignment targets (some (.variable path place)) extent :: rest)⟩
        ⟨setting, suspended, outer, prepared,
          .targets targets id fun target =>
            (lookOf target.styling).or (prepared.variableLook? outer path)⟩
  | target {setting suspended outer work target rest id lookFor} :
      Leads ⟨setting, suspended, outer, work, .targets (target :: rest) id lookFor⟩
        ⟨setting, suspended, outer, work.bindTarget id lookFor target,
          .targets rest id lookFor⟩
  | call {setting suspended outer work name args styling extent} :
      Leads ⟨setting, suspended, outer, work, .value (.call name args styling extent)⟩
        ⟨setting, suspended, outer, placeCall setting outer name styling work,
          .feed (setting.idOf work.world.issued) args⟩
  | inside {setting suspended outer work name body bodyExtent args argsExtent styling extent} :
      Leads
        ⟨setting, suspended, outer, work,
          .value (.scope name body bodyExtent args argsExtent styling extent)⟩
        ⟨setting, suspended, work.scope :: outer,
          enter setting (work.scope :: outer) (some (setting.idOf work.world.issued)) name styling
            (work.freshId setting).2,
          .statements body⟩
  | left {setting suspended outer work name body bodyExtent args argsExtent styling extent after}
      (hinside : lowerInside setting outer name body styling work = after) :
      Leads
        ⟨setting, suspended, outer, work,
          .value (.scope name body bodyExtent args argsExtent styling extent)⟩
        ⟨setting, suspended, outer, { after with scope := work.scope.attach after.scope },
          .feed (setting.idOf work.world.issued) args⟩
  -- The text of a package that is asked for the first time. Its location is noted before.
  | package {setting suspended outer work location label extent idOf library depth text}
      (hloader : setting.loader = some (loadWithin idOf library (depth + 1)))
      (hrefusal : refusal? location setting.chain = none)
      (hnew : work.world.cache.get? location = none)
      (htext : library.fetch location = .ok text) :
      Leads ⟨setting, suspended, outer, work, .value (.package location label extent)⟩
        (opening ⟨idOf, location :: setting.chain, some (loadWithin idOf library depth)⟩
          (work.scope.mapContents (·.addPackage location) :: outer ++ suspended)
          (Recipe.ofText text location).recipe.statements
          ((work.world.record location .loading).noteFetch location))
  -- An edge is drawn only when all arguments of its target are lowered.
  | arguments {setting suspended outer work target args} :
      Leads ⟨setting, suspended, outer, work, .feed target args⟩
        ⟨setting, suspended, outer, work, .args args⟩
  | flow {setting suspended outer work target args inflows after}
      (hlowered : lowerArgs setting outer args work = (inflows, after)) :
      Leads ⟨setting, suspended, outer, work, .feed target args⟩
        ⟨setting, suspended, outer, after, .edges target inflows⟩
  | arg {setting suspended outer work arg rest} :
      Leads ⟨setting, suspended, outer, work, .args (arg :: rest)⟩
        ⟨setting, suspended, outer, (lowerArg setting outer arg work).2, .args rest⟩
  | nested {setting suspended outer work name args styling extent rest} :
      Leads ⟨setting, suspended, outer, work, .args (.call name args styling extent :: rest)⟩
        ⟨setting, suspended, outer, work, .value (.call name args styling extent)⟩
  | edge {setting suspended outer work target inflow rest} :
      Leads ⟨setting, suspended, outer, work, .edges target (inflow :: rest)⟩
        ⟨setting, suspended, outer, work.addInflow setting target inflow, .edges target rest⟩

/-- Statements are gone through to the end. -/
theorem leads_statements (setting : Setting) (suspended outer : List Scope) (nodes : List Node)
    (work : Work) :
    Relation.ReflTransGen Leads ⟨setting, suspended, outer, work, .statements nodes⟩
      ⟨setting, suspended, outer, lowerAll setting outer nodes work, .statements []⟩ := by
  induction nodes generalizing work with
  | nil => rw [lowerAll]
  | cons node rest ih =>
    rw [lowerAll]
    exact .head .next (ih _)

end Task

/-- Packages are brought in by fetching and compiling, if they are brought in at all. -/
def Setting.Real (setting : Setting) : Prop :=
  ∀ loader, setting.loader = some loader →
    ∃ idOf library depth, loader = loadWithin idOf library depth

/-- The moments passed by texts that begin in this way. -/
def Passes (openings : List Task) (task : Task) : Prop :=
  ∃ opening ∈ openings, Relation.ReflTransGen Task.Leads opening task

/-- The worlds that such texts leave behind, finished or broken off, and a new world. The cache may
be cleared. -/
inductive Leaves (openings : List Task) : World → Prop
  | new : Leaves openings {}
  | passed {task : Task} (h : Passes openings task) : Leaves openings task.work.world
  | cleared {world : World} (h : Leaves openings world) : Leaves openings world.clear

/-- Beginnings of texts, the last one first. Each text begins in what those before it left. -/
inductive Series : List Task → Prop
  | none : Series []
  | opening {openings : List Task} (h : Series openings) {world : World}
      (hworld : Leaves openings world) {setting : Setting} (hreal : setting.Real)
      (statements : List Node) : Series (.opening setting [] statements world :: openings)

section Series

variable {openings : List Task} {task next : Task}

theorem Passes.step (h : Passes openings task) (hleads : task.Leads next) :
    Passes openings next := by
  obtain ⟨opening, hopening, hway⟩ := h
  exact ⟨opening, hopening, hway.tail hleads⟩

theorem Task.Leads.real (h : task.Leads next) (hreal : task.setting.Real) : next.setting.Real := by
  cases h with
  | package => exact fun loader hloader => ⟨_, _, _, (Option.some.inj hloader).symm⟩
  | _ => exact hreal

theorem Series.real (h : Series openings) (hpasses : Passes openings task) :
    task.setting.Real := by
  obtain ⟨opening, hopening, hway⟩ := hpasses
  have hbegin : opening.setting.Real := by
    induction h with
    | none => cases hopening
    | opening _ _ hreal _ ih =>
      rcases List.mem_cons.mp hopening with rfl | hold
      · exact hreal
      · exact ih hold
  induction hway with
  | refl => exact hbegin
  | tail _ hleads ih => exact hleads.real ih

end Series

end RecipeGraph.Compile
