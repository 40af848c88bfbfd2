import RecipeGraph.Proofs.Answers
import RecipeGraph.Proofs.Moments
import RecipeGraph.Proofs.Renaming

/-!
Variables and their styles side by side. The elements and the styles of the variables of a scope
are two sides of one map, into which every binding writes both at once. Merges and copies keep the
sides together, and so does every single step of lowering. Edges are drawn for what arguments give.
-/
namespace RecipeGraph

open RecipeGraph.Graph Recipe Package Compile

namespace Compile

/-- A moment was passed at which a variable of this name is to be bound, to this element with this
style. -/
def Bound (openings : List Task) (name id : String) (look : Option Look) : Prop :=
  ∃ setting suspended outer work target rest lookFor,
    Passes openings ⟨setting, suspended, outer, work, .targets (target :: rest) id lookFor⟩ ∧
      target.name = name ∧ lookFor target = look

/-- This moment was passed; an argument is lowered then and gives the value. -/
structure Supplies (openings : List Task) (task : Task) (arg : Node) (inflow : Inflow) :
    Prop where
  passed : Passes openings task
  next : ∃ rest, task.job = .args (arg :: rest)
  gives : (lowerArg task.setting task.outer arg task.work).1 = some inflow

def Supplied (openings : List Task) (inflow : Inflow) : Prop :=
  ∃ task arg, Supplies openings task arg inflow

/-- An edge for a value that flows in: without a style of its own it has an empty one. -/
structure Carries (edge : Edge) (inflow : Inflow) : Prop where
  name : edge.name = inflow.name
  source : edge.source = inflow.source
  look : edge.look = inflow.look.getD {}

def Drawn (openings : List Task) (edge : Edge) : Prop :=
  ∃ task arg inflow, Supplies openings task arg inflow ∧ Carries edge inflow

end Compile

variable {openings : List Task}

namespace Graph.Contents

/-- One map of which the variables and their styles are the two sides. -/
structure Joined (openings : List Task) (contents : Contents)
    (joint : OrderedMap (String × Option Look)) : Prop where
  ids : contents.variableIds = joint.map Prod.fst
  looks : contents.variableLooks = joint.map Prod.snd
  bound : ∀ name id look, (name, id, look) ∈ joint.entries → Bound openings name id look

structure Matched (openings : List Task) (contents : Contents) : Prop where
  joined : ∃ joint, contents.Joined openings joint
  drawn : ∀ edge ∈ contents.edges.values, Drawn openings edge

variable {contents other : Contents}

theorem matched_new (id name : String) (look : Look) :
    Matched openings { id := id, name := name, look := look } := by
  constructor
  · exact ⟨{}, rfl, rfl, fun name id look hnone => nomatch hnone⟩
  · intro edge hnone
    cases hnone

theorem Matched.of_same (h : contents.Matched openings)
    (hids : other.variableIds = contents.variableIds)
    (hlooks : other.variableLooks = contents.variableLooks)
    (hedges : other.edges = contents.edges) : other.Matched openings := by
  obtain ⟨joint, hjoint⟩ := h.joined
  refine ⟨⟨joint, hids.trans hjoint.ids, hlooks.trans hjoint.looks, hjoint.bound⟩, ?_⟩
  rw [hedges]
  exact h.drawn

theorem Matched.adorn (h : contents.Matched openings) (adornment : Adornment) :
    (adornment.apply contents).Matched openings :=
  h.of_same (adornment.variableIds_apply contents) (adornment.variableLooks_apply contents)
    (adornment.edges_apply contents)

theorem Matched.addEdge (h : contents.Matched openings) {edge : Edge}
    (hdrawn : Drawn openings edge) : (contents.addEdge edge).Matched openings := by
  obtain ⟨joint, hjoint⟩ := h.joined
  refine ⟨⟨joint, hjoint.ids, hjoint.looks, hjoint.bound⟩, ?_⟩
  intro added hin
  rcases OrderedMap.mem_values_insert hin with rfl | hold
  · exact hdrawn
  · exact h.drawn added hold

theorem Matched.bind (h : contents.Matched openings) {name id : String} {look : Option Look}
    (hbound : Bound openings name id look) :
    ((contents.bindVariable name id).setVariableLook name look).Matched openings := by
  obtain ⟨joint, hjoint⟩ := h.joined
  refine ⟨⟨joint.insert name (id, look), ?_, ?_, ?_⟩, h.drawn⟩
  · rw [OrderedMap.map_insert, ← hjoint.ids]
    rfl
  · rw [OrderedMap.map_insert, ← hjoint.looks]
    rfl
  · intro name' id' look' hentry
    rcases OrderedMap.mem_insert hentry with ⟨rfl, heq⟩ | hold
    · obtain ⟨rfl, rfl⟩ := Prod.mk.inj heq
      exact hbound
    · exact hjoint.bound name' id' look' hold

theorem Matched.merge (h : contents.Matched openings) (h' : other.Matched openings) :
    (contents.merge other).Matched openings := by
  obtain ⟨joint, hjoint⟩ := h.joined
  obtain ⟨joint', hjoint'⟩ := h'.joined
  refine ⟨⟨joint.merge joint', ?_, ?_, ?_⟩, ?_⟩
  · rw [variableIds_merge, OrderedMap.map_merge, hjoint.ids, hjoint'.ids]
  · rw [variableLooks_merge, OrderedMap.map_merge, hjoint.looks, hjoint'.looks]
  · intro name id look hentry
    rw [OrderedMap.entries_merge] at hentry
    rcases OrderedMap.mem_writeAll hentry with hadded | hold
    · exact hjoint'.bound name id look hadded
    · exact hjoint.bound name id look hold
  · intro edge hin
    rcases mem_edges_merge hin with hadded | hold
    · exact h'.drawn edge hadded
    · exact h.drawn edge hold

end Graph.Contents

namespace Graph.Scope

def Matched (openings : List Task) (scope : Scope) : Prop :=
  ∀ contents ∈ scope.layers, contents.Matched openings

variable {scope other child : Scope}

theorem Matched.own (h : scope.Matched openings) : scope.contents.Matched openings :=
  h _ (self_mem_layers scope)

theorem matched_ofContents {contents : Contents} (h : contents.Matched openings) :
    (ofContents contents).Matched openings := by
  intro layer hlayer
  rcases mem_gather_iff.mp hlayer with hself | ⟨child, hnone, -⟩
  · rwa [List.mem_singleton.mp hself]
  · cases hnone

theorem Matched.mapContents (h : scope.Matched openings) {f : Contents → Contents}
    (hf : (f scope.contents).Matched openings) : (scope.mapContents f).Matched openings := by
  intro layer hlayer
  rcases mem_gather_mapContents hlayer with hself | hin
  · rwa [List.mem_singleton.mp hself]
  · exact h layer hin

theorem Matched.attach (h : scope.Matched openings) (hchild : child.Matched openings) :
    (scope.attach child).Matched openings := by
  intro layer hlayer
  rcases mem_gather_attach hlayer with hin | hin
  · exact h layer hin
  · exact hchild layer hin

theorem Matched.merge (h : scope.Matched openings) (hother : other.Matched openings) :
    (scope.merge other).Matched openings := by
  intro layer hlayer
  rcases mem_gather_merge hlayer with hself | hin | hin
  · rw [List.mem_singleton.mp hself]
    exact h.own.merge hother.own
  · exact h layer hin
  · exact hother layer hin

theorem Matched.copy (h : scope.Matched openings) : scope.copy.Matched openings :=
  fun layer hlayer => h layer (mem_gather_copy hlayer)

end Graph.Scope

namespace Compile

/-- So it is in every package in the cache. -/
def MatchedCache (openings : List Task) (world : World) : Prop :=
  ∀ package ∈ loadedPackages world, package.Matched openings

section Cache

variable {world : World}

theorem matchedCache_empty (h : world.cache = {}) : MatchedCache openings world := by
  intro package hpackage
  obtain ⟨location, hnone⟩ := mem_loadedPackages.mp hpackage
  rw [h] at hnone
  cases hnone

theorem MatchedCache.record (h : MatchedCache openings world) (location : String) {entry : Entry}
    (hentry : ∀ package, entry = .loaded (.ok package) → package.Matched openings) :
    MatchedCache openings (world.record location entry) := by
  intro package hpackage
  obtain ⟨there, hthere⟩ := mem_loadedPackages.mp hpackage
  rcases OrderedMap.mem_insert hthere with ⟨-, hnew⟩ | hold
  · exact hentry package hnew.symm
  · exact h package (mem_loadedPackages.mpr ⟨there, hold⟩)

theorem MatchedCache.loading (h : MatchedCache openings world) (location : String) :
    MatchedCache openings ((world.record location .loading).noteFetch location) :=
  h.record location fun _ hnone => nomatch hnone

end Cache

namespace Work

structure Matched (openings : List Task) (work : Work) : Prop where
  scope : work.scope.Matched openings
  cache : MatchedCache openings work.world

variable {work after : Work} {setting : Setting} {outer : List Scope}

theorem Matched.quiet (h : work.Matched openings) (hquiet : Work.Quiet work after) :
    after.Matched openings := by
  constructor
  · rw [hquiet.scope]
    exact h.scope
  · rw [hquiet.world]
    exact h.cache

theorem Matched.update (h : work.Matched openings) {f : Contents → Contents}
    (hf : (f work.scope.contents).Matched openings) : (work.update f).Matched openings :=
  ⟨h.scope.mapContents hf, h.cache⟩

theorem Matched.adorn (h : work.Matched openings) (adornment : Adornment) :
    (work.update adornment.apply).Matched openings :=
  h.update (h.scope.own.adorn adornment)

theorem Matched.freshId (h : work.Matched openings) : (work.freshId setting).2.Matched openings :=
  ⟨h.scope, h.cache⟩

theorem Matched.placeCall (h : work.Matched openings) (name : String) (styling : Option Node) :
    (placeCall setting outer name styling work).Matched openings := by
  have hchecked : ((work.freshId setting).2.checkTags outer styling).Matched openings :=
    h.freshId.quiet (quiet_checkTags outer styling _)
  exact hchecked.update (hchecked.scope.own.of_same rfl rfl rfl)

theorem Matched.prepareTargets (h : work.Matched openings) (targets : List Node)
    (extent : Option Span) : (prepareTargets outer targets extent work).Matched openings :=
  h.quiet (quiet_prepareTargets outer targets extent work)

theorem Matched.enter (h : work.Matched openings) (given : Option String) (name : String)
    (styling : Option Node) : (enter setting outer given name styling work).Matched openings := by
  unfold Compile.enter
  cases given.filter (· ≠ "") with
  | some id =>
    refine Matched.quiet ?_ (quiet_checkTags outer styling _)
    exact ⟨Scope.matched_ofContents (Contents.matched_new _ _ _), h.cache⟩
  | none =>
    refine Matched.quiet ?_ (quiet_checkTags outer styling _)
    exact ⟨Scope.matched_ofContents (Contents.matched_new _ _ _), h.cache⟩

theorem Matched.addInflow (h : work.Matched openings) (target : String) {inflow : Inflow}
    (hsupplied : Supplied openings inflow) :
    (work.addInflow setting target inflow).Matched openings := by
  obtain ⟨task, arg, hsupplies⟩ := hsupplied
  have hdrawn : Drawn openings ⟨setting.idOf work.world.issued, inflow.name, inflow.source, target,
      inflow.look.getD {}⟩ := ⟨task, arg, inflow, hsupplies, rfl, rfl, rfl⟩
  have hfresh : (work.freshId setting).2.Matched openings := h.freshId
  exact hfresh.update (h.scope.own.addEdge hdrawn)

theorem Matched.addInflows (h : work.Matched openings) (target : String) {inflows : List Inflow}
    (hsupplied : ∀ inflow ∈ inflows, Supplied openings inflow) :
    (work.addInflows setting target inflows).Matched openings := by
  induction inflows generalizing work with
  | nil => exact h
  | cons inflow rest ih =>
    rw [List.forall_mem_cons] at hsupplied
    exact ih (h.addInflow target hsupplied.1) hsupplied.2

theorem Matched.bindTarget (h : work.Matched openings) {target : Node} {id : String}
    {lookFor : Node → Option Look} (hbound : Bound openings target.name id (lookFor target)) :
    (work.bindTarget id lookFor target).Matched openings :=
  h.update (h.scope.own.bind hbound)

end Work

end Compile

end RecipeGraph
