import RecipeGraph.Proofs.Recording

/-!
A variable and its style come from the same binding. A path leads to both or to neither, and one
scope answers for both, at every moment of lowering and in all that comes of it. So an edge has the
style that was bound to the variable together with the element the edge comes from. If none was
bound, the style is empty, whatever is bound to that name further out.
-/
namespace RecipeGraph.Compile

open RecipeGraph.Graph Recipe Package

variable {openings : List Task}

/-- One scope answers for a variable and for its style, with what was bound to it at once. -/
def AnsweredAtOnce (openings : List Task) (path : Path) (chain : List Scope) (id : String)
    (look : Option Look) : Prop :=
  ∃ place, Scope.answering Contents.variableIds path [] chain = some place ∧
    Scope.answering Contents.variableLooks path [] chain = some place ∧
    Scope.held Contents.variableIds place = some id ∧
    Scope.held Contents.variableLooks place = some look ∧ Bound openings place.2 id look

/-- The element and the style that a path is resolved to: neither, or both by one answer. -/
inductive FoundTogether (openings : List Task) (path : Path) (chain : List Scope) :
    Option String → Option (Option Look) → Prop
  | neither : FoundTogether openings path chain none none
  | both {id : String} {look : Option Look} (h : AnsweredAtOnce openings path chain id look) :
      FoundTogether openings path chain (some id) (some look)

/-- All that is in these scopes is in the scopes there are at this moment. -/
def Task.Holds (task : Task) (chain : List Scope) : Prop :=
  ∀ contents ∈ chain.flatMap Scope.layers, ∃ dag ∈ task.dags, dag.contents = contents

/-- Variables and styles belong together in all scopes that there are. A chain is a scope with
those around it, be they complete or still without what is under construction in them. -/
structure Task.Coherent (openings : List Task) (task : Task) : Prop where
  keys : ∀ dag ∈ task.dags, dag.contents.variableIds.keys = dag.contents.variableLooks.keys
  bound : ∀ dag ∈ task.dags, ∀ name id look, dag.contents.variableIds.get? name = some id →
    dag.contents.variableLooks.get? name = some look → Bound openings name id look
  records : ∀ nodes, task.job = .statements nodes →
    Work.Records (bindingsOfAll task.setting task.outer nodes task.work) task.work
      (lowerAll task.setting task.outer nodes task.work)
  finds : ∀ chain, task.Holds chain → ∀ path,
    FoundTogether openings path chain (Scope.lookUp Contents.variableIds path [] chain)
      (Scope.lookUp Contents.variableLooks path [] chain)
  resolves : ∀ scope outer, task.Holds (scope :: outer) → ∀ path,
    FoundTogether openings path (Scope.upwards scope outer)
      (scope.resolve Contents.variableIds outer path)
      (scope.resolve Contents.variableLooks outer path)
  arguments : ∀ path extent inflow, Supplies openings task (.variable path extent) inflow →
    AnsweredAtOnce openings path (Scope.upwards task.work.scope task.outer) inflow.source
      inflow.look
  edges : ∀ dag ∈ task.dags, ∀ edge ∈ dag.contents.edges.values,
    ∃ moment arg inflow, Supplies openings moment arg inflow ∧ Carries edge inflow ∧
      ∀ path extent, arg = .variable path extent →
        AnsweredAtOnce openings path (Scope.upwards moment.work.scope moment.outer)
          inflow.source inflow.look

section Lookups

variable {chain : List Scope}

theorem matched_get? {contents : Contents} (h : contents.Matched openings) (name : String) :
    (contents.variableIds.get? name = none ∧ contents.variableLooks.get? name = none) ∨
      ∃ id look, contents.variableIds.get? name = some id ∧
        contents.variableLooks.get? name = some look ∧ Bound openings name id look := by
  obtain ⟨joint, hjoint⟩ := h.joined
  rw [hjoint.ids, hjoint.looks, OrderedMap.get?_map, OrderedMap.get?_map]
  cases hget : joint.get? name with
  | none => exact Or.inl ⟨rfl, rfl⟩
  | some entry =>
    exact Or.inr ⟨entry.1, entry.2, rfl, rfl,
      hjoint.bound name entry.1 entry.2 (OrderedMap.mem_of_get? hget)⟩

theorem lookUp_together (h : ∀ contents ∈ chain.flatMap Scope.layers, contents.Matched openings)
    (path : Path) :
    FoundTogether openings path chain (Scope.lookUp Contents.variableIds path [] chain)
      (Scope.lookUp Contents.variableLooks path [] chain) := by
  have hsame : Scope.answering Contents.variableIds path [] chain =
      Scope.answering Contents.variableLooks path [] chain := by
    refine Scope.answering_congr (fun contents hin name => ?_) []
    rcases matched_get? (h contents hin) name with ⟨hid, hlook⟩ | ⟨id, look, hid, hlook, -⟩
    · rw [hid, hlook]
      rfl
    · rw [hid, hlook]
      rfl
  rw [Scope.lookUp_eq_held, Scope.lookUp_eq_held, ← hsame]
  cases hanswer : Scope.answering Contents.variableIds path [] chain with
  | none => exact .neither
  | some place =>
    obtain ⟨hin, id, hid⟩ := Scope.answering_some hanswer
    rcases matched_get? (h _ hin) place.2 with ⟨hnone, -⟩ | ⟨id', look, hid', hlook, hbound⟩
    · cases hnone.symm.trans hid
    · rw [Option.bind_some, Option.bind_some]
      change FoundTogether openings path chain (place.1.contents.variableIds.get? place.2)
        (place.1.contents.variableLooks.get? place.2)
      rw [hid', hlook]
      exact .both ⟨place, hanswer, hsame ▸ hanswer, hid', hlook, hbound⟩

theorem resolve_together {scope : Scope} {outer : List Scope}
    (h : ∀ contents ∈ (scope :: outer).flatMap Scope.layers, contents.Matched openings)
    (path : Path) :
    FoundTogether openings path (Scope.upwards scope outer)
      (scope.resolve Contents.variableIds outer path)
      (scope.resolve Contents.variableLooks outer path) := by
  rw [Scope.resolve_eq_lookUp, Scope.resolve_eq_lookUp]
  exact lookUp_together (fun contents hin => h contents (Scope.mem_gather_upwards hin)) path

theorem Supplies.answered (hseries : Series openings) {task : Task} {path : Path}
    {extent : Option Span} {inflow : Inflow}
    (h : Supplies openings task (.variable path extent) inflow) :
    AnsweredAtOnce openings path (Scope.upwards task.work.scope task.outer) inflow.source
      inflow.look := by
  have hmatched := hseries.matched (List.Subset.refl _) task h.passed
  have haround : ∀ contents ∈ (task.work.scope :: task.outer).flatMap Scope.layers,
      contents.Matched openings := by
    intro contents hcontents
    obtain ⟨scope, hscope, hin⟩ := List.mem_flatMap.mp hcontents
    rcases List.mem_cons.mp hscope with rfl | hscope
    · exact hmatched.work.scope contents hin
    · exact hmatched.around scope (List.mem_append_left _ hscope) contents hin
  have hgives := h.gives
  rw [lowerArg_variable] at hgives
  cases hfound : task.work.elementOf? task.outer path with
  | none =>
    rw [hfound] at hgives
    cases hgives
  | some id =>
    rw [hfound] at hgives
    obtain rfl := Option.some.inj hgives
    have hid : task.work.scope.resolve Contents.variableIds task.outer path = some id :=
      (Option.filter_eq_some_iff.mp hfound).1
    have htogether := resolve_together haround path
    rw [hid] at htogether
    unfold Work.variableLook?
    cases hlook : task.work.scope.resolve Contents.variableLooks task.outer path with
    | none =>
      rw [hlook] at htogether
      cases htogether
    | some look =>
      rw [hlook] at htogether
      cases htogether with
      | both h => exact h

end Lookups

section Moments

variable (hseries : Series openings) {task : Task} (hpasses : Passes openings task)

include hseries hpasses

theorem matched_dag : ∀ dag ∈ task.dags, dag.contents.Matched openings := by
  intro dag hdag
  obtain ⟨scope, hscope, hin⟩ := List.mem_flatMap.mp hdag
  have hlayer := Scope.mem_layers.mpr ⟨dag, hin, rfl⟩
  have hmatched := hseries.matched (List.Subset.refl _) task hpasses
  rcases List.mem_append.mp hscope with hhere | hcached
  · rcases List.mem_cons.mp hhere with rfl | haround
    · exact hmatched.work.scope _ hlayer
    · exact hmatched.around scope haround _ hlayer
  · exact hmatched.work.cache scope hcached _ hlayer

theorem coherent : task.Coherent openings := by
  have hdags := matched_dag hseries hpasses
  have hheld : ∀ {chain}, task.Holds chain → ∀ contents ∈ chain.flatMap Scope.layers,
      contents.Matched openings := by
    intro chain hchain contents hin
    obtain ⟨dag, hdag, rfl⟩ := hchain contents hin
    exact hdags dag hdag
  constructor
  case keys =>
    intro dag hdag
    obtain ⟨joint, hjoint⟩ := (hdags dag hdag).joined
    rw [hjoint.ids, hjoint.looks, OrderedMap.keys_map, OrderedMap.keys_map]
  case bound =>
    intro dag hdag name id look hid hlook
    rcases matched_get? (hdags dag hdag) name with ⟨hnone, -⟩ | ⟨_, _, hid', hlook', hbound⟩
    · cases hnone.symm.trans hid
    · cases hid'.symm.trans hid
      cases hlook'.symm.trans hlook
      exact hbound
  case records =>
    obtain ⟨setting, suspended, outer, work, job⟩ := task
    rintro nodes rfl
    have hwork := (hseries.matched (List.Subset.refl _) _ hpasses).work
    exact statements_record (hseries.real hpasses).brings hpasses hwork
  case finds => exact fun chain hchain path => lookUp_together (hheld hchain) path
  case resolves => exact fun scope outer hchain path => resolve_together (hheld hchain) path
  case arguments => exact fun path extent inflow hsupplies => hsupplies.answered hseries
  case edges =>
    intro dag hdag edge hedge
    obtain ⟨moment, arg, inflow, hsupplies, hcarries⟩ := (hdags dag hdag).drawn edge hedge
    refine ⟨moment, arg, inflow, hsupplies, hcarries, ?_⟩
    rintro path extent rfl
    exact hsupplies.answered hseries

end Moments

/-- At every moment that a series of texts passes, a variable and its style come from the same
binding. What a text is lowered to in the end is such a moment too. -/
theorem bound_together (hseries : Series openings) :
    (∀ task, Passes openings task → task.Coherent openings) ∧
      ∀ setting statements world, Task.opening setting [] statements world ∈ openings →
        Passes openings (.ending setting [] (lowerRecipe setting statements world)) := by
  constructor
  · exact fun task hpasses => coherent hseries hpasses
  · intro setting statements world hopening
    exact ⟨_, hopening, Task.leads_statements setting [] [] statements _⟩

/-- A scope binds a name anew without a style and uses another name of its surroundings. -/
def restyled : List Node :=
  [.assignment [.target "a" (some (.style ⟨[("color", "red")]⟩ [] none)) none]
    (some (.call "f" [] none none)) none,
   .assignment [.target "b" none none] (some (.variable ["a"] none)) none,
   .scope "n"
    [.assignment [.target "a" none none] (some (.call "g" [] none none)) none,
     .call "h" [.variable ["a"] none, .variable ["b"] none] none none]
    none [] none none none,
   .package "p" none none]

theorem bound_together_restyled :
    let setting : Setting :=
      ⟨tally, [], some (loadWithin tally (.ofStored ⟨[("p", .text "c = a = k()")]⟩) 2)⟩
    let openings := [Task.opening setting [] restyled {}]
    Series openings ∧ (∀ task, Passes openings task → task.Coherent openings) ∧
      ∀ setting statements world, Task.opening setting [] statements world ∈ openings →
        Passes openings (.ending setting [] (lowerRecipe setting statements world)) := by
  intro setting openings
  have hreal : setting.Real := by
    intro loader hloader
    exact ⟨_, _, _, (Option.some.inj hloader).symm⟩
  have hseries : Series openings := .opening .none .new hreal restyled
  exact ⟨hseries, bound_together hseries⟩

example :
    (lowerRecipe ⟨tally, [], none⟩ restyled {}).scope.all.map
        (·.contents.edges.values.map (·.look.properties.entries)) =
      [[], [[], [("color", "red")]]] := rfl

end RecipeGraph.Compile
