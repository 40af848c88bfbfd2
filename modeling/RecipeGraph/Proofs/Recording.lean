import RecipeGraph.Proofs.MatchedLowering

/-!
What statements record about variables. Going through the statements of a scope, only assignments
and packages without a name bring in variables. What they bring in is a list of bindings, and both
maps of the scope are written with the whole list in its order, one with the elements and the other
with the styles. Arguments and nested scopes write nothing there.
-/
namespace RecipeGraph

open RecipeGraph.Graph Recipe Package

/-- What is recorded at once when a variable is bound. -/
structure Binding where
  name : String
  id : String
  look : Option Look

/-- The variables of a scope with their elements and styles. -/
def Graph.Contents.variables (contents : Contents) : List Binding :=
  List.zipWith (fun entry style => ⟨entry.1, entry.2, style.2⟩) contents.variableIds.entries
    contents.variableLooks.entries

namespace Compile

/-- Both maps are written with the same bindings, in this order and with nothing else. -/
structure Work.Records (bindings : List Binding) (work after : Work) : Prop where
  ids : after.scope.contents.variableIds =
    bindings.foldl (fun ids binding => ids.insert binding.name binding.id)
      work.scope.contents.variableIds
  looks : after.scope.contents.variableLooks =
    bindings.foldl (fun looks binding => looks.insert binding.name binding.look)
      work.scope.contents.variableLooks

/-- The bindings of targets to an element, if there is one. -/
def bindingsFor (targets : List Node) (lookFor : Node → Option Look) :
    Option String → List Binding
  | none => []
  | some id => targets.map fun target => ⟨target.name, id, lookFor target⟩

section Bindings

variable (setting : Setting) (outer : List Scope)

/-- The bindings that a statement makes in its own scope. -/
def bindingsOf : Node → Work → List Binding
  | .assignment targets (some value) extent, work =>
      let prepared := prepareTargets outer targets extent work
      match value with
      | .variable path _ =>
          bindingsFor targets
            (fun target => (lookOf target.styling).or (prepared.variableLook? outer path))
            (prepared.elementOf? outer path)
      | value =>
          bindingsFor targets (fun target => lookOf target.styling)
            (lowerValue setting outer value prepared).1
  | .package location none extent, work =>
      match (bringIn setting location extent work).1 with
      | some package => package.contents.variables
      | none => []
  | _, _ => []

def bindingsOfAll : List Node → Work → List Binding
  | [], _ => []
  | node :: rest, work =>
      bindingsOf setting outer node work ++
        bindingsOfAll rest (lower setting outer node work)

end Bindings

namespace Work

variable {work middle after : Work} {setting : Setting} {outer : List Scope}

theorem Records.trans {first second : List Binding} (h : Records first work middle)
    (h' : Records second middle after) : Records (first ++ second) work after := by
  constructor
  · rw [List.foldl_append, ← h.ids]
    exact h'.ids
  · rw [List.foldl_append, ← h.looks]
    exact h'.looks

/-- What leaves the contents alone records nothing. -/
theorem records_nothing (h : after.scope.contents = work.scope.contents) :
    Records [] work after := by
  constructor <;> rw [h] <;> rfl

theorem records_quiet (h : Work.Quiet work after) : Records [] work after :=
  records_nothing (congrArg Scope.contents h.scope)

theorem records_adorn (work : Work) (adornment : Adornment) :
    Records [] work (work.update adornment.apply) := by
  obtain ⟨_, _, _, happly⟩ := adornment.apply_eq work.scope.contents
  constructor <;> (rw [scope_update, Scope.contents_mapContents, happly]; rfl)

theorem records_addInflows (work : Work) (target : String) (inflows : List Inflow) :
    Records [] work (work.addInflows setting target inflows) := by
  induction inflows generalizing work with
  | nil => exact records_nothing rfl
  | cons inflow rest ih =>
    have hedge : Records [] work (work.addInflow setting target inflow) := by
      constructor <;> (unfold addInflow; rw [scope_update, Scope.contents_mapContents]; rfl)
    exact hedge.trans (ih _)

theorem records_placeCall (work : Work) (name : String) (styling : Option Node) :
    Records [] work (placeCall setting outer name styling work) := by
  have hchecked := quiet_checkTags outer styling (work.freshId setting).2
  unfold placeCall
  constructor <;> (rw [scope_update, Scope.contents_mapContents, hchecked.scope]; rfl)

theorem records_targets (id : String) (lookFor : Node → Option Look) (targets : List Node)
    (work : Work) :
    Records (bindingsFor targets lookFor (some id)) work
      (targets.foldl (bindTarget id lookFor) work) := by
  induction targets generalizing work with
  | nil => exact records_nothing rfl
  | cons target rest ih =>
    have hbind : Records [⟨target.name, id, lookFor target⟩] work
        (work.bindTarget id lookFor target) := by
      constructor <;> (unfold bindTarget; rw [scope_update, Scope.contents_mapContents]; rfl)
    exact hbind.trans (ih _)

end Work

section Values

variable {setting : Setting} {outer : List Scope}

theorem arguments_record : Node.ArgumentCases
    (fun arg => ∀ work, Work.Records [] work (lowerArg setting outer arg work).2)
    (fun args => ∀ work, Work.Records [] work (lowerArgs setting outer args work).2) where
  call name args styling extent ih work := by
    rw [lowerArg_call]
    exact ((Work.records_placeCall work name styling).trans (ih _)).trans
      (Work.records_addInflows _ _ _)
  reference path extent work := by
    rw [lowerArg_variable]
    cases work.elementOf? outer path with
    | none => exact Work.records_nothing rfl
    | some id => exact Work.records_nothing rfl
  other node hnode work := by
    rw [lowerArg_other setting outer work hnode]
    exact Work.records_nothing rfl
  nil work := Work.records_nothing rfl
  cons arg rest hfirst hrest work := by
    rw [lowerArgs_cons]
    exact (hfirst work).trans (hrest _)

theorem feed_records (target : String) (args : List Node) (work : Work) :
    Work.Records [] work (feed setting outer target args work) :=
  (arguments_record.all args work).trans (Work.records_addInflows _ _ _)

theorem bringIn_records (location : String) (extent : Option Span) (work : Work) :
    Work.Records [] work (bringIn setting location extent work).2 := by
  have hnoted := Work.records_adorn work (.package location)
  generalize hbrought : bringIn setting location extent work = brought
  cases brought_of_eq hbrought with
  | unsupplied | failed | arrived => exact ⟨hnoted.ids, hnoted.looks⟩

theorem attachPackage_records (location : String) (label : Option String) (extent : Option Span)
    (work : Work) :
    Work.Records [] work (attachPackage setting location label extent work).2 := by
  have hbrought : Work.Records [] work (bringIn setting location extent work).2 :=
    bringIn_records location extent work
  rcases hbring : bringIn setting location extent work with ⟨_ | package, after⟩ <;>
    rw [hbring] at hbrought
  · rw [attachPackage_absent hbring]
    exact hbrought
  · rw [attachPackage_present hbring]
    exact ⟨hbrought.ids, hbrought.looks⟩

/-- What is made on the right of an assignment is no variable yet. -/
theorem value_records (value : Node) (work : Work) :
    Work.Records [] work (lowerValue setting outer value work).2 := by
  cases value with
  | call name args styling extent =>
    rw [lowerValue_call]
    exact (Work.records_placeCall work name styling).trans (feed_records _ args _)
  | scope name body bodyExtent args argsExtent styling extent =>
    have hleft : Work.Records [] work
        { lowerInside setting outer name body styling work with
          scope := work.scope.attach (lowerInside setting outer name body styling work).scope } :=
      Work.records_nothing rfl
    exact hleft.trans (feed_records _ args _)
  | package location label extent => exact attachPackage_records location label extent work
  | _ => exact Work.records_nothing rfl

end Values

section Statements

variable {openings : List Task} {setting : Setting} {suspended outer : List Scope} {work : Work}

theorem records_merge {other : Scope} (hother : other.Matched openings) (work : Work) :
    Work.Records other.contents.variables work { work with scope := work.scope.merge other } := by
  obtain ⟨joint, hjoint⟩ := hother.own.joined
  have hvariables : other.contents.variables =
      joint.entries.map fun entry => ⟨entry.1, entry.2.1, entry.2.2⟩ := by
    unfold Contents.variables
    rw [hjoint.ids, hjoint.looks]
    unfold OrderedMap.map
    rw [List.zipWith_map, List.zipWith_self]
  rw [hvariables]
  constructor
  · rw [Scope.contents_merge, Contents.variableIds_merge, hjoint.ids, List.foldl_map]
    exact List.foldl_map
  · rw [Scope.contents_merge, Contents.variableLooks_merge, hjoint.looks, List.foldl_map]
    exact List.foldl_map

theorem bindingsOf_assigned (targets : List Node) {value : Node} (extent : Option Span)
    (h : value.isVariable = false) (work : Work) :
    bindingsOf setting outer (.assignment targets (some value) extent) work =
      bindingsFor targets (fun target => lookOf target.styling)
        (lowerValue setting outer value (prepareTargets outer targets extent work)).1 := by
  cases value with
  | «variable» => cases h
  | _ => rfl

theorem alias_records (targets : List Node) (path : Path) (place extent : Option Span)
    (work : Work) :
    Work.Records
      (bindingsOf setting outer (.assignment targets (some (.variable path place)) extent) work)
      work (lowerAlias outer targets path place (prepareTargets outer targets extent work)) := by
  have hready := Work.records_quiet (quiet_prepareTargets outer targets extent work)
  refine hready.trans ?_
  unfold lowerAlias
  dsimp only
  cases (prepareTargets outer targets extent work).elementOf? outer path with
  | none => exact Work.records_nothing rfl
  | some id => exact Work.records_targets id _ targets _

theorem assigned_records (targets : List Node) {value : Node} (extent : Option Span)
    (h : value.isVariable = false) (work : Work) :
    Work.Records (bindingsOf setting outer (.assignment targets (some value) extent) work) work
      (lower setting outer (.assignment targets (some value) extent) work) := by
  have hready := Work.records_quiet (quiet_prepareTargets outer targets extent work)
  have hvalue : Work.Records [] (prepareTargets outer targets extent work)
      (lowerValue setting outer value (prepareTargets outer targets extent work)).2 :=
    value_records value _
  rw [bindingsOf_assigned targets extent h, lower_assigned setting outer work targets extent h]
  refine (hready.trans hvalue).trans ?_
  dsimp only
  cases (lowerValue setting outer value (prepareTargets outer targets extent work)).1 with
  | none => exact Work.records_nothing rfl
  | some id => exact Work.records_targets id _ targets _

theorem statement_records (hbrings : BringsMatched openings setting) {node : Node}
    {rest : List Node}
    (hpasses : Passes openings ⟨setting, suspended, outer, work, .statements (node :: rest)⟩)
    (h : work.Matched openings) :
    Work.Records (bindingsOf setting outer node work) work (lower setting outer node work) := by
  cases node with
  | call name args styling extent =>
    rw [lower_call]
    exact value_records _ work
  | scope name body bodyExtent args argsExtent styling extent =>
    rw [lower_scope]
    exact value_records _ work
  | «variable» path extent =>
    rw [lower_variable]
    exact Work.records_nothing rfl
  | assignment targets value extent =>
    cases value with
    | none =>
      rw [lower_incomplete]
      exact (Work.records_quiet (Work.quiet_checkLeft targets extent work)).trans
        (Work.records_nothing rfl)
    | some value =>
      rcases Node.eq_variable_or value with ⟨path, place, rfl⟩ | hvalue
      · rw [lower_synonym]
        exact alias_records targets path place extent work
      · exact assigned_records targets extent hvalue work
  | package location label extent =>
    rw [lower_package]
    cases label with
    | some name => exact attachPackage_records location (some name) extent work
    | none =>
      obtain ⟨-, hpackage⟩ := bringIn_matched hbrings (hpasses.step (.bare rfl)) h
      have hbrought : Work.Records [] work (bringIn setting location extent work).2 :=
        bringIn_records location extent work
      unfold bindingsOf
      dsimp only
      rcases hbring : bringIn setting location extent work with ⟨_ | package, after⟩ <;>
        rw [hbring] at hpackage hbrought
      · rw [lowerPackage_absent hbring]
        exact hbrought
      · rw [lowerPackage_present hbring]
        exact hbrought.trans (records_merge (hpackage package rfl) after)
  | namedStyle name style extent =>
    rw [lower_namedStyle]
    exact (Work.records_quiet (Work.quiet_flatten outer style work)).trans
      (Work.records_adorn _ (.style name _))
  | styleBinding keyword tags extent =>
    rw [lower_styleBinding]
    exact Work.records_adorn work (.binding keyword _)
  | _ => exact Work.records_nothing rfl

theorem statements_record (hbrings : BringsMatched openings setting) {nodes : List Node}
    (hpasses : Passes openings ⟨setting, suspended, outer, work, .statements nodes⟩)
    (h : work.Matched openings) :
    Work.Records (bindingsOfAll setting outer nodes work) work
      (lowerAll setting outer nodes work) := by
  induction nodes generalizing work with
  | nil =>
    rw [lowerAll]
    exact Work.records_nothing rfl
  | cons node rest ih =>
    rw [lowerAll]
    have hnode := statement_records hbrings hpasses h
    exact hnode.trans
      (ih (hpasses.step .next) ((statements_matched hbrings).one node hpasses h))

end Statements

end Compile

end RecipeGraph
