import RecipeGraph.Proofs.Inclusion
import RecipeGraph.Proofs.Upkeep

/-!
The same statements lowered twice, side by side. The scopes may differ in what no path shows, and
the worlds in what makes no difference to the packages that come. Then the same is done and the
same is reported on both sides, however deep the scopes and packages nest.
-/
namespace RecipeGraph

open RecipeGraph.Graph Recipe Package

namespace Graph.Scope

/-- Looking up does not depend on which packages are noted. -/
def Unaware {α : Type} (member : Contents → OrderedMap α) : Prop :=
  ∀ (contents : Contents) packages, member { contents with packages := packages } = member contents

/-- Differences that outlast whatever is done to both scopes alike, and that no path shows. -/
structure Harmless (differ : Scope → Scope → Prop) : Prop where
  same : ∀ scope, differ scope scope
  id : ∀ {scope scope'}, differ scope scope' → scope'.id = scope.id
  below : ∀ {scope scope'}, differ scope scope' → ∀ {α : Type} {member : Contents → OrderedMap α},
    Unaware member → ∀ path, scope'.findBelow member path = scope.findBelow member path
  edit : ∀ {scope scope'}, differ scope scope' → ∀ edit : Edit,
    differ (scope.mapContents edit.apply) (scope'.mapContents edit.apply)
  note : ∀ {scope scope'}, differ scope scope' → ∀ location,
    differ (scope.mapContents (·.addPackage location)) (scope'.mapContents (·.addPackage location))
  attach : ∀ {scope scope' child child'}, differ scope scope' → differ child child' →
    differ (scope.attach child) (scope'.attach child')
  merge : ∀ {scope scope'}, differ scope scope' → ∀ other,
    differ (scope.merge other) (scope'.merge other)

theorem harmless_eq : Harmless Eq where
  same _ := rfl
  id h := by rw [h]
  below h _ _ _ _ := by rw [h]
  edit h _ := by rw [h]
  note h _ := by rw [h]
  attach h h' := by rw [h, h']
  merge h _ := by rw [h]

/-- Nor does a path show the differences between the scopes around. -/
theorem Harmless.resolve {differ : Scope → Scope → Prop} (h : Harmless differ) {α : Type}
    {member : Contents → OrderedMap α} (hunaware : Unaware member) (path : Path)
    {scope scope' : Scope} (hscope : differ scope scope') {outer outer' : List Scope}
    (houter : List.Forall₂ differ outer outer') :
    scope'.resolve member outer' path = scope.resolve member outer path := by
  unfold Scope.resolve
  generalize ([] : List String) = seen
  induction houter generalizing scope scope' seen with
  | nil =>
    unfold resolveFrom
    rw [h.id hscope, h.below hscope hunaware]
  | cons hfirst _ ih =>
    unfold resolveFrom
    dsimp only
    rw [h.id hscope, h.below hscope hunaware, ih (h.attach hfirst hscope)]

end Graph.Scope

namespace Compile

/-- Two sides of which the second was reported other things than the first before. -/
structure Tandem where
  setting : Setting
  /-- What is known of both worlds. -/
  agree : World → World → Prop
  /-- In what the scopes differ. -/
  differ : Scope → Scope → Prop
  ahead : List Diagnostic
  ahead' : List Diagnostic

namespace Tandem

structure Lawful (tandem : Tandem) : Prop where
  issued : ∀ {world world'}, tandem.agree world world' → world'.issued = world.issued
  issue : ∀ {world world'}, tandem.agree world world' →
    tandem.agree (issueNext world) (issueNext world')
  /-- The same package comes on both sides, or the same fault. -/
  load : ∀ loader, tandem.setting.loader = some loader →
    ∀ {world world'}, tandem.agree world world' → ∀ location, ∃ result after after',
      loader location tandem.setting.chain world = (result, after) ∧
        loader location tandem.setting.chain world' = (result, after') ∧
        tandem.agree after after'
  harmless : Scope.Harmless tandem.differ

theorem Lawful.same_around {tandem : Tandem} (h : tandem.Lawful) (outer : List Scope) :
    List.Forall₂ tandem.differ outer outer :=
  List.forall₂_same.mpr fun scope _ => h.harmless.same scope

/-- The two sides at the same statement. -/
structure Abreast (tandem : Tandem) (work work' : Work) : Prop where
  world : tandem.agree work.world work'.world
  scope : tandem.differ work.scope work'.scope
  reports : ∃ since, work.diagnostics = tandem.ahead ++ since ∧
    work'.diagnostics = tandem.ahead' ++ since

/-- The same came of something on both sides. -/
structure Same {α : Type} (tandem : Tandem) (result result' : α × Work) : Prop where
  value : result'.1 = result.1
  abreast : tandem.Abreast result.2 result'.2

theorem Same.map {α β : Type} {tandem : Tandem} {result result' : α × Work}
    (h : tandem.Same result result') (f : α → β) :
    tandem.Same (f result.1, result.2) (f result'.1, result'.2) :=
  ⟨congrArg f h.value, h.abreast⟩

theorem Same.foldl {α β : Type} {tandem : Tandem} {state state' : β × Work}
    (h : tandem.Same state state') {step step' : β × Work → α → β × Work}
    (hstep : ∀ item state state', tandem.Same state state' →
      tandem.Same (step state item) (step' state' item)) (items : List α) :
    tandem.Same (items.foldl step state) (items.foldl step' state') :=
  List.foldl_rel h fun item _ => hstep item

variable {tandem : Tandem} (hlawful : tandem.Lawful) {outer outer' : List Scope}
  (houter : List.Forall₂ tandem.differ outer outer') {work work' : Work}
  (h : tandem.Abreast work work')

section Steps

include h

theorem Abreast.report (extent : Span) (problem : Problem) :
    tandem.Abreast (work.report extent problem) (work'.report extent problem) := by
  obtain ⟨since, hreports, hreports'⟩ := h.reports
  refine ⟨h.world, h.scope, since ++ [⟨extent, problem⟩], ?_, ?_⟩
  · rw [← List.append_assoc, ← hreports]
    rfl
  · rw [← List.append_assoc, ← hreports']
    rfl

theorem Abreast.foldl {α : Type} {step step' : Work → α → Work}
    (hstep : ∀ item work work', tandem.Abreast work work' →
      tandem.Abreast (step work item) (step' work' item)) (items : List α) :
    tandem.Abreast (items.foldl step work) (items.foldl step' work') :=
  List.foldl_rel h fun item _ => hstep item

include hlawful

theorem Abreast.edit (edit : Edit) :
    tandem.Abreast (work.update edit.apply) (work'.update edit.apply) :=
  ⟨h.world, hlawful.harmless.edit h.scope edit, h.reports⟩

theorem Abreast.freshId :
    tandem.Same (work.freshId tandem.setting) (work'.freshId tandem.setting) := by
  refine ⟨?_, hlawful.issue h.world, h.scope, h.reports⟩
  unfold Work.freshId
  rw [hlawful.issued h.world]

theorem Abreast.addInflows (target : String) (inflows : List Inflow) :
    tandem.Abreast (work.addInflows tandem.setting target inflows)
      (work'.addInflows tandem.setting target inflows) := by
  refine h.foldl (fun inflow work work' h => ?_) inflows
  obtain ⟨hid, hissued⟩ := h.freshId hlawful
  unfold Work.addInflow
  dsimp only
  rw [hid]
  exact hissued.edit hlawful (.edge _)

theorem Abreast.bindAll (id : String) (look : Node → Option Look) (targets : List Node) :
    tandem.Abreast (targets.foldl (Work.bindTarget id look) work)
      (targets.foldl (Work.bindTarget id look) work') :=
  h.foldl (fun target _ _ h => h.edit hlawful (.bind target.name id (look target))) targets

theorem Abreast.leave {around around' : Scope} (haround : tandem.differ around around') :
    tandem.Abreast { work with scope := around.attach work.scope }
      { work' with scope := around'.attach work'.scope } :=
  ⟨h.world, hlawful.harmless.attach haround h.scope, h.reports⟩

include houter

theorem Abreast.elementOf? (path : Path) :
    work'.elementOf? outer' path = work.elementOf? outer path := by
  unfold Work.elementOf?
  rw [hlawful.harmless.resolve (fun _ _ => rfl) path h.scope houter]

theorem Abreast.variableLook? (path : Path) :
    work'.variableLook? outer' path = work.variableLook? outer path := by
  unfold Work.variableLook?
  rw [hlawful.harmless.resolve (fun _ _ => rfl) path h.scope houter]

theorem Abreast.style? (path : Path) : work'.style? outer' path = work.style? outer path :=
  hlawful.harmless.resolve (fun _ _ => rfl) path h.scope houter

theorem Abreast.checkTags (styling : Option Node) :
    tandem.Abreast (work.checkTags outer styling) (work'.checkTags outer' styling) := by
  cases styling with
  | none => exact h
  | some style =>
    refine h.foldl (fun tag work work' h => ?_) style.tags
    unfold Work.checkTag
    rw [h.style? hlawful houter]
    split
    · exact h
    · exact h.report _ _

theorem Abreast.prepareTargets (targets : List Node) (extent : Option Span) :
    tandem.Abreast (prepareTargets outer targets extent work)
      (prepareTargets outer' targets extent work') := by
  have hleft : tandem.Abreast (checkLeft targets extent work) (checkLeft targets extent work') := by
    unfold checkLeft
    split
    · exact h.report _ _
    · exact h
  exact hleft.foldl (fun target _ _ h => h.checkTags hlawful houter target.styling) targets

theorem Abreast.placeCall (name : String) (styling : Option Node) :
    tandem.Abreast (placeCall tandem.setting outer name styling work)
      (placeCall tandem.setting outer' name styling work') := by
  have hchecked := (h.freshId hlawful).abreast.checkTags hlawful houter styling
  unfold Compile.placeCall
  rw [hlawful.issued h.world]
  exact hchecked.edit hlawful (.vertex _)

theorem Abreast.enter (given : Option String) (name : String) (styling : Option Node) :
    tandem.Abreast (enter tandem.setting outer given name styling work)
      (enter tandem.setting outer' given name styling work') := by
  have hopened : ∀ {begun begun' : Work}, tandem.Abreast begun begun' → ∀ scope : Scope,
      tandem.Abreast (Work.checkTags outer styling { begun with scope := scope })
        (Work.checkTags outer' styling { begun' with scope := scope }) := by
    intro begun begun' hbegun scope
    have hnew : tandem.Abreast { begun with scope := scope } { begun' with scope := scope } :=
      ⟨hbegun.world, hlawful.harmless.same scope, hbegun.reports⟩
    exact hnew.checkTags hlawful houter styling
  unfold Compile.enter
  cases given.filter (· ≠ "") with
  | some id => exact hopened h _
  | none =>
    obtain ⟨hid, hissued⟩ := h.freshId hlawful
    dsimp only
    rw [hid]
    exact hopened hissued _

theorem Abreast.flatten (style : Node) :
    tandem.Same (flatten outer style work) (flatten outer' style work') := by
  unfold Compile.flatten
  have hbegun : tandem.Same (({} : Properties), work) ({}, work') := ⟨rfl, h⟩
  refine (hbegun.foldl ?_ style.tags).map (·.merge style.properties)
  intro tag state state' hstate
  rw [hstate.abreast.style? hlawful houter, hstate.value]
  cases state.2.style? outer tag.path with
  | some referred => exact ⟨rfl, hstate.abreast⟩
  | none => exact ⟨rfl, hstate.abreast.report _ _⟩

theorem Abreast.namedStyle (name : String) (style : Node) :
    tandem.Abreast (lowerNamedStyle outer name style work)
      (lowerNamedStyle outer' name style work') := by
  obtain ⟨hproperties, hflat⟩ := h.flatten hlawful houter style
  unfold lowerNamedStyle
  dsimp only
  rw [hproperties]
  exact hflat.edit hlawful (.style name _)

theorem Abreast.synonym (targets : List Node) (path : Path) (extent : Option Span) :
    tandem.Abreast (lowerAlias outer targets path extent work)
      (lowerAlias outer' targets path extent work') := by
  unfold lowerAlias
  rw [h.elementOf? hlawful houter]
  cases work.elementOf? outer path with
  | none => exact h.report _ _
  | some id =>
    dsimp only
    rw [h.variableLook? hlawful houter]
    exact h.bindAll hlawful id _ targets

end Steps

section Elements

include hlawful houter

theorem arguments :
    Node.ArgumentCases
      (fun arg => ∀ {work work'}, tandem.Abreast work work' →
        tandem.Same (lowerArg tandem.setting outer arg work)
          (lowerArg tandem.setting outer' arg work'))
      (fun args => ∀ {work work'}, tandem.Abreast work work' →
        tandem.Same (lowerArgs tandem.setting outer args work)
          (lowerArgs tandem.setting outer' args work')) where
  call name args styling extent ih work work' h := by
    obtain ⟨hinflows, hfed⟩ := ih (h.placeCall hlawful houter name styling)
    rw [lowerArg_call, lowerArg_call, hlawful.issued h.world]
    unfold feed
    rw [hinflows]
    exact ⟨rfl, hfed.addInflows hlawful _ _⟩
  reference path extent work work' h := by
    rw [lowerArg_variable, lowerArg_variable, h.elementOf? hlawful houter,
      h.variableLook? hlawful houter]
    cases work.elementOf? outer path with
    | none => exact ⟨rfl, h.report _ _⟩
    | some id => exact ⟨rfl, h⟩
  other node hnode work work' h := by
    rw [lowerArg_other _ _ _ hnode, lowerArg_other _ _ _ hnode]
    exact ⟨rfl, h.report _ _⟩
  nil h := ⟨rfl, h⟩
  cons arg rest hfirst hrest work work' h := by
    obtain ⟨hinflow, hone⟩ := hfirst h
    obtain ⟨hinflows, hothers⟩ := hrest hone
    rw [lowerArgs_cons, lowerArgs_cons, hinflow, hinflows]
    exact ⟨rfl, hothers⟩

theorem Abreast.feed (h : tandem.Abreast work work') (target : String) (args : List Node) :
    tandem.Abreast (feed tandem.setting outer target args work)
      (feed tandem.setting outer' target args work') := by
  obtain ⟨hinflows, hfed⟩ := (arguments hlawful houter).all args h
  unfold Compile.feed
  rw [hinflows]
  exact hfed.addInflows hlawful target _

omit houter in
theorem Same.bindTargets {result result' : Option String × Work} (h : tandem.Same result result')
    (targets : List Node) :
    tandem.Abreast (bindTargets targets result.1 result.2)
      (bindTargets targets result'.1 result'.2) := by
  rw [h.value]
  cases result.1 with
  | none => exact h.abreast
  | some id => exact h.abreast.bindAll hlawful id _ targets

end Elements

section Packages

include hlawful h

theorem Abreast.bringIn (location : String) (extent : Option Span) :
    tandem.Same (bringIn tandem.setting location extent work)
      (bringIn tandem.setting location extent work') := by
  have hnoted : tandem.Abreast (work.update (·.addPackage location))
      (work'.update (·.addPackage location)) :=
    ⟨h.world, hlawful.harmless.note h.scope location, h.reports⟩
  cases hloader : tandem.setting.loader with
  | none =>
    rw [bringIn_unsupplied hloader, bringIn_unsupplied hloader]
    exact ⟨rfl, hnoted.report _ _⟩
  | some loader =>
    obtain ⟨result, world, world', hload, hload', hagree⟩ :=
      hlawful.load loader hloader h.world location
    have hloaded : tandem.Abreast
        { work.update (·.addPackage location) with world := world }
        { work'.update (·.addPackage location) with world := world' } :=
      ⟨hagree, hnoted.scope, hnoted.reports⟩
    cases result with
    | ok package =>
      rw [bringIn_arrived hloader hload, bringIn_arrived hloader hload']
      exact ⟨rfl, hloaded⟩
    | error fault =>
      rw [bringIn_failed hloader hload, bringIn_failed hloader hload']
      exact ⟨rfl, hloaded.report _ _⟩

theorem Abreast.attachPackage (location : String) (label : Option String)
    (extent : Option Span) :
    tandem.Same (attachPackage tandem.setting location label extent work)
      (attachPackage tandem.setting location label extent work') := by
  obtain ⟨hpackage, hbrought⟩ := h.bringIn hlawful location extent
  rcases hbring : Compile.bringIn tandem.setting location extent work with ⟨package, after⟩
  rcases hbring' : Compile.bringIn tandem.setting location extent work' with ⟨package', after'⟩
  rw [hbring, hbring'] at hpackage hbrought
  obtain rfl : package' = package := hpackage
  cases package' with
  | none =>
    rw [attachPackage_absent hbring, attachPackage_absent hbring']
    exact ⟨rfl, hbrought⟩
  | some package =>
    obtain ⟨hid, hissued⟩ := hbrought.freshId hlawful
    have hsame : tandem.setting.idOf after'.world.issued =
        tandem.setting.idOf after.world.issued := hid
    rw [attachPackage_present hbring, attachPackage_present hbring', hsame]
    exact ⟨rfl, hissued.world, hlawful.harmless.attach hissued.scope (hlawful.harmless.same _),
      hissued.reports⟩

theorem Abreast.package (location : String) (label : Option String) (extent : Option Span) :
    tandem.Abreast (lowerPackage tandem.setting location label extent work)
      (lowerPackage tandem.setting location label extent work') := by
  cases label with
  | some name => exact (h.attachPackage hlawful location (some name) extent).abreast
  | none =>
    obtain ⟨hpackage, hbrought⟩ := h.bringIn hlawful location extent
    rcases hbring : Compile.bringIn tandem.setting location extent work with ⟨package, after⟩
    rcases hbring' : Compile.bringIn tandem.setting location extent work' with
      ⟨package', after'⟩
    rw [hbring, hbring'] at hpackage hbrought
    obtain rfl : package' = package := hpackage
    cases package' with
    | none =>
      rw [lowerPackage_absent hbring, lowerPackage_absent hbring']
      exact hbrought
    | some package =>
      rw [lowerPackage_present hbring, lowerPackage_present hbring']
      exact ⟨hbrought.world, hlawful.harmless.merge hbrought.scope package, hbrought.reports⟩

end Packages

include hlawful in
/-- Before the first statement nothing was reported on either side. -/
theorem abreast_opening {world world' : World} (h : tandem.agree world world')
    (hahead : tandem.ahead = []) (hahead' : tandem.ahead' = []) :
    tandem.Abreast (opening tandem.setting world) (opening tandem.setting world') := by
  refine ⟨hlawful.issue h, ?_, [], ?_, ?_⟩
  · unfold opening
    rw [hlawful.issued h]
    exact hlawful.harmless.same _
  · rw [hahead]
    rfl
  · rw [hahead']
    rfl

/-- By induction over statements, where the scopes around the two sides differ as well. -/
theorem statements (hlawful : tandem.Lawful) :
    Node.StatementCases
      (fun value => ∀ {outer outer' work work'}, List.Forall₂ tandem.differ outer outer' →
        tandem.Abreast work work' → tandem.Same (lowerValue tandem.setting outer value work)
          (lowerValue tandem.setting outer' value work'))
      (fun node => ∀ {outer outer' work work'}, List.Forall₂ tandem.differ outer outer' →
        tandem.Abreast work work' → tandem.Abreast (lower tandem.setting outer node work)
          (lower tandem.setting outer' node work'))
      (fun nodes => ∀ {outer outer' work work'}, List.Forall₂ tandem.differ outer outer' →
        tandem.Abreast work work' → tandem.Abreast (lowerAll tandem.setting outer nodes work)
          (lowerAll tandem.setting outer' nodes work')) where
  call name args styling extent outer outer' work work' houter h := by
    obtain ⟨hvalue, hcall⟩ := (arguments hlawful houter).one (.call name args styling extent) h
    exact ⟨congrArg (Option.map Inflow.source) hvalue, hcall⟩
  scope name body _ args _ styling _ hbody outer outer' work work' houter h := by
    have hentered := (h.freshId hlawful).abreast.enter hlawful (.cons h.scope houter)
      (some (tandem.setting.idOf work.world.issued)) name styling
    have hinside := (hbody (.cons h.scope houter) hentered).leave hlawful h.scope
    rw [lowerValue_scope, lowerValue_scope]
    unfold lowerNested lowerInside
    rw [hlawful.issued h.world]
    exact ⟨rfl, hinside.feed hlawful houter _ args⟩
  package location label extent outer outer' work work' _ h :=
    h.attachPackage hlawful location label extent
  unbuilt node hnode outer outer' work work' _ h := by
    rw [lowerValue_unbuilt _ _ _ hnode, lowerValue_unbuilt _ _ _ hnode]
    exact ⟨rfl, h.report _ _⟩
  bareCall name args styling extent hvalue outer outer' work work' houter h :=
    (hvalue houter h).abreast
  bareScope name body bodyExtent args argsExtent styling extent hvalue outer outer' work work'
      houter h :=
    (hvalue houter h).abreast
  barePackage location label extent outer outer' work work' _ h :=
    h.package hlawful location label extent
  reference path extent outer outer' work work' _ h := by
    rw [lower_variable, lower_variable]
    exact h
  incomplete targets extent outer outer' work work' _ h := by
    rw [lower_incomplete, lower_incomplete]
    unfold checkLeft
    split
    · exact (h.report _ _).report _ _
    · exact h.report _ _
  synonym targets path place extent outer outer' work work' houter h := by
    rw [lower_synonym, lower_synonym]
    exact (h.prepareTargets hlawful houter targets extent).synonym hlawful houter targets path place
  assigned targets value extent hvariable hvalue outer outer' work work' houter h := by
    rw [lower_assigned _ _ _ _ _ hvariable, lower_assigned _ _ _ _ _ hvariable]
    exact (hvalue houter (h.prepareTargets hlawful houter targets extent)).bindTargets hlawful
      targets
  namedStyle name style extent outer outer' work work' houter h := by
    rw [lower_namedStyle, lower_namedStyle]
    exact h.namedStyle hlawful houter name style
  styleBinding keyword tags extent outer outer' work work' _ h := by
    rw [lower_styleBinding, lower_styleBinding]
    exact h.edit hlawful (.binding keyword _)
  other node hnode outer outer' work work' _ h := by
    rw [lower_other _ _ _ hnode, lower_other _ _ _ hnode]
    exact h.report _ _
  nil _ h := by
    rw [lowerAll, lowerAll]
    exact h
  cons node rest hnode hrest outer outer' work work' houter h := by
    rw [lowerAll, lowerAll]
    exact hrest houter (hnode houter h)

end Tandem

end Compile

end RecipeGraph
