import RecipeGraph.Compile.Lower
import RecipeGraph.Proofs.Lookup

/-!
The cases of lowering. An argument is a call, a variable or nothing that flows; a value is a
call, a nested scope, a package or nothing that can be bound; a statement is made of these. Each
case has one equation, and the induction over nodes that follows the cases is stated once. A
package that is asked for comes or does not, or there is nobody to ask.
-/
namespace RecipeGraph

open RecipeGraph.Graph Recipe

/-- Problems with what a variable refers to. -/
def Problem.concernsVariable : Problem → Bool
  | undefinedVariable _ | undefinedAliasTarget .. => true
  | _ => false

namespace Recipe.Node

/-- What can flow into an element. -/
def isArgument : Node → Bool
  | call .. | .variable .. => true
  | _ => false

/-- What makes a new element on the right of an assignment. -/
def isBuilt : Node → Bool
  | call .. | scope .. | package .. => true
  | _ => false

def isVariable : Node → Bool
  | .variable .. => true
  | _ => false

def isStatement : Node → Bool
  | call .. | .variable .. | assignment .. | scope .. | package .. | namedStyle .. |
    styleBinding .. => true
  | _ => false

theorem eq_variable_or (node : Node) :
    (∃ path extent, node = .variable path extent) ∨ node.isVariable = false := by
  cases node with
  | «variable» path extent => exact Or.inl ⟨path, extent, rfl⟩
  | _ => exact Or.inr rfl

/-- What has to be shown for a property of all arguments, and of all lists of them. -/
structure ArgumentCases (P : Node → Prop) (Q : List Node → Prop) : Prop where
  call : ∀ name args styling extent, Q args → P (.call name args styling extent)
  reference : ∀ path extent, P (.variable path extent)
  other : ∀ node, node.isArgument = false → P node
  nil : Q []
  cons : ∀ node rest, P node → Q rest → Q (node :: rest)

namespace ArgumentCases

variable {P : Node → Prop} {Q : List Node → Prop}

mutual

theorem one (h : ArgumentCases P Q) : ∀ node, P node
  | .call name args styling extent => h.call name args styling extent (h.all args)
  | .variable path extent => h.reference path extent
  | .assignment .. => h.other _ rfl
  | .scope .. => h.other _ rfl
  | .package .. => h.other _ rfl
  | .namedStyle .. => h.other _ rfl
  | .styleBinding .. => h.other _ rfl
  | .target .. => h.other _ rfl
  | .style .. => h.other _ rfl
  | .styleTag .. => h.other _ rfl
  | .valueList .. => h.other _ rfl
  | .statementList .. => h.other _ rfl
  | .recipe .. => h.other _ rfl

theorem all (h : ArgumentCases P Q) : ∀ nodes, Q nodes
  | [] => h.nil
  | node :: rest => h.cons node rest (h.one node) (h.all rest)

end

end ArgumentCases

/-- What has to be shown for a property of all values, of all statements and of all lists of
statements. -/
structure StatementCases (V P : Node → Prop) (Q : List Node → Prop) : Prop where
  call : ∀ name args styling extent, V (.call name args styling extent)
  scope : ∀ name body bodyExtent args argsExtent styling extent, Q body →
    V (.scope name body bodyExtent args argsExtent styling extent)
  package : ∀ location label extent, V (.package location label extent)
  unbuilt : ∀ node, node.isBuilt = false → V node
  bareCall : ∀ name args styling extent, V (.call name args styling extent) →
    P (.call name args styling extent)
  bareScope : ∀ name body bodyExtent args argsExtent styling extent,
    V (.scope name body bodyExtent args argsExtent styling extent) →
    P (.scope name body bodyExtent args argsExtent styling extent)
  barePackage : ∀ location label extent, P (.package location label extent)
  reference : ∀ path extent, P (.variable path extent)
  incomplete : ∀ targets extent, P (.assignment targets none extent)
  synonym : ∀ targets path place extent,
    P (.assignment targets (some (.variable path place)) extent)
  assigned : ∀ targets value extent, value.isVariable = false → V value →
    P (.assignment targets (some value) extent)
  namedStyle : ∀ name style extent, P (.namedStyle name style extent)
  styleBinding : ∀ keyword tags extent, P (.styleBinding keyword tags extent)
  other : ∀ node, node.isStatement = false → P node
  nil : Q []
  cons : ∀ node rest, P node → Q rest → Q (node :: rest)

namespace StatementCases

variable {V P : Node → Prop} {Q : List Node → Prop}

mutual

theorem value (h : StatementCases V P Q) : ∀ node, V node
  | .call name args styling extent => h.call name args styling extent
  | .scope name body bodyExtent args argsExtent styling extent =>
      h.scope name body bodyExtent args argsExtent styling extent (h.all body)
  | .package location label extent => h.package location label extent
  | .variable .. => h.unbuilt _ rfl
  | .assignment .. => h.unbuilt _ rfl
  | .namedStyle .. => h.unbuilt _ rfl
  | .styleBinding .. => h.unbuilt _ rfl
  | .target .. => h.unbuilt _ rfl
  | .style .. => h.unbuilt _ rfl
  | .styleTag .. => h.unbuilt _ rfl
  | .valueList .. => h.unbuilt _ rfl
  | .statementList .. => h.unbuilt _ rfl
  | .recipe .. => h.unbuilt _ rfl

theorem one (h : StatementCases V P Q) : ∀ node, P node
  | .call name args styling extent =>
      h.bareCall name args styling extent (h.call name args styling extent)
  | .scope name body bodyExtent args argsExtent styling extent =>
      h.bareScope name body bodyExtent args argsExtent styling extent
        (h.scope name body bodyExtent args argsExtent styling extent (h.all body))
  | .package location label extent => h.barePackage location label extent
  | .variable path extent => h.reference path extent
  | .assignment targets none extent => h.incomplete targets extent
  | .assignment targets (some value) extent =>
      (eq_variable_or value).elim
        (fun ⟨path, place, heq⟩ => heq ▸ h.synonym targets path place extent)
        (fun hvalue => h.assigned targets value extent hvalue (h.value value))
  | .namedStyle name styling extent => h.namedStyle name styling extent
  | .styleBinding keyword tags extent => h.styleBinding keyword tags extent
  | .target .. => h.other _ rfl
  | .style .. => h.other _ rfl
  | .styleTag .. => h.other _ rfl
  | .valueList .. => h.other _ rfl
  | .statementList .. => h.other _ rfl
  | .recipe .. => h.other _ rfl

theorem all (h : StatementCases V P Q) : ∀ nodes, Q nodes
  | [] => h.nil
  | node :: rest => h.cons node rest (h.one node) (h.all rest)

end

end StatementCases

end Recipe.Node

namespace Compile

namespace Work

/-- What is wrong with references to variables. -/
def missing (work : Work) : List Diagnostic :=
  work.diagnostics.filter fun diagnostic => diagnostic.problem.concernsVariable

/-- Nothing but remarks on other things than variables. -/
structure Quiet (work after : Work) : Prop where
  world : after.world = work.world
  scope : after.scope = work.scope
  missing : after.missing = work.missing
  kept : work.diagnostics <+: after.diagnostics

section Quiet

variable {work middle after : Work}

theorem Quiet.refl (work : Work) : Quiet work work :=
  ⟨rfl, rfl, rfl, List.prefix_refl work.diagnostics⟩

theorem Quiet.trans (h : Quiet work middle) (h' : Quiet middle after) : Quiet work after :=
  ⟨h'.world.trans h.world, h'.scope.trans h.scope, h'.missing.trans h.missing,
   h.kept.trans h'.kept⟩

theorem missing_report (work : Work) (extent : Span) {problem : Problem}
    (h : problem.concernsVariable = true) :
    (work.report extent problem).missing = work.missing ++ [⟨extent, problem⟩] := by
  simp [missing, report, h]

theorem quiet_report (work : Work) (extent : Span) {problem : Problem}
    (h : problem.concernsVariable = false) : Quiet work (work.report extent problem) := by
  refine ⟨rfl, rfl, ?_, List.prefix_append work.diagnostics _⟩
  simp [missing, report, h]

theorem quiet_foldl {α : Type} {step : Work → α → Work}
    (hstep : ∀ work item, Quiet work (step work item)) (items : List α) (work : Work) :
    Quiet work (items.foldl step work) :=
  List.foldlRecOn (motive := Quiet work) items step (.refl work) fun after h item _ =>
    h.trans (hstep after item)

theorem quiet_checkTag (outer : List Scope) (work : Work) (tag : Node) :
    Quiet work (checkTag outer work tag) := by
  unfold checkTag
  split
  · exact .refl work
  · exact quiet_report work _ rfl

theorem quiet_checkTags (outer : List Scope) (styling : Option Node) (work : Work) :
    Quiet work (work.checkTags outer styling) := by
  cases styling with
  | none => exact .refl work
  | some style => exact quiet_foldl (quiet_checkTag outer) style.tags work

theorem quiet_checkTargets (outer : List Scope) (targets : List Node) (work : Work) :
    Quiet work (checkTargets outer targets work) := by
  unfold checkTargets
  refine quiet_foldl ?_ targets work
  intro work target
  exact quiet_checkTags outer target.styling work

theorem quiet_checkLeft (targets : List Node) (extent : Option Span) (work : Work) :
    Quiet work (checkLeft targets extent work) := by
  unfold checkLeft
  split
  · exact quiet_report work _ rfl
  · exact .refl work

/-- Styles that are not there are reported, and nothing else happens to the work. -/
theorem flatten_keeps {P : Work → Prop}
    (hreport : ∀ work extent path, P work → P (work.report extent (.undefinedStyleTag path)))
    (outer : List Scope) (style : Node) (h : P work) : P (flatten outer style work).2 := by
  unfold flatten
  refine List.foldlRecOn (motive := fun state : Properties × Work => P state.2) style.tags _ h ?_
  intro state hstate tag _
  split
  · exact hstate
  · exact hreport state.2 _ _ hstate

theorem quiet_flatten (outer : List Scope) (style : Node) (work : Work) :
    Quiet work (flatten outer style work).2 :=
  flatten_keeps (fun work extent _ hquiet => hquiet.trans (quiet_report work extent rfl)) outer
    style (.refl work)

end Quiet

@[simp] theorem world_checkTags (outer : List Scope) (styling : Option Node) (work : Work) :
    (work.checkTags outer styling).world = work.world :=
  (quiet_checkTags outer styling work).world

@[simp] theorem scope_checkTags (outer : List Scope) (styling : Option Node) (work : Work) :
    (work.checkTags outer styling).scope = work.scope :=
  (quiet_checkTags outer styling work).scope

@[simp] theorem world_update (work : Work) (f : Contents → Contents) :
    (work.update f).world = work.world := rfl

@[simp] theorem scope_update (work : Work) (f : Contents → Contents) :
    (work.update f).scope = work.scope.mapContents f := rfl

end Work

/-- The vertex of a call, before its arguments are looked at. -/
def placeCall (setting : Setting) (outer : List Scope) (name : String) (styling : Option Node)
    (work : Work) : Work :=
  ((work.freshId setting).2.checkTags outer styling).update
    (·.addVertex ⟨setting.idOf work.world.issued, name, (lookOf styling).getD {}⟩)

/-- The arguments of an element, and the edges for what flows in. -/
def feed (setting : Setting) (outer : List Scope) (target : String) (args : List Node)
    (work : Work) : Work :=
  (lowerArgs setting outer args work).2.addInflows setting target
    (lowerArgs setting outer args work).1

/-- The work of a nested scope, from its beginning to its last statement. -/
def lowerInside (setting : Setting) (outer : List Scope) (name : String) (body : List Node)
    (styling : Option Node) (work : Work) : Work :=
  lowerAll setting (work.scope :: outer) body
    (enter setting (work.scope :: outer) (some (setting.idOf work.world.issued)) name styling
      (work.freshId setting).2)

/-- A nested scope: the id it gets, and the work when it is done and fed. -/
def lowerNested (setting : Setting) (outer : List Scope) (name : String) (body args : List Node)
    (styling : Option Node) (work : Work) : String × Work :=
  let inside := lowerInside setting outer name body styling work
  (setting.idOf work.world.issued,
   feed setting outer (setting.idOf work.world.issued) args
    { inside with scope := work.scope.attach inside.scope })

/-- What stands on the right of an assignment, unless it is a variable. -/
def lowerValue (setting : Setting) (outer : List Scope) : Node → Work → Option String × Work
  | .call name args styling place, work =>
      let lowered := lowerArg setting outer (.call name args styling place) work
      (lowered.1.map (·.source), lowered.2)
  | .scope name body _ args _ styling _, work =>
      let lowered := lowerNested setting outer name body args styling work
      (some lowered.1, lowered.2)
  | .package location label place, work => attachPackage setting location label place work
  | other, work => (none, work.reportUnknown other)

/-- The work of an assignment before its right side is looked at. -/
def prepareTargets (outer : List Scope) (targets : List Node) (extent : Option Span)
    (work : Work) : Work :=
  checkTargets outer targets (checkLeft targets extent work)

theorem quiet_prepareTargets (outer : List Scope) (targets : List Node) (extent : Option Span)
    (work : Work) : Work.Quiet work (prepareTargets outer targets extent work) :=
  (Work.quiet_checkLeft targets extent work).trans (Work.quiet_checkTargets outer targets _)

/-- An id that is given is used unless it is empty. -/
theorem enter_given (setting : Setting) (outer : List Scope) {id : String} (hid : id ≠ "")
    (name : String) (styling : Option Node) (work : Work) :
    enter setting outer (some id) name styling work =
      Work.checkTags outer styling { work with
        scope := .ofContents { id := id, name := name, look := (lookOf styling).getD {} } } := by
  have hgiven : (some id).filter (· ≠ "") = some id := by simp [hid]
  unfold enter
  rw [hgiven]

theorem quiet_enter (setting : Setting) (outer : List Scope) {id : String} (hid : id ≠ "")
    (name : String) (styling : Option Node) (work : Work) :
    Work.Quiet
      { work with
        scope := .ofContents { id := id, name := name, look := (lookOf styling).getD {} } }
      (enter setting outer (some id) name styling work) := by
  rw [enter_given setting outer hid]
  exact Work.quiet_checkTags outer styling _

section Equations

variable (setting : Setting) (outer : List Scope) (work : Work)

theorem lowerArg_call (name : String) (args : List Node) (styling : Option Node)
    (extent : Option Span) :
    lowerArg setting outer (.call name args styling extent) work =
      (some ⟨setting.idOf work.world.issued, "", none⟩,
       feed setting outer (setting.idOf work.world.issued) args
        (placeCall setting outer name styling work)) :=
  rfl

theorem lowerArg_variable (path : Path) (extent : Option Span) :
    lowerArg setting outer (.variable path extent) work =
      match work.elementOf? outer path with
      | some id => (some ⟨id, lastSegment path, work.variableLook? outer path⟩, work)
      | none => (none, work.report (extent.getD .origin) (.undefinedVariable path)) := by
  unfold lowerArg
  cases work.elementOf? outer path <;> rfl

theorem lowerArg_other {node : Node} (h : node.isArgument = false) :
    lowerArg setting outer node work = (none, work.reportUnknown node) := by
  cases node with
  | call => cases h
  | «variable» => cases h
  | _ => rfl

theorem lowerArgs_cons (arg : Node) (rest : List Node) :
    lowerArgs setting outer (arg :: rest) work =
      ((lowerArg setting outer arg work).1.toList ++
        (lowerArgs setting outer rest (lowerArg setting outer arg work).2).1,
       (lowerArgs setting outer rest (lowerArg setting outer arg work).2).2) :=
  rfl

theorem lowerValue_call (name : String) (args : List Node) (styling : Option Node)
    (extent : Option Span) :
    lowerValue setting outer (.call name args styling extent) work =
      (some (setting.idOf work.world.issued),
       feed setting outer (setting.idOf work.world.issued) args
        (placeCall setting outer name styling work)) := by
  change ((lowerArg setting outer (.call name args styling extent) work).1.map _, _) = _
  rw [lowerArg_call]
  rfl

theorem lowerValue_scope (name : String) (body args : List Node)
    (bodyExtent argsExtent : Option Span) (styling : Option Node) (extent : Option Span) :
    lowerValue setting outer (.scope name body bodyExtent args argsExtent styling extent) work =
      (some (setting.idOf work.world.issued),
       (lowerNested setting outer name body args styling work).2) :=
  rfl

theorem lowerValue_unbuilt {node : Node} (h : node.isBuilt = false) :
    lowerValue setting outer node work = (none, work.reportUnknown node) := by
  cases node with
  | call => cases h
  | scope => cases h
  | package => cases h
  | _ => rfl

theorem lower_call (name : String) (args : List Node) (styling : Option Node)
    (extent : Option Span) :
    lower setting outer (.call name args styling extent) work =
      (lowerValue setting outer (.call name args styling extent) work).2 :=
  rfl

theorem lower_scope (name : String) (body args : List Node) (bodyExtent argsExtent : Option Span)
    (styling : Option Node) (extent : Option Span) :
    lower setting outer (.scope name body bodyExtent args argsExtent styling extent) work =
      (lowerValue setting outer
        (.scope name body bodyExtent args argsExtent styling extent) work).2 :=
  rfl

theorem lower_package (location : String) (label : Option String) (extent : Option Span) :
    lower setting outer (.package location label extent) work =
      lowerPackage setting location label extent work :=
  rfl

theorem lower_variable (path : Path) (extent : Option Span) :
    lower setting outer (.variable path extent) work = work :=
  rfl

theorem lower_incomplete (targets : List Node) (extent : Option Span) :
    lower setting outer (.assignment targets none extent) work =
      (checkLeft targets extent work).report (extent.getD .origin)
        (.incompleteAssignment "right") :=
  rfl

theorem lower_synonym (targets : List Node) (path : Path) (place extent : Option Span) :
    lower setting outer (.assignment targets (some (.variable path place)) extent) work =
      lowerAlias outer targets path place (prepareTargets outer targets extent work) :=
  rfl

theorem lower_assigned (targets : List Node) {value : Node} (extent : Option Span)
    (h : value.isVariable = false) :
    lower setting outer (.assignment targets (some value) extent) work =
      let lowered := lowerValue setting outer value (prepareTargets outer targets extent work)
      bindTargets targets lowered.1 lowered.2 := by
  cases value with
  | «variable» => cases h
  | _ => rfl

theorem lower_namedStyle (name : String) (style : Node) (extent : Option Span) :
    lower setting outer (.namedStyle name style extent) work =
      lowerNamedStyle outer name style work :=
  rfl

theorem lower_styleBinding (keyword : String) (tags : List Node) (extent : Option Span) :
    lower setting outer (.styleBinding keyword tags extent) work =
      work.update (·.bindStyle keyword (tags.map Node.path)) :=
  rfl

theorem lower_other {node : Node} (h : node.isStatement = false) :
    lower setting outer node work = work.reportUnknown node := by
  cases node with
  | target => rfl
  | style => rfl
  | styleTag => rfl
  | valueList => rfl
  | statementList => rfl
  | recipe => rfl
  | _ => cases h

end Equations

section Packages

open Package

variable {setting : Setting} {location : String} {work : Work} {loader : Loader} {world : World}

theorem bringIn_unsupplied (hloader : setting.loader = none) (extent : Option Span) :
    bringIn setting location extent work =
      (none, (work.update (·.addPackage location)).report (extent.getD .origin)
        (.importFailed location "no import cache configured")) := by
  unfold bringIn
  rw [hloader]

theorem bringIn_failed {fault : Fault} (hloader : setting.loader = some loader)
    (hload : loader location setting.chain work.world = (.error fault, world))
    (extent : Option Span) :
    bringIn setting location extent work =
      (none, Work.report { work.update (·.addPackage location) with world := world }
        (extent.getD .origin) (.importFailed location fault.message)) := by
  unfold bringIn
  dsimp only [Work.world_update]
  rw [hloader]
  dsimp only
  rw [hload]

theorem bringIn_arrived {package : Scope} (hloader : setting.loader = some loader)
    (hload : loader location setting.chain work.world = (.ok package, world))
    (extent : Option Span) :
    bringIn setting location extent work =
      (some package.copy, { work.update (·.addPackage location) with world := world }) := by
  unfold bringIn
  dsimp only [Work.world_update]
  rw [hloader]
  dsimp only
  rw [hload]

/-- What comes of asking for a package, and the work when it has come or not. -/
inductive Brought (setting : Setting) (location : String) (extent : Option Span) (work : Work) :
    Option Scope × Work → Prop
  | unsupplied (hloader : setting.loader = none) :
      Brought setting location extent work
        (none, (work.update (·.addPackage location)).report (extent.getD .origin)
          (.importFailed location "no import cache configured"))
  | failed {loader : Loader} {fault : Fault} {world : World}
      (hloader : setting.loader = some loader)
      (hload : loader location setting.chain work.world = (.error fault, world)) :
      Brought setting location extent work
        (none, Work.report { work.update (·.addPackage location) with world := world }
          (extent.getD .origin) (.importFailed location fault.message))
  | arrived {loader : Loader} {package : Scope} {world : World}
      (hloader : setting.loader = some loader)
      (hload : loader location setting.chain work.world = (.ok package, world)) :
      Brought setting location extent work
        (some package.copy, { work.update (·.addPackage location) with world := world })

theorem brought_of_eq {extent : Option Span} {brought : Option Scope × Work}
    (h : bringIn setting location extent work = brought) :
    Brought setting location extent work brought := by
  subst h
  cases hloader : setting.loader with
  | none =>
    rw [bringIn_unsupplied hloader]
    exact .unsupplied hloader
  | some loader =>
    rcases hload : loader location setting.chain work.world with ⟨fault | package, world⟩
    · rw [bringIn_failed hloader hload]
      exact .failed hloader hload
    · rw [bringIn_arrived hloader hload]
      exact .arrived hloader hload

variable {extent : Option Span} {package : Scope} {after : Work}

theorem attachPackage_absent (h : bringIn setting location extent work = (none, after))
    (label : Option String) :
    attachPackage setting location label extent work = (none, after) := by
  unfold attachPackage
  rw [h]

theorem attachPackage_present (h : bringIn setting location extent work = (some package, after))
    (label : Option String) :
    attachPackage setting location label extent work =
      (some (setting.idOf after.world.issued),
        (after.freshId setting).2.attach (package.mapContents fun contents =>
          { contents with id := setting.idOf after.world.issued, name := label.getD "" })) := by
  unfold attachPackage
  rw [h]
  rfl

theorem lowerPackage_absent (h : bringIn setting location extent work = (none, after)) :
    lowerPackage setting location none extent work = after := by
  unfold lowerPackage
  dsimp only
  rw [h]

theorem lowerPackage_present (h : bringIn setting location extent work = (some package, after)) :
    lowerPackage setting location none extent work =
      { after with scope := after.scope.merge package } := by
  unfold lowerPackage
  dsimp only
  rw [h]

end Packages

end Compile

end RecipeGraph
