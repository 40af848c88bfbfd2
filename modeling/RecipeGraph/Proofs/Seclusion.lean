import RecipeGraph.Compile.InPlace
import RecipeGraph.Proofs.Annexes
import RecipeGraph.Proofs.LoweringCases

/-!
Lowering in place is secluded. Whatever stands in the statements, be it nested scopes or packages, of
all members that were there only the one that is lowered into changes, and it stays where it was.
-/
namespace RecipeGraph.Compile.InPlace

open RecipeGraph.Graph Recipe Package

/-- What a nested scope holds before its statements. -/
abbrev freshContents (id name : String) (styling : Option Node) : Contents :=
  { id := id, name := name, look := (lookOf styling).getD {} }

/-- The vertex of a call, before its arguments are looked at. -/
def placeCall (outfit : Outfit) (n : Nat) (name : String) (styling : Option Node) (job : Job) : Job :=
  ((job.freshId outfit).2.checkTags n styling).update n
    (·.addVertex ⟨outfit.idOf job.yard.issued, name, (lookOf styling).getD {}⟩)

/-- A nested scope: the id it gets, and the job when it is done and fed. -/
def lowerNested (outfit : Outfit) (n : Nat) (name : String) (body args : List Node)
    (styling : Option Node) (job : Job) : String × Job :=
  let id := outfit.idOf job.yard.issued
  (id, leave outfit n id args (lowerAll outfit job.yard.size body
    (enter outfit (some n) (some id) name styling (job.freshId outfit).2)))

/-- What stands on the right of an assignment, unless it is a variable. -/
def lowerValue (outfit : Outfit) (n : Nat) : Node → Job → Option String × Job
  | .call name args styling place, job =>
      let lowered := lowerArg outfit n (.call name args styling place) job
      (lowered.1.map (·.source), lowered.2)
  | .scope name body _ args _ styling _, job =>
      let lowered := lowerNested outfit n name body args styling job
      (some lowered.1, lowered.2)
  | .package location label place, job => attachPackage outfit n location label place job
  | other, job => (none, job.reportUnknown other)

/-- The job of an assignment before its right side is looked at. -/
def prepareTargets (n : Nat) (targets : List Node) (extent : Option Span) (job : Job) : Job :=
  checkTargets n targets (checkLeft targets extent job)

section Equations

variable (outfit : Outfit) (n : Nat) (job : Job)

theorem lowerArg_call (name : String) (args : List Node) (styling : Option Node)
    (extent : Option Span) :
    lowerArg outfit n (.call name args styling extent) job =
      (some ⟨outfit.idOf job.yard.issued, "", none⟩,
       leave outfit n (outfit.idOf job.yard.issued) args (placeCall outfit n name styling job)) :=
  rfl

theorem lowerArg_variable (path : Path) (extent : Option Span) :
    lowerArg outfit n (.variable path extent) job =
      match job.elementOf? n path with
      | some id => (some ⟨id, lastSegment path, job.variableLook? n path⟩, job)
      | none => (none, job.report (extent.getD .origin) (.undefinedVariable path)) := by
  unfold lowerArg
  cases job.elementOf? n path <;> rfl

theorem lowerArg_other {node : Node} (h : node.isArgument = false) :
    lowerArg outfit n node job = (none, job.reportUnknown node) := by
  cases node with
  | call => cases h
  | «variable» => cases h
  | _ => rfl

theorem lowerArgs_cons (arg : Node) (rest : List Node) :
    lowerArgs outfit n (arg :: rest) job =
      ((lowerArg outfit n arg job).1.toList ++
        (lowerArgs outfit n rest (lowerArg outfit n arg job).2).1,
       (lowerArgs outfit n rest (lowerArg outfit n arg job).2).2) :=
  rfl

theorem lowerValue_call (name : String) (args : List Node) (styling : Option Node)
    (extent : Option Span) :
    lowerValue outfit n (.call name args styling extent) job =
      (some (outfit.idOf job.yard.issued),
       leave outfit n (outfit.idOf job.yard.issued) args (placeCall outfit n name styling job)) := by
  change ((lowerArg outfit n (.call name args styling extent) job).1.map _, _) = _
  rw [lowerArg_call]
  rfl

theorem lowerValue_scope (name : String) (body args : List Node)
    (bodyExtent argsExtent : Option Span) (styling : Option Node) (extent : Option Span) :
    lowerValue outfit n (.scope name body bodyExtent args argsExtent styling extent) job =
      (some (outfit.idOf job.yard.issued), (lowerNested outfit n name body args styling job).2) :=
  rfl

theorem lowerValue_unbuilt {node : Node} (h : node.isBuilt = false) :
    lowerValue outfit n node job = (none, job.reportUnknown node) := by
  cases node with
  | call => cases h
  | scope => cases h
  | package => cases h
  | _ => rfl

theorem lower_call (name : String) (args : List Node) (styling : Option Node)
    (extent : Option Span) :
    lower outfit n (.call name args styling extent) job =
      (lowerValue outfit n (.call name args styling extent) job).2 :=
  rfl

theorem lower_scope (name : String) (body args : List Node) (bodyExtent argsExtent : Option Span)
    (styling : Option Node) (extent : Option Span) :
    lower outfit n (.scope name body bodyExtent args argsExtent styling extent) job =
      (lowerValue outfit n
        (.scope name body bodyExtent args argsExtent styling extent) job).2 :=
  rfl

theorem lower_synonym (targets : List Node) (path : Path) (place extent : Option Span) :
    lower outfit n (.assignment targets (some (.variable path place)) extent) job =
      lowerAlias n targets path place (prepareTargets n targets extent job) :=
  rfl

theorem lower_assigned (targets : List Node) {value : Node} (extent : Option Span)
    (h : value.isVariable = false) :
    lower outfit n (.assignment targets (some value) extent) job =
      let lowered := lowerValue outfit n value (prepareTargets n targets extent job)
      bindTargets n targets lowered.1 lowered.2 := by
  cases value with
  | «variable» => cases h
  | _ => rfl

theorem lower_other {node : Node} (h : node.isStatement = false) :
    lower outfit n node job = job.reportUnknown node := by
  cases node with
  | target => rfl
  | style => rfl
  | styleTag => rfl
  | valueList => rfl
  | statementList => rfl
  | recipe => rfl
  | _ => cases h

/-- An id that is given is used unless it is empty. -/
theorem enter_given (parent : Option Nat) {id : String} (hid : id ≠ "") (name : String)
    (styling : Option Node) :
    enter outfit parent (some id) name styling job =
      Job.checkTags job.yard.size styling
        (job.change (·.add (freshContents id name styling) parent)) := by
  have hgiven : (some id).filter (· ≠ "") = some id := by simp [hid]
  unfold enter
  rw [hgiven]

end Equations

section Reports

variable (n : Nat) (job : Job)

theorem yard_foldl {α : Type} {step : Job → α → Job}
    (hstep : ∀ job item, (step job item).yard = job.yard) (items : List α) (job : Job) :
    (items.foldl step job).yard = job.yard :=
  List.foldlRecOn (motive := fun after => after.yard = job.yard) items step rfl
    fun after h item _ => (hstep after item).trans h

theorem yard_checkTag (tag : Node) : (Job.checkTag n job tag).yard = job.yard := by
  unfold Job.checkTag
  split <;> rfl

@[simp] theorem yard_checkTags (styling : Option Node) :
    (job.checkTags n styling).yard = job.yard := by
  cases styling with
  | none => rfl
  | some style => exact yard_foldl (yard_checkTag n) style.tags job

@[simp] theorem yard_checkLeft (targets : List Node) (extent : Option Span) :
    (checkLeft targets extent job).yard = job.yard := by
  unfold checkLeft
  split <;> rfl

@[simp] theorem yard_prepareTargets (targets : List Node) (extent : Option Span) :
    (prepareTargets n targets extent job).yard = job.yard := by
  unfold prepareTargets checkTargets
  exact (yard_foldl (fun job target => yard_checkTags n job target.styling) targets _).trans
    (yard_checkLeft job targets extent)

@[simp] theorem yard_flatten (style : Node) : (flatten n style job).2.yard = job.yard := by
  unfold flatten
  refine List.foldlRecOn (motive := fun state : Properties × Job => state.2.yard = job.yard)
    style.tags _ rfl ?_
  intro state hstate tag _
  split <;> exact hstate

end Reports

/-- Of the members that were there only member `n` has changed. -/
def Annexes (n : Nat) (job after : Job) : Prop :=
  job.yard.hierarchy.Annexed after.yard.hierarchy n

namespace Annexes

variable {n : Nat} {job middle after : Job}

theorem trans (first : Annexes n job middle) (second : n < middle.yard.size → Annexes n middle after) :
    Annexes n job after :=
  Hierarchy.Annexed.trans first (second (Nat.lt_of_lt_of_le first.there first.size))

theorem of_yard (hn : n < job.yard.size) (hyard : after.yard = job.yard) : Annexes n job after := by
  unfold Annexes
  rw [hyard]
  exact Hierarchy.annexed_refl hn

theorem update (hn : n < job.yard.size) {f : Contents → Contents}
    (hlabel : ∀ contents, (f contents).label = contents.label) : Annexes n job (job.update n f) :=
  (Hierarchy.annexed_refl hn).edit (Or.inl rfl) f fun _ => hlabel

theorem foldl {α : Type} {step : Job → α → Job}
    (hstep : ∀ job item, n < job.yard.size → Annexes n job (step job item)) (items : List α)
    (hn : n < job.yard.size) : Annexes n job (items.foldl step job) := by
  induction items generalizing job with
  | nil => exact of_yard hn rfl
  | cons item rest ih => exact (hstep job item hn).trans ih

end Annexes

section Arguments

variable (outfit : Outfit) {n : Nat} {job : Job}

theorem annexes_addInflows (target : String) (inflows : List Inflow) (hn : n < job.yard.size) :
    Annexes n job (job.addInflows outfit n target inflows) := by
  refine .foldl (fun job inflow hlt => ?_) inflows hn
  have hedge : Annexes n (job.freshId outfit).2 (Job.addInflow outfit n target job inflow) :=
    .update hlt fun _ => rfl
  exact hedge

theorem annexes_placeCall (name : String) (styling : Option Node) (hn : n < job.yard.size) :
    Annexes n job (placeCall outfit n name styling job) := by
  have hyard : ((job.freshId outfit).2.checkTags n styling).yard = (job.freshId outfit).2.yard :=
    yard_checkTags ..
  have hchecked : Annexes n (job.freshId outfit).2 ((job.freshId outfit).2.checkTags n styling) :=
    .of_yard hn hyard
  have hplaced : Annexes n (job.freshId outfit).2 (placeCall outfit n name styling job) :=
    hchecked.trans fun hlt => .update hlt fun _ => rfl
  exact hplaced

theorem annexes_leave {args : List Node} (id : String)
    (hargs : Annexes n job (lowerArgs outfit n args job).2) :
    Annexes n job (leave outfit n id args job) :=
  hargs.trans (annexes_addInflows outfit id _)

theorem arguments_annex (n : Nat) :
    Node.ArgumentCases
      (fun arg => ∀ job : Job, n < job.yard.size → Annexes n job (lowerArg outfit n arg job).2)
      (fun args => ∀ job : Job, n < job.yard.size →
        Annexes n job (lowerArgs outfit n args job).2) where
  call name args styling extent ih job hn := by
    rw [lowerArg_call]
    exact (annexes_placeCall outfit name styling hn).trans fun hlt =>
      annexes_leave outfit _ (ih _ hlt)
  reference path extent job hn := by
    rw [lowerArg_variable]
    cases job.elementOf? n path <;> exact .of_yard hn rfl
  other node hnode job hn := by
    rw [lowerArg_other outfit n job hnode]
    exact .of_yard hn rfl
  nil job hn := .of_yard hn rfl
  cons arg rest hfirst hrest job hn := by
    rw [lowerArgs_cons]
    exact (hfirst job hn).trans (hrest _)

end Arguments

/-- Bringing in a package makes members, and leaves all that were there alone. -/
def Supplier.Adds (supplier : Supplier) : Prop :=
  ∀ (location : String) (chain : List String) (yard : Yard),
    yard.hierarchy.Grown (supplier location chain yard).2.hierarchy

section Statements

variable {outfit : Outfit} {n : Nat} {job : Job}

theorem annexes_bindTarget (id : String) (look : Node → Option Look) (target : Node)
    (hn : n < job.yard.size) : Annexes n job (Job.bindTarget n id look job target) :=
  .update hn fun _ => rfl

theorem annexes_bindTargets (targets : List Node) (value : Option String) (hn : n < job.yard.size) :
    Annexes n job (bindTargets n targets value job) := by
  cases value with
  | none => exact .of_yard hn rfl
  | some id => exact .foldl (fun _ => annexes_bindTarget id _) targets hn

theorem annexes_lowerAlias (targets : List Node) (path : Path) (extent : Option Span)
    (hn : n < job.yard.size) : Annexes n job (lowerAlias n targets path extent job) := by
  unfold lowerAlias
  cases job.elementOf? n path with
  | none => exact .of_yard hn rfl
  | some id => exact .foldl (fun _ => annexes_bindTarget id _) targets hn

theorem annexes_lowerNamedStyle (name : String) (style : Node) (hn : n < job.yard.size) :
    Annexes n job (lowerNamedStyle n name style job) := by
  have hflat : Annexes n job (flatten n style job).2 := .of_yard hn (yard_flatten n job style)
  exact hflat.trans fun hlt => .update hlt fun _ => rfl

/-- A new member, before its statements. -/
theorem enter_eq (outfit : Outfit) (parent : Option Nat) (given : Option String) (name : String)
    (styling : Option Node) (job : Job) : ∃ id,
      (enter outfit parent given name styling job).yard.hierarchy =
        job.yard.hierarchy.add (freshContents id name styling) parent := by
  unfold enter
  cases given.filter (· ≠ "") with
  | none => exact ⟨outfit.idOf job.yard.issued, by rw [yard_checkTags]; rfl⟩
  | some id => exact ⟨id, by rw [yard_checkTags]; rfl⟩

theorem size_enter (outfit : Outfit) (parent : Option Nat) (given : Option String) (name : String)
    (styling : Option Node) (job : Job) :
    (enter outfit parent given name styling job).yard.size = job.yard.size + 1 := by
  obtain ⟨id, heq⟩ := enter_eq outfit parent given name styling job
  unfold Yard.size
  rw [heq]
  exact Hierarchy.length_add ..

variable (outfit) in
/-- The new member is below its parent and holds nobody. -/
theorem get?_enter (given : Option String) (name : String) (styling : Option Node)
    (hn : n < job.yard.size) : ∃ contents lineage,
      (enter outfit (some n) given name styling job).yard.hierarchy.get? job.yard.size =
        some { contents := contents, parent := some n, lineage := lineage } := by
  obtain ⟨id, heq⟩ := enter_eq outfit (some n) given name styling job
  obtain ⟨⟨lineage, hmade⟩, -⟩ := Hierarchy.get?_add_some (freshContents id name styling) hn
  exact ⟨_, lineage, heq ▸ hmade⟩

theorem annexes_enter (given : Option String) (name : String) (styling : Option Node)
    (hn : n < job.yard.size) : Annexes n job (enter outfit (some n) given name styling job) := by
  obtain ⟨id, heq⟩ := enter_eq outfit (some n) given name styling job
  unfold Annexes
  rw [heq]
  exact Hierarchy.annexed_add _ hn

section Inside

variable (given : Option String) (name : String) (body : List Node) (styling : Option Node)
  (hn : n < job.yard.size)
  (hbody : ∀ entered : Job, job.yard.size < entered.yard.size →
    Annexes job.yard.size entered (lowerAll outfit job.yard.size body entered))

include hn hbody

/-- Lowering into a new member below `n`. -/
theorem annexes_inside :
    Annexes n job (lowerAll outfit job.yard.size body
      (enter outfit (some n) given name styling job)) := by
  have hsize := size_enter outfit (some n) given name styling job
  have hinner := hbody (enter outfit (some n) given name styling job) (by omega)
  obtain ⟨contents, lineage, hmade⟩ := get?_enter outfit given name styling hn
  refine (annexes_enter given name styling hn).inside hinner hsize
    (congrArg (Option.map Member.parent) hmade) ?_
  rintro key k ⟨member, hmember, hmem⟩
  cases hmade.symm.trans hmember
  simp at hmem

theorem parent_inside :
    ((lowerAll outfit job.yard.size body
      (enter outfit (some n) given name styling job)).yard.hierarchy.get? job.yard.size).map
        Member.parent = some (some n) := by
  have hsize := size_enter outfit (some n) given name styling job
  have hinner := hbody (enter outfit (some n) given name styling job) (by omega)
  obtain ⟨contents, lineage, hmade⟩ := get?_enter outfit given name styling hn
  exact hinner.parent_eq.trans (congrArg (Option.map Member.parent) hmade)

end Inside

section Packages

variable (hsupplier : ∀ supplier ∈ outfit.supplier, supplier.Adds)

include hsupplier

/-- The copy that is brought in is one of those that have come, and nobody holds it. -/
theorem annexes_bringIn (location : String) (extent : Option Span) (hn : n < job.yard.size) :
    Annexes n job (bringIn outfit n location extent job).2 ∧
      ∀ package ∈ (bringIn outfit n location extent job).1, job.yard.size ≤ package := by
  have hnoted : Annexes n job (job.update n (·.addPackage location)) :=
    .update hn (Contents.label_addPackage · location)
  unfold bringIn
  cases hsetting : outfit.supplier with
  | none => exact ⟨hnoted, by simp⟩
  | some supplier =>
    have hcome := hsupplier supplier hsetting location outfit.chain
      (job.update n (·.addPackage location)).yard
    rcases hsupply : supplier location outfit.chain (job.update n (·.addPackage location)).yard
      with ⟨result, yard⟩
    rw [hsupply] at hcome
    have hgrown := hnoted.grown hcome
    dsimp only
    rw [hsupply]
    cases result with
    | error fault => exact ⟨hgrown, by simp⟩
    | ok package =>
      refine ⟨hgrown.grown (Hierarchy.grown_copy _ package), fun copied hcopied => ?_⟩
      cases hcopied
      exact hgrown.size

theorem annexes_attachPackage (location : String) (label : Option String) (extent : Option Span)
    (hn : n < job.yard.size) :
    Annexes n job (attachPackage outfit n location label extent job).2 := by
  obtain ⟨hbrought, hnew⟩ := annexes_bringIn hsupplier location extent hn
  unfold attachPackage
  rcases hbring : bringIn outfit n location extent job with ⟨brought, after⟩
  rw [hbring] at hbrought hnew
  cases brought with
  | none => exact hbrought
  | some package =>
    have hle := hnew package rfl
    have hnamed := (Hierarchy.Annexed.setId hbrought hle (outfit.idOf after.yard.issued)).setName
      hle (label.getD "")
    exact hnamed.attach (Or.inl rfl) hle

theorem annexes_lowerPackage (location : String) (label : Option String) (extent : Option Span)
    (hn : n < job.yard.size) :
    Annexes n job (lowerPackage outfit n location label extent job) := by
  unfold lowerPackage
  cases label with
  | some name => exact annexes_attachPackage hsupplier location (some name) extent hn
  | none =>
    obtain ⟨hbrought, hnew⟩ := annexes_bringIn hsupplier location extent hn
    rcases hbring : bringIn outfit n location extent job with ⟨brought, after⟩
    rw [hbring] at hbrought hnew
    cases brought with
    | none => exact hbrought
    | some package => exact Hierarchy.Annexed.merge hbrought (Or.inl rfl) (hnew package rfl)

theorem statements_annex :
    Node.StatementCases
      (fun value => ∀ (n : Nat) (job : Job), n < job.yard.size →
        Annexes n job (lowerValue outfit n value job).2)
      (fun node => ∀ (n : Nat) (job : Job), n < job.yard.size →
        Annexes n job (lower outfit n node job))
      (fun nodes => ∀ (n : Nat) (job : Job), n < job.yard.size →
        Annexes n job (lowerAll outfit n nodes job)) where
  call name args styling extent n job hn :=
    (arguments_annex outfit n).one (.call name args styling extent) job hn
  scope name body _ args _ styling _ hbody n job hn := by
    have hinside : Annexes n (job.freshId outfit).2 (lowerAll outfit job.yard.size body
        (enter outfit (some n) (some (outfit.idOf job.yard.issued)) name styling
          (job.freshId outfit).2)) :=
      annexes_inside _ name body styling hn fun entered => hbody _ _
    have hdone : Annexes n (job.freshId outfit).2
        (lowerNested outfit n name body args styling job).2 :=
      hinside.trans fun hlt =>
        annexes_leave outfit _ ((arguments_annex outfit n).all args _ hlt)
    exact hdone
  package location label extent n job hn :=
    annexes_attachPackage hsupplier location label extent hn
  unbuilt node hnode n job hn := by
    rw [lowerValue_unbuilt outfit n job hnode]
    exact .of_yard hn rfl
  bareCall name args styling extent hvalue n job hn := hvalue n job hn
  bareScope name body bodyExtent args argsExtent styling extent hvalue n job hn := hvalue n job hn
  barePackage location label extent n job hn :=
    annexes_lowerPackage hsupplier location label extent hn
  reference path extent n job hn := .of_yard hn rfl
  incomplete targets extent n job hn := .of_yard hn (yard_checkLeft job targets extent)
  synonym targets path place extent n job hn := by
    rw [lower_synonym]
    have hprepared : Annexes n job (prepareTargets n targets extent job) :=
      .of_yard hn (yard_prepareTargets n job targets extent)
    exact hprepared.trans (annexes_lowerAlias targets path place)
  assigned targets value extent hvariable hvalue n job hn := by
    rw [lower_assigned outfit n job targets extent hvariable]
    have hprepared : Annexes n job (prepareTargets n targets extent job) :=
      .of_yard hn (yard_prepareTargets n job targets extent)
    exact (hprepared.trans (hvalue n _)).trans (annexes_bindTargets targets _)
  namedStyle name style extent n job hn := annexes_lowerNamedStyle name style hn
  styleBinding keyword tags extent n job hn := .update hn fun _ => rfl
  other node hnode n job hn := by
    rw [lower_other outfit n job hnode]
    exact .of_yard hn rfl
  nil n job hn := .of_yard hn rfl
  cons node rest hnode hrest n job hn := (hnode n job hn).trans (hrest n _)

/-- A new member that has no parent. -/
theorem grown_lowerInto (given : Option String) (name : String) (styling : Option Node)
    (statements : List Node) (yard : Yard) :
    yard.hierarchy.Grown (lowerInto outfit none given name styling statements yard).yard.hierarchy := by
  have hsize : (enter outfit none given name styling ⟨yard, []⟩).yard.size = yard.size + 1 :=
    size_enter ..
  have hinner := (statements_annex hsupplier).all statements yard.size
    (enter outfit none given name styling ⟨yard, []⟩) (by omega)
  obtain ⟨id, heq⟩ := enter_eq outfit none given name styling ⟨yard, []⟩
  dsimp only at heq
  have hmade := Hierarchy.get?_add_self yard.hierarchy (freshContents id name styling)
  have houter := Hierarchy.grown_add yard.hierarchy (freshContents id name styling)
  rw [← heq] at hmade houter
  refine Hierarchy.Annexed.grown_inside houter hinner hsize ?_ ?_
  · exact congrArg (Option.map Member.parent) hmade
  · rintro key k ⟨member, hmember, hmem⟩
    cases hmade.symm.trans hmember
    simp at hmem

/-- Of all members that were there only the parent changes, by the new one that it holds under its
id and its name. -/
theorem gains_lowerInto {p : Nat} {member : Member} {id : String} (name : String)
    (styling : Option Node) (statements : List Node) {yard : Yard}
    (hp : yard.hierarchy.get? p = some member) (hid : id ≠ "") (hnew : id ∉ member.children.keys) :
    yard.hierarchy.Gains
      (lowerInto outfit (some p) (some id) name styling statements yard).yard.hierarchy p id
      name := by
  have hlt : p < yard.size := Hierarchy.lt_of_get? hp
  have hsize : (enter outfit (some p) (some id) name styling ⟨yard, []⟩).yard.size =
      yard.size + 1 := size_enter ..
  have hinner := (statements_annex hsupplier).all statements yard.size
    (enter outfit (some p) (some id) name styling ⟨yard, []⟩) (by omega)
  have hannexes : Annexes p ⟨yard, []⟩
      (lowerInto outfit (some p) (some id) name styling statements yard) :=
    annexes_inside (some id) name statements styling hlt fun entered =>
      (statements_annex hsupplier).all statements yard.size entered
  have heq : (enter outfit (some p) (some id) name styling ⟨yard, []⟩).yard.hierarchy =
      yard.hierarchy.add (freshContents id name styling) (some p) := by
    rw [enter_given outfit _ _ hid, yard_checkTags]
    rfl
  obtain ⟨⟨lineage, hmade⟩, hplaced⟩ :=
    Hierarchy.get?_add_some (freshContents id name styling) hlt
  rw [← heq] at hmade hplaced
  constructor
  case others => exact hannexes.kept
  case parent =>
    have hkept := hinner.kept p (Nat.lt_of_lt_of_eq (Nat.lt_succ_of_lt hlt) hsize.symm)
      (Nat.ne_of_lt hlt)
    have hentries : member.children.insert id yard.size =
        ⟨member.children.entries ++ [(id, yard.size)]⟩ :=
      congrArg OrderedMap.mk (OrderedMap.entries_insert_of_not_mem _ hnew)
    refine hkept.trans (hplaced.trans ?_)
    rw [hp, Option.map_some, Option.map_some]
    unfold Member.place
    exact congrArg (fun children => some { member with
      children := children
      names := if name = "" then member.names else member.names.insert name id }) hentries
  case child => exact hinner.place.trans (congrArg (Option.map Member.post) hmade)
  case apart => exact fun k way m hk hway => hannexes.descends hk hway

end Packages

end Statements

section Suppliers

variable {idOf : Nat → String} {library : Library}

/-- What is in the cache comes from there, and anything else from the one who is asked next. -/
theorem grown_remember {location : String} {obtain : Yard → Except Fault Nat × Yard} {yard : Yard}
    (hobtain : ∀ yard : Yard, yard.hierarchy.Grown (obtain yard).2.hierarchy) :
    yard.hierarchy.Grown (remember location obtain yard).2.hierarchy := by
  unfold remember
  split
  · exact Hierarchy.grown_refl _
  · exact Hierarchy.grown_refl _
  · exact hobtain (yard.record location .loading)

theorem adds_supplyWithin (depth : Nat) : (supplyWithin idOf library depth).Adds := by
  induction depth with
  | zero => exact fun _ _ _ => Hierarchy.grown_refl _
  | succ depth ih =>
    intro location chain yard
    unfold supplyWithin
    cases refusal? location chain with
    | some fault => exact Hierarchy.grown_refl _
    | none =>
      refine grown_remember fun yard => ?_
      unfold fetchWith
      cases library.fetch location with
      | error fault => exact Hierarchy.grown_refl _
      | ok text =>
        refine grown_lowerInto (fun supplier hmem => ?_) none "" none _ (yard.noteFetch location)
        cases hmem
        exact ih

end Suppliers

end RecipeGraph.Compile.InPlace
