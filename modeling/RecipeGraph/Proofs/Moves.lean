import RecipeGraph.Compile.Lower
import RecipeGraph.Proofs.Lookup
import Mathlib.Logic.Relation

/-!
Compiling as a sequence of single moves. A stage holds all that is under construction at one
moment, beside the packages that are finished: for each text in the making its scopes from the
inside out, and in each scope the elements into which values may still flow. What is ready has
all its inflows and may be referred to. The moves leave out why something is done; they allow
at least all that lowering does.
-/
namespace RecipeGraph.Compile

open RecipeGraph.Graph

/-- An id that was given out before the next one is. -/
def Numbered (idOf : Nat → String) (issued : Nat) (id : String) : Prop :=
  ∃ n < issued, id = idOf n

section Numbered

variable {idOf : Nat → String}

theorem Numbered.mono {issued later : Nat} {id : String} (h : Numbered idOf issued id)
    (hle : issued ≤ later) : Numbered idOf later id := by
  obtain ⟨n, hn, hid⟩ := h
  exact ⟨n, by omega, hid⟩

theorem numbered_next (idOf : Nat → String) (issued : Nat) :
    Numbered idOf (issued + 1) (idOf issued) :=
  ⟨issued, by omega, rfl⟩

theorem Numbered.ne_next {issued : Nat} {id : String} (hinj : Function.Injective idOf)
    (h : Numbered idOf issued id) : id ≠ idOf issued := by
  obtain ⟨n, hn, rfl⟩ := h
  intro heq
  have hsame := hinj heq
  omega

end Numbered

/-- A supply of ids that never repeats one: tallies, each a stroke longer. -/
def tally (n : Nat) : String :=
  String.ofList (List.replicate (n + 1) '|')

theorem length_tally (n : Nat) : (tally n).length = n + 1 := by
  simp [tally]

theorem tally_injective : Function.Injective tally := by
  intro m n heq
  have hlength : m + 1 = n + 1 := by
    rw [← length_tally m, heq, length_tally]
  omega

theorem tally_ne_empty (n : Nat) : tally n ≠ "" := by
  intro heq
  have hlength : n + 1 = 0 := by
    rw [← length_tally n, heq]
    rfl
  omega

/-- A scope under construction, with the elements in it that wait for what flows into them. -/
structure Frame where
  scope : Scope
  waiting : List String := []

structure Stage where
  issued : Nat
  /-- The packages that are finished. -/
  shelf : List Scope := []
  frame : Frame
  /-- The frames around the innermost one, from the inside out. -/
  outer : List Frame := []
  /-- Elements about to be used. -/
  ready : List String := []
  /-- The texts that wait for a package, each with its frames. -/
  callers : List (Frame × List Frame) := []

/-- What a scope can be given that says nothing about its elements. -/
inductive Adornment
  | style (name : String) (properties : Properties)
  | binding (keyword : String) (tags : List Path)
  | package (location : String)

def Adornment.apply : Adornment → Contents → Contents
  | style name properties, contents => contents.setStyle name properties
  | binding keyword tags, contents => contents.bindStyle keyword tags
  | package location, contents => contents.addPackage location

/-- All that has to do with elements and values stays as it is. -/
theorem Adornment.apply_eq (adornment : Adornment) (contents : Contents) :
    ∃ styles bindings packages, adornment.apply contents =
      { contents with styles := styles, bindings := bindings, packages := packages } := by
  cases adornment with
  | style name properties => exact ⟨_, _, _, rfl⟩
  | binding keyword tags => exact ⟨_, _, _, rfl⟩
  | package location =>
    change ∃ styles bindings packages, contents.addPackage location = _
    unfold Contents.addPackage
    split
    · exact ⟨_, _, _, rfl⟩
    · exact ⟨_, _, _, rfl⟩

namespace Adornment

variable (adornment : Adornment) (contents : Contents)

@[simp] theorem id_apply : (adornment.apply contents).id = contents.id := by
  obtain ⟨_, _, _, happly⟩ := adornment.apply_eq contents
  rw [happly]

@[simp] theorem vertices_apply : (adornment.apply contents).vertices = contents.vertices := by
  obtain ⟨_, _, _, happly⟩ := adornment.apply_eq contents
  rw [happly]

@[simp] theorem edges_apply : (adornment.apply contents).edges = contents.edges := by
  obtain ⟨_, _, _, happly⟩ := adornment.apply_eq contents
  rw [happly]

@[simp] theorem variableIds_apply :
    (adornment.apply contents).variableIds = contents.variableIds := by
  obtain ⟨_, _, _, happly⟩ := adornment.apply_eq contents
  rw [happly]

@[simp] theorem variableLooks_apply :
    (adornment.apply contents).variableLooks = contents.variableLooks := by
  obtain ⟨_, _, _, happly⟩ := adornment.apply_eq contents
  rw [happly]

end Adornment

namespace Stage

/-- The first stage of a text. -/
def start (idOf : Nat → String) (issued : Nat) (shelf : List Scope) : Stage :=
  { issued := issued + 1
    shelf := shelf
    frame := ⟨.ofContents { id := idOf issued }, []⟩ }

def withScope (stage : Stage) (scope : Scope) : Stage :=
  { stage with frame := { stage.frame with scope := scope } }

/-- Changes what the innermost scope holds by itself. -/
def edit (stage : Stage) (f : Contents → Contents) : Stage :=
  stage.withScope (stage.frame.scope.mapContents f)

def issue (stage : Stage) : Stage :=
  { stage with issued := stage.issued + 1 }

def await (stage : Stage) (id : String) : Stage :=
  { stage with frame := { stage.frame with waiting := id :: stage.frame.waiting } }

def outerScopes (stage : Stage) : List Scope :=
  stage.outer.map Frame.scope

/-- All frames but the innermost one. -/
def others (stage : Stage) : List Frame :=
  stage.outer ++ stage.callers.flatMap fun caller => caller.1 :: caller.2

theorem others_of_outer {stage : Stage} {around : Frame} {further : List Frame}
    (houter : stage.outer = around :: further) :
    stage.others = around :: { stage with outer := further }.others := by
  unfold others
  rw [houter, List.cons_append]

theorem others_of_callers {stage : Stage} {frame : Frame} {outer : List Frame}
    {callers : List (Frame × List Frame)} (houter : stage.outer = [])
    (hcallers : stage.callers = (frame, outer) :: callers) :
    stage.others = frame :: { stage with outer := outer, callers := callers }.others := by
  unfold others
  rw [houter, hcallers, List.nil_append, List.flatMap_cons, List.cons_append]

/-- The scopes that lie in no other one. -/
def roots (stage : Stage) : List Scope :=
  stage.frame.scope :: stage.others.map Frame.scope ++ stage.shelf

/-- A package as a child, under a new id and a name of its own. -/
def relabel (package : Scope) (id name : String) : Scope :=
  package.copy.mapContents fun contents => { contents with id := id, name := name }

end Stage

inductive Move (idOf : Nat → String) : Stage → Stage → Prop
  | vertex (stage : Stage) (name : String) (look : Look) :
      Move idOf stage
        ((stage.issue.edit (·.addVertex ⟨idOf stage.issued, name, look⟩)).await
          (idOf stage.issued))
  | edge (stage : Stage) (name : String) (look : Look) {source target : String}
      (hsource : source ∈ stage.ready) (htarget : target ∈ stage.frame.waiting) :
      Move idOf stage
        (stage.issue.edit (·.addEdge ⟨idOf stage.issued, name, source, target, look⟩))
  | settle (stage : Stage) {id : String} {rest : List String}
      (h : stage.frame.waiting = id :: rest) :
      Move idOf stage
        { stage with frame := { stage.frame with waiting := rest }, ready := id :: stage.ready }
  | refer (stage : Stage) {path : Path} {id : String}
      (h : stage.frame.scope.resolve Contents.variableIds stage.outerScopes path = some id) :
      Move idOf stage { stage with ready := id :: stage.ready }
  | drop (stage : Stage) {kept : List String} (h : kept ⊆ stage.ready) :
      Move idOf stage { stage with ready := kept }
  | bind (stage : Stage) {id : String} (h : id ∈ stage.ready) (name : String)
      (look : Option Look) :
      Move idOf stage
        (stage.edit fun contents => (contents.bindVariable name id).setVariableLook name look)
  | adorn (stage : Stage) (adornment : Adornment) :
      Move idOf stage (stage.edit adornment.apply)
  | enter (stage : Stage) (name : String) (look : Look) :
      Move idOf stage
        { stage with
          issued := stage.issued + 1
          frame := ⟨.ofContents { id := idOf stage.issued, name := name, look := look }, []⟩
          outer := stage.frame :: stage.outer
          ready := [] }
  | leave (stage : Stage) {around : Frame} {further : List Frame}
      (hwaiting : stage.frame.waiting = []) (h : stage.outer = around :: further) :
      Move idOf stage
        { stage with
          frame := ⟨around.scope.attach stage.frame.scope,
            stage.frame.scope.id :: around.waiting⟩
          outer := further
          ready := [] }
  | suspend (stage : Stage) :
      Move idOf stage
        { Stage.start idOf stage.issued stage.shelf with
          callers := (stage.frame, stage.outer) :: stage.callers }
  | resume (stage : Stage) {frame : Frame} {outer : List Frame}
      {callers : List (Frame × List Frame)} (hwaiting : stage.frame.waiting = [])
      (houter : stage.outer = []) (h : stage.callers = (frame, outer) :: callers) :
      Move idOf stage
        { issued := stage.issued
          shelf := stage.frame.scope :: stage.shelf
          frame := frame
          outer := outer
          callers := callers }
  | adopt (stage : Stage) {package : Scope} (h : package ∈ stage.shelf) (name : String) :
      Move idOf stage
        { stage.issue.withScope
            (stage.frame.scope.attach (Stage.relabel package (idOf stage.issued) name)) with
          ready := idOf stage.issued :: stage.ready }
  | absorb (stage : Stage) {package : Scope} (h : package ∈ stage.shelf) :
      Move idOf stage (stage.withScope (stage.frame.scope.merge package.copy))

abbrev Run (idOf : Nat → String) : Stage → Stage → Prop :=
  Relation.ReflTransGen (Move idOf)

/-- The stages of a session: texts are compiled one after the other, and what is finished
stays at hand for those that follow. -/
inductive Reachable (idOf : Nat → String) : Stage → Prop
  | first (issued : Nat) : Reachable idOf (.start idOf issued [])
  | move {stage next : Stage} (h : Reachable idOf stage) (hmove : Move idOf stage next) :
      Reachable idOf next
  | next {stage : Stage} (h : Reachable idOf stage) :
      Reachable idOf (.start idOf stage.issued stage.shelf)

theorem Reachable.run {idOf : Nat → String} {stage next : Stage} (h : Reachable idOf stage)
    (hrun : Run idOf stage next) : Reachable idOf next := by
  induction hrun with
  | refl => exact h
  | tail _ hmove ih => exact ih.move hmove

end RecipeGraph.Compile
