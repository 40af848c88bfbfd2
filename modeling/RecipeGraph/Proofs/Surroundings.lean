import RecipeGraph.Proofs.SideBySide
import RecipeGraph.Proofs.Sessions

/-!
Where statements stand in a recipe: among others, in a nested scope that itself stands among others,
and so on outwards. Lowering arrives at them by way of all that stands before, and departs from
them with whatever was made of them.
-/
namespace RecipeGraph

open RecipeGraph.Graph Recipe Package

namespace Recipe

/-- A nested scope without its statements, and what stands before and after it. -/
structure Enclosure where
  before : List Node
  /-- The variables that are bound to the scope, if it stands on the right of an assignment. -/
  binding : Option (List Node × Option Span)
  name : String
  bodyExtent : Option Span
  args : List Node
  argsExtent : Option Span
  styling : Option Node
  extent : Option Span
  after : List Node

namespace Enclosure

def scope (enclosure : Enclosure) (body : List Node) : Node :=
  .scope enclosure.name body enclosure.bodyExtent enclosure.args enclosure.argsExtent
    enclosure.styling enclosure.extent

def statement (enclosure : Enclosure) (body : List Node) : Node :=
  match enclosure.binding with
  | none => enclosure.scope body
  | some (targets, place) => .assignment targets (some (enclosure.scope body)) place

end Enclosure

/-- Statements in scopes within scopes, which are listed from the outside in. -/
def surround : List Enclosure → List Node → List Node
  | [], inner => inner
  | enclosure :: rest, inner =>
      enclosure.before ++ enclosure.statement (surround rest inner) :: enclosure.after

end Recipe

namespace Compile

section Lowering

variable (setting : Setting)

/-- The work when the nested scope is about to be opened. -/
def approach (outer : List Scope) (enclosure : Enclosure) (work : Work) : Work :=
  let reached := lowerAll setting outer enclosure.before work
  match enclosure.binding with
  | none => reached
  | some (targets, place) => prepareTargets outer targets place reached

/-- The work in the nested scope before its first statement. -/
def openUp (outer : List Scope) (enclosure : Enclosure) (work : Work) : Work :=
  enter setting (work.scope :: outer) (some (setting.idOf work.world.issued)) enclosure.name
    enclosure.styling (work.freshId setting).2

/-- The work when the nested scope is done, with all that stands after it. -/
def closeUp (outer : List Scope) (enclosure : Enclosure) (work inside : Work) : Work :=
  let id := setting.idOf work.world.issued
  let fed := feed setting outer id enclosure.args
    { inside with scope := work.scope.attach inside.scope }
  lowerAll setting outer enclosure.after <|
    match enclosure.binding with
    | none => fed
    | some (targets, _) => bindTargets targets (some id) fed

/-- Where the innermost statements are lowered: the scopes around, and the work before them. -/
def arrive : List Enclosure → List Scope → Work → List Scope × Work
  | [], outer, work => (outer, work)
  | enclosure :: rest, outer, work =>
      let reached := approach setting outer enclosure work
      arrive rest (reached.scope :: outer) (openUp setting outer enclosure reached)

/-- What comes of all the statements around, given what has come of the innermost ones. -/
def depart : List Enclosure → List Scope → Work → Work → Work
  | [], _, _, inside => inside
  | enclosure :: rest, outer, work, inside =>
      let reached := approach setting outer enclosure work
      closeUp setting outer enclosure reached
        (depart rest (reached.scope :: outer) (openUp setting outer enclosure reached) inside)

theorem lowerAll_enclosed (outer : List Scope) (enclosure : Enclosure) (body : List Node)
    (work : Work) :
    lowerAll setting outer (enclosure.before ++ enclosure.statement body :: enclosure.after) work =
      let reached := approach setting outer enclosure work
      closeUp setting outer enclosure reached
        (lowerAll setting (reached.scope :: outer) body
          (openUp setting outer enclosure reached)) := by
  rw [lowerAll_append, lowerAll]
  unfold approach closeUp Enclosure.statement
  cases enclosure.binding with
  | none => rfl
  | some binding => rfl

theorem lowerAll_surround (enclosures : List Enclosure) (outer : List Scope) (work : Work)
    (inner : List Node) :
    lowerAll setting outer (surround enclosures inner) work =
      depart setting enclosures outer work
        (lowerAll setting (arrive setting enclosures outer work).1 inner
          (arrive setting enclosures outer work).2) := by
  induction enclosures generalizing outer work with
  | nil => rfl
  | cons enclosure rest ih =>
    rw [surround, lowerAll_enclosed]
    dsimp only
    rw [ih, depart, arrive]

theorem lowerRecipe_surround (enclosures : List Enclosure) (first second : List Node)
    (world : World) :
    lowerRecipe setting (surround enclosures (first ++ second)) world =
      let place := arrive setting enclosures [] (opening setting world)
      depart setting enclosures [] (opening setting world)
        (lowerAll setting place.1 second (lowerAll setting place.1 first place.2)) := by
  dsimp only
  rw [← lowerAll_append]
  exact lowerAll_surround setting enclosures [] (opening setting world) (first ++ second)

end Lowering

section SideBySide

/-- What is abreast at the beginning is abreast in the innermost scope. -/
theorem Tandem.Abreast.arrive {tandem : Tandem} (hlawful : tandem.Lawful)
    (enclosures : List Enclosure) {outer outer' : List Scope}
    (houter : List.Forall₂ tandem.differ outer outer') {work work' : Work}
    (h : tandem.Abreast work work') :
    tandem.Abreast (arrive tandem.setting enclosures outer work).2
      (arrive tandem.setting enclosures outer' work').2 := by
  induction enclosures generalizing outer outer' work work' with
  | nil => exact h
  | cons enclosure rest ih =>
    have hreached : tandem.Abreast (approach tandem.setting outer enclosure work)
        (approach tandem.setting outer' enclosure work') := by
      have hbefore := (statements hlawful).all enclosure.before houter h
      unfold approach
      cases enclosure.binding with
      | none => exact hbefore
      | some binding => exact hbefore.prepareTargets hlawful houter binding.1 binding.2
    rw [Compile.arrive, Compile.arrive]
    refine ih (.cons hreached.scope houter) ?_
    unfold openUp
    rw [hlawful.issued hreached.world]
    exact (hreached.freshId hlawful).abreast.enter hlawful (.cons hreached.scope houter) _ _ _

/-- What is abreast in the innermost scope stays abreast to the end. -/
theorem Tandem.Abreast.depart {tandem : Tandem} (hlawful : tandem.Lawful)
    (enclosures : List Enclosure) {outer : List Scope} {work inside inside' : Work}
    (h : tandem.Abreast inside inside') :
    tandem.Abreast (depart tandem.setting enclosures outer work inside)
      (depart tandem.setting enclosures outer work inside') := by
  induction enclosures generalizing outer work with
  | nil => exact h
  | cons enclosure rest ih =>
    rw [Compile.depart, Compile.depart]
    generalize approach tandem.setting outer enclosure work = reached
    let opened := openUp tandem.setting outer enclosure reached
    have hinside : tandem.Abreast
        (Compile.depart tandem.setting rest (reached.scope :: outer) opened inside)
        (Compile.depart tandem.setting rest (reached.scope :: outer) opened inside') := ih
    have hleft := hinside.leave hlawful (hlawful.harmless.same reached.scope)
    have hfed := hleft.feed hlawful (hlawful.same_around outer)
      (tandem.setting.idOf reached.world.issued) enclosure.args
    unfold closeUp
    refine (statements hlawful).all enclosure.after (hlawful.same_around outer) ?_
    cases enclosure.binding with
    | none => exact hfed
    | some binding => exact hfed.bindAll hlawful _ _ binding.1

end SideBySide

section Moves

variable {setting : Setting} (hne : ∀ n, setting.idOf n ≠ "")
  (hloader : ∀ loader, setting.loader = some loader → LoadsByMoves setting.idOf loader)

include hne hloader

theorem approach_reaches {outer : List Scope} {stage : Stage} {work : Work}
    (houter : stage.outerScopes = outer) (hstocked : Stocked stage.shelf work.world)
    (enclosure : Enclosure) :
    Reaches setting.idOf stage work [] (approach setting outer enclosure work) [] := by
  have hbefore := (statements_reach hne hloader).all enclosure.before outer stage work houter
    hstocked
  unfold approach
  cases enclosure.binding with
  | none => exact hbefore
  | some binding =>
    exact hbefore.trans fun shelf hshelf =>
      (Continues.of_quiet (quiet_prepareTargets outer binding.1 binding.2 _)).reaches hshelf

theorem closeUp_reaches {outer : List Scope} {stage : Stage} {work inside : Work}
    (houter : stage.outerScopes = outer) (hstocked : Stocked stage.shelf inside.world)
    (enclosure : Enclosure) (hid : inside.scope.id = setting.idOf work.world.issued) :
    ∃ shelf, Run setting.idOf ((stage.inside work).showing inside [])
        ({ stage with shelf := shelf }.showing (closeUp setting outer enclosure work inside) []) ∧
      Stocked shelf (closeUp setting outer enclosure work inside).world ∧
      (closeUp setting outer enclosure work inside).scope.id = work.scope.id := by
  subst houter
  obtain ⟨hleave, hcache, hsame⟩ := leave_run setting stage work enclosure.args hid
  unfold closeUp
  dsimp only
  generalize feed setting stage.outerScopes _ enclosure.args _ = fed at *
  have hbound : Reaches setting.idOf stage fed [setting.idOf work.world.issued]
      (match enclosure.binding with
        | none => fed
        | some (targets, _) => bindTargets targets (some (setting.idOf work.world.issued)) fed)
      [] := by
    cases enclosure.binding with
    | none => exact (Continues.drop (List.nil_subset _)).reaches (hstocked.congr hcache)
    | some binding =>
      obtain ⟨targets, place⟩ := binding
      exact (bindTargets_continues targets (some (setting.idOf work.world.issued)) fed).reaches
        (hstocked.congr hcache)
  obtain ⟨shelf, hrun, hshelf, hafter⟩ := hbound.trans fun shelf hshelf =>
    (statements_reach hne hloader).all enclosure.after stage.outerScopes
      { stage with shelf := shelf } _ rfl hshelf
  exact ⟨shelf, hleave.trans hrun, hshelf, hafter.trans hsame⟩

/-- Moves lead from the beginning to the innermost statements, and on from whatever comes of
them. -/
theorem surroundings_run (enclosures : List Enclosure) {outer : List Scope} {stage : Stage}
    {work : Work} (houter : stage.outerScopes = outer) (hstocked : Stocked stage.shelf work.world) :
    let place := arrive setting enclosures outer work
    ∃ inner : Stage, inner.outerScopes = place.1 ∧ inner.callers = stage.callers ∧
      Stocked inner.shelf place.2.world ∧
      Run setting.idOf (stage.showing work []) (inner.showing place.2 []) ∧
      ∀ (shelf : List Scope) (inside : Work), Stocked shelf inside.world →
        inside.scope.id = place.2.scope.id →
        ∃ shelf', Run setting.idOf ({ inner with shelf := shelf }.showing inside [])
            ({ stage with shelf := shelf' }.showing
              (depart setting enclosures outer work inside) []) ∧
          Stocked shelf' (depart setting enclosures outer work inside).world ∧
          (depart setting enclosures outer work inside).scope.id = work.scope.id := by
  induction enclosures generalizing outer stage work with
  | nil =>
    exact ⟨stage, houter, rfl, hstocked, .refl,
      fun shelf _ hshelf hid => ⟨shelf, .refl, hshelf, hid⟩⟩
  | cons enclosure rest ih =>
    obtain ⟨shelf, hbefore, hshelf, hkept⟩ := approach_reaches hne hloader houter hstocked enclosure
    rw [arrive]
    simp only [depart]
    generalize approach setting outer enclosure work = reached at *
    let begun : Stage := { stage with shelf := shelf }
    have henter := enter_run setting hne begun enclosure.name enclosure.styling reached
    have hgiven := quiet_enter setting (reached.scope :: outer) (hne reached.world.issued)
      enclosure.name enclosure.styling (reached.freshId setting).2
    have hopened : (openUp setting outer enclosure reached).world.cache = reached.world.cache := by
      unfold openUp
      rw [hgiven.world]
      rfl
    have hnew : (openUp setting outer enclosure reached).scope.id =
        setting.idOf reached.world.issued := by
      unfold openUp
      rw [hgiven.scope]
      rfl
    subst houter
    have houter' : (begun.inside reached).outerScopes = reached.scope :: stage.outerScopes := rfl
    obtain ⟨inner, hinner, hcallers, hstocked', hrun, hclose⟩ := ih houter' (hshelf.congr hopened)
    refine ⟨inner, hinner, hcallers, hstocked', (hbefore.trans henter).trans hrun, ?_⟩
    intro shelf' inside hinside hid
    obtain ⟨shelf'', hback, hshelf'', hsame⟩ := hclose shelf' inside hinside hid
    have hsame' : { stage with shelf := shelf'' }.outerScopes = stage.outerScopes := rfl
    obtain ⟨last, hleave, hlast, hafter⟩ :=
      closeUp_reaches hne hloader hsame' hshelf'' enclosure (hsame.trans hnew)
    exact ⟨last, hback.trans hleave, hlast, hafter.trans hkept⟩

end Moves

end Compile

end RecipeGraph
