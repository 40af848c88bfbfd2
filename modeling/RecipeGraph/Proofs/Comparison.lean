import RecipeGraph.Proofs.Meaning

/-!
A text is lowered in the course of other things, and a second time by itself. On the one side
packages are loaded, which may take any number of ids. On the other one they take none of the ids
of the text. The second scope is the first one all along, if the ids are read by the ledger.
-/
namespace RecipeGraph.Compile

open RecipeGraph.Graph Recipe Package
open Work (Later)

/-- A text among other things, and by itself. -/
structure Comparison where
  setting : Setting
  owner : Owner
  /-- The text by itself, with the ids of its owner. -/
  second : Setting
  /-- What is known of both worlds. -/
  current : Ledger → World → World → Prop

namespace Comparison

abbrev idOf (comparison : Comparison) : Nat → String :=
  comparison.setting.idOf

structure Lawful (comparison : Comparison) : Prop where
  injective : Function.Injective comparison.idOf
  given : ∀ n, comparison.idOf n ≠ ""
  own : ∀ n, comparison.second.idOf n = ownId (comparison.owner, n)
  one : ∀ {ledger world world'}, comparison.current ledger world world' →
    Function.Injective ledger
  /-- The owner can be given the numbers that come next. -/
  assign : ∀ {ledger world world'}, comparison.current ledger world world' →
    Present world comparison.owner → ∀ {place count},
    (∀ n j, ledger n = (comparison.owner, j) → j < place) → ∀ {after after' : World},
    after.issued = world.issued + count → after.cache = world.cache →
    after'.cache = world'.cache →
    comparison.current (ledger.assign comparison.owner world.issued place count) after after' ∧
      Extends comparison.owner ledger (ledger.assign comparison.owner world.issued place count)
        world after

/-- The two sides at the same statement. -/
structure Tracks (comparison : Comparison) (ledger : Ledger) (outer outer' : List Scope)
    (work work' : Work) : Prop where
  current : comparison.current ledger work.world work'.world
  present : Present work.world comparison.owner
  places : ∀ n j, ledger n = (comparison.owner, j) → j < work'.world.issued
  placed : Placed comparison.idOf 0 outer work.world.issued work.scope
  scope : work'.scope = work.scope.rename (ledger.rename comparison.idOf)
  outer : outer' = outer.map (Scope.rename (ledger.rename comparison.idOf))
  diagnostics : work.diagnostics = work'.diagnostics

/-- The two sides when the same came of something. -/
structure Yields (comparison : Comparison) (ledger : Ledger) (outer outer' : List Scope)
    (lowered lowered' : Option String × Work) : Prop where
  tracks : comparison.Tracks ledger outer outer' lowered.2 lowered'.2
  value : lowered'.1 = lowered.1.map (ledger.rename comparison.idOf)
  since : ∀ id ∈ lowered.1, Since comparison.idOf 0 lowered.2.world.issued id

/-- The sides go on to what they are after something, and the ledger is written on. -/
def Reaches (comparison : Comparison) (ledger : Ledger) (outer outer' : List Scope)
    (work after after' : Work) : Prop :=
  ∃ ledger', Extends comparison.owner ledger ledger' work.world after.world ∧
    comparison.Tracks ledger' outer outer' after after'

/-- The sides go on, and the same came of it. -/
def Gains (comparison : Comparison) (ledger : Ledger) (outer outer' : List Scope) (work : Work)
    (lowered lowered' : Option String × Work) : Prop :=
  ∃ ledger', Extends comparison.owner ledger ledger' work.world lowered.2.world ∧
    comparison.Yields ledger' outer outer' lowered lowered'

/-- The loaders bring in the same, and the second one takes none of the ids of the text. -/
def Supplies (comparison : Comparison) (loader loader' : Loader) (location : String) : Prop :=
  ∀ ledger world world', comparison.current ledger world world' →
    ∃ ledger',
      comparison.current ledger' (loader location comparison.setting.chain world).2
        (loader' location comparison.second.chain world').2 ∧
      Extends .nobody ledger ledger' world (loader location comparison.setting.chain world).2 ∧
      (loader' location comparison.second.chain world').2.issued = world'.issued ∧
      Reads comparison.idOf ledger' (loader location comparison.setting.chain world).2.issued
        (loader location comparison.setting.chain world).1
        (loader' location comparison.second.chain world').1

/-- The ledger when the ids that the second side gave out are written to the owner. -/
def written (comparison : Comparison) (ledger : Ledger) (work work' after' : Work) : Ledger :=
  ledger.assign comparison.owner work.world.issued work'.world.issued
    (after'.world.issued - work'.world.issued)

/-- As long as no packages come in, the sides give out their ids in step. -/
noncomputable def echo (comparison : Comparison) (ledger : Ledger) (work work' after' : Work) :
    Pairing where
  first := comparison.setting
  second := comparison.second
  rename := (comparison.written ledger work work' after').rename comparison.idOf
  silent := False
  ahead := []
  base := 0
  start := work.world.issued
  start' := work'.world.issued
  bound := after'.world.issued

variable {comparison : Comparison} {ledger ledger' : Ledger} {outer outer' : List Scope}
  {work work' after after' : Work}

section Echo

theorem written_kept (comparison : Comparison) (ledger : Ledger) (work work' after' : Work) :
    ∀ n < work.world.issued, comparison.written ledger work work' after' n = ledger n :=
  fun _ => Ledger.assign_of_lt

theorem calm_echo : (comparison.echo ledger work work' after').Calm after' :=
  ⟨fun hfalse => hfalse.elim, Nat.le_refl _⟩

variable (hlawful : comparison.Lawful)
  (h : comparison.Tracks ledger outer outer' work work')

include hlawful h

theorem Tracks.lawful_echo (after' : Work) : (comparison.echo ledger work work' after').Lawful where
  injective :=
    Ledger.rename_injective hlawful.injective
      (Ledger.assign_injective h.places (hlawful.one h.current))
  empty := Ledger.rename_empty hlawful.given
  distinct := hlawful.injective
  given := hlawful.given
  given' n := by
    change comparison.second.idOf n ≠ ""
    rw [hlawful.own]
    exact ownId_ne_empty _
  supply n hn := by
    have hcount : n < after'.world.issued - work'.world.issued := by
      change work'.world.issued + n < after'.world.issued at hn
      omega
    refine (Ledger.rename_idOf hlawful.injective _).trans (.trans ?_ (hlawful.own _).symm)
    exact congrArg ownId (Ledger.assign_at hcount)

theorem Tracks.scope_echo :
    work'.scope = work.scope.rename (comparison.echo ledger work work' after').rename := by
  have hkept := Ledger.rename_kept hlawful.injective
    (written_kept comparison ledger work work' after')
    h.placed.here
  exact h.scope.trans hkept.symm

theorem Tracks.outer_echo :
    outer' =
      outer.map (Scope.rename (comparison.echo ledger work work' after').rename) := by
  have hkept := Ledger.rename_all_kept hlawful.injective
    (written_kept comparison ledger work work' after')
    h.placed.around
  exact h.outer.trans hkept.symm

theorem Tracks.bond_echo :
    Bond (comparison.echo ledger work work' after') outer outer'
      (Mirrored (comparison.echo ledger work work' after').rename Eq work.scope.id) := by
  have hbond := bond_mirrored (h.lawful_echo hlawful after').injective
    Scope.unseen_eq outer work.scope.id
  rw [← h.outer_echo hlawful] at hbond
  exact hbond

theorem Tracks.begin_echo (after' : Work) :
    InStep (comparison.echo ledger work work' after') outer
      (Mirrored (comparison.echo ledger work work' after').rename Eq work.scope.id)
      work.scope.children.length work work' :=
  ⟨⟨0, rfl, rfl⟩, h.placed, ⟨(h.scope_echo hlawful).symm, rfl⟩, h.diagnostics, rfl⟩

/-- What was done in step is entered in the ledger, be it in the same scope or in another one. -/
theorem Tracks.follow {inner inner' : List Scope} {related : Scope → Scope → Prop} {count : Nat}
    (hafter : InStep (comparison.echo ledger work work' after') inner related count after after')
    (hrelated : related after.scope after'.scope → after'.scope =
      after.scope.rename (comparison.echo ledger work work' after').rename)
    (hinner : inner' =
      inner.map (Scope.rename (comparison.echo ledger work work' after').rename))
    (hlater : Later work after) (hlater' : Later work' after') :
    Extends comparison.owner ledger (comparison.written ledger work work' after') work.world
        after.world ∧
      comparison.Tracks (comparison.written ledger work work' after') inner inner' after
        after' := by
  obtain ⟨n, hn, hn'⟩ := hafter.pace
  change after.world.issued = work.world.issued + n at hn
  change after'.world.issued = work'.world.issued + n at hn'
  have hcount : after.world.issued =
      work.world.issued + (after'.world.issued - work'.world.issued) := by
    omega
  obtain ⟨hcurrent, hextends⟩ :=
    hlawful.assign h.current h.present h.places hcount hlater.cache hlater'.cache
  refine ⟨hextends, hcurrent, h.present.mono hextends.cached, ?_, hafter.placed,
    hrelated hafter.related, hinner, hafter.diagnostics⟩
  intro m j hentry
  have hplace := Ledger.assign_places h.places hentry
  omega

/-- What keeps the sides in step gives the same on both of them. -/
theorem Tracks.step {lowered lowered' : Option String × Work}
    (hlater : Later work lowered.2) (hlater' : Later work' lowered'.2)
    (hgives : ∀ pairing : Pairing, pairing = comparison.echo ledger work work' lowered'.2 →
      pairing.Lawful → Bond pairing outer outer' (Mirrored pairing.rename Eq work.scope.id) →
      InStep pairing outer (Mirrored pairing.rename Eq work.scope.id)
        work.scope.children.length work work' → pairing.Calm lowered'.2 →
      ∃ count,
        Gives pairing outer (Mirrored pairing.rename Eq work.scope.id) count lowered lowered') :
    comparison.Gains ledger outer outer' work lowered lowered' := by
  obtain ⟨count, hgiven⟩ := hgives _ rfl (h.lawful_echo hlawful _) (h.bond_echo hlawful)
    (h.begin_echo hlawful _) calm_echo
  obtain ⟨hextends, htracks⟩ := h.follow hlawful hgiven.inStep (fun hsame => hsame.same.symm)
    (h.outer_echo hlawful) hlater hlater'
  exact ⟨_, hextends, htracks, hgiven.value, hgiven.since⟩

end Echo

section Pieces

theorem Gains.reaches {lowered lowered' : Option String × Work}
    (h : comparison.Gains ledger outer outer' work lowered lowered') :
    comparison.Reaches ledger outer outer' work lowered.2 lowered'.2 := by
  obtain ⟨ledger', hextends, hyields⟩ := h
  exact ⟨ledger', hextends, hyields.tracks⟩

theorem Reaches.trans (h : comparison.Reaches ledger outer outer' work after after')
    {last last' : Work}
    (hon : ∀ ledger', comparison.Tracks ledger' outer outer' after after' →
      comparison.Reaches ledger' outer outer' after last last') :
    comparison.Reaches ledger outer outer' work last last' := by
  obtain ⟨middle, hextends, htracks⟩ := h
  obtain ⟨ledger', hextends', htracks'⟩ := hon middle htracks
  exact ⟨ledger', hextends.trans hextends', htracks'⟩

theorem Reaches.gains (h : comparison.Reaches ledger outer outer' work after after')
    {lowered lowered' : Option String × Work}
    (hon : ∀ ledger', comparison.Tracks ledger' outer outer' after after' →
      comparison.Gains ledger' outer outer' after lowered lowered') :
    comparison.Gains ledger outer outer' work lowered lowered' := by
  obtain ⟨middle, hextends, htracks⟩ := h
  obtain ⟨ledger', hextends', hyields⟩ := hon middle htracks
  exact ⟨ledger', hextends.trans hextends', hyields⟩

variable (hlawful : comparison.Lawful)
  (h : comparison.Tracks ledger outer outer' work work')

include hlawful h

/-- What keeps the sides in step leads on, whatever came of it. -/
theorem Tracks.go (hlater : Later work after) (hlater' : Later work' after')
    (hafter : ∀ pairing : Pairing, pairing = comparison.echo ledger work work' after' →
      pairing.Lawful → Bond pairing outer outer' (Mirrored pairing.rename Eq work.scope.id) →
      InStep pairing outer (Mirrored pairing.rename Eq work.scope.id)
        work.scope.children.length work work' → pairing.Calm after' →
      ∃ count,
        InStep pairing outer (Mirrored pairing.rename Eq work.scope.id) count after after') :
    comparison.Reaches ledger outer outer' work after after' := by
  obtain ⟨count, hstep⟩ := hafter _ rfl (h.lawful_echo hlawful _) (h.bond_echo hlawful)
    (h.begin_echo hlawful _) calm_echo
  exact ⟨_, h.follow hlawful hstep (fun hsame => hsame.same.symm) (h.outer_echo hlawful)
    hlater hlater'⟩

theorem Tracks.prepareTargets (targets : List Node) (extent : Option Span) :
    comparison.Reaches ledger outer outer' work (prepareTargets outer targets extent work)
      (prepareTargets outer' targets extent work') := by
  refine h.go hlawful (quiet_prepareTargets outer targets extent work).later
    (quiet_prepareTargets outer' targets extent work').later ?_
  exact fun _ _ _ bond hstep hcalm => ⟨_, hstep.prepareTargets bond targets extent hcalm⟩

/-- A statement without packages. -/
theorem Tracks.plain (node : Node) (himports : node.locations = []) :
    comparison.Reaches ledger outer outer' work (lower comparison.setting outer node work)
      (lower comparison.second outer' node work') := by
  have hknown : ∀ location ∈ node.locations, False := by
    rw [himports]
    exact fun _ hnone => nomatch hnone
  refine h.go hlawful ((statements_later comparison.setting).one node hknown outer work)
    ((statements_later comparison.second).one node hknown outer' work') ?_
  rintro _ rfl hpairing bond hstep hcalm
  exact ⟨_, (statements_in_step hpairing).one node himports bond _ _ _ hstep hcalm⟩

/-- A value without packages. -/
theorem Tracks.plainValue (value : Node) (himports : Node.locationsOfValue (some value) = []) :
    comparison.Gains ledger outer outer' work (lowerValue comparison.setting outer value work)
      (lowerValue comparison.second outer' value work') := by
  refine h.step hlawful (lowerValue_later comparison.setting value himports outer work)
    (lowerValue_later comparison.second value himports outer' work') ?_
  rintro _ rfl hpairing bond hstep hcalm
  exact ⟨_, (statements_in_step hpairing).value value himports bond _ _ _ hstep hcalm⟩

/-- An element with its arguments. -/
theorem Tracks.feed {id id' : String} (hid : Since comparison.idOf 0 work.world.issued id)
    (hsame : ledger.rename comparison.idOf id = id') (args : List Node) :
    comparison.Gains ledger outer outer' work
      (some id, feed comparison.setting outer id args work)
      (some id', feed comparison.second outer' id' args work') := by
  refine h.step hlawful (growth_later.feed comparison.setting outer id args work)
    (growth_later.feed comparison.second outer' id' args work') ?_
  rintro _ rfl hpairing bond hstep hcalm
  refine ⟨_, hstep.gives bond hpairing args hid ?_ hcalm⟩
  exact (Ledger.rename_kept_id hlawful.injective (written_kept _ _ _ _ _) hid).trans hsame

end Pieces

section Values

variable (hlawful : comparison.Lawful)

include hlawful

theorem Yields.bindTargets {lowered lowered' : Option String × Work}
    (h : comparison.Yields ledger outer outer' lowered lowered') (targets : List Node) :
    comparison.Reaches ledger outer outer' lowered.2 (bindTargets targets lowered.1 lowered.2)
      (bindTargets targets lowered'.1 lowered'.2) := by
  refine h.tracks.go hlawful (growth_later.bindTargets targets _ _)
    (growth_later.bindTargets targets _ _) ?_
  rintro _ rfl hpairing bond hstep hcalm
  have hvalue : lowered'.1 = lowered.1.map
      ((comparison.written ledger lowered.2 lowered'.2
        (Compile.bindTargets targets lowered'.1 lowered'.2)).rename comparison.idOf) := by
    rw [h.value]
    refine Option.map_congr fun id hid => ?_
    exact (Ledger.rename_kept_id hlawful.injective (written_kept _ _ _ _ _)
      (h.since id hid)).symm
  have hbound := hstep.bindTargets bond h.since targets
  change InStep _ _ _ _ _ (Compile.bindTargets targets (lowered.1.map
    ((comparison.written ledger lowered.2 lowered'.2
      (Compile.bindTargets targets lowered'.1 lowered'.2)).rename comparison.idOf)) _) at hbound
  rw [← hvalue] at hbound
  exact ⟨_, hbound⟩

end Values

end Comparison

end RecipeGraph.Compile
