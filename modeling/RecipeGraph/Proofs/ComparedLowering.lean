import RecipeGraph.Proofs.Comparison

/-!
Lowering keeps the two sides of a comparison together, statement by statement. Only at a package
do they part for a while: the one loads it, and the other has it as it is meant.
-/
namespace RecipeGraph.Compile

open RecipeGraph.Graph Recipe Package

namespace Comparison

variable {comparison : Comparison} {ledger ledger' : Ledger} {outer outer' : List Scope}
  {work work' : Work}

section Packages

theorem Tracks.report (h : comparison.Tracks ledger outer outer' work work') (extent : Span)
    (problem : Problem) :
    comparison.Tracks ledger outer outer' (work.report extent problem)
      (work'.report extent problem) := by
  refine ⟨h.current, h.present, h.places, h.placed, h.scope, h.outer, ?_⟩
  exact congrArg (· ++ [⟨extent, problem⟩]) h.diagnostics

theorem Tracks.note (h : comparison.Tracks ledger outer outer' work work') (location : String) :
    comparison.Tracks ledger outer outer' (work.update (·.addPackage location))
      (work'.update (·.addPackage location)) := by
  have hwithin := h.placed.here
  have hown := (hwithin work.scope (Scope.self_mem_all _)).1
  refine ⟨h.current, h.present, h.places, ?_, ?_, h.outer, h.diagnostics⟩
  · refine h.placed.replace ?_ (hwithin.mapContents (hown.addPackage location))
    unfold Scope.id
    rw [Work.scope_update, Scope.contents_mapContents, Contents.addPackage_id]
  · rw [Work.scope_update, Work.scope_update, h.scope, Scope.rename_addPackage]

/-- While a package is loaded nothing happens to the scopes. -/
theorem Tracks.load (h : comparison.Tracks ledger outer outer' work work')
    (hlawful : comparison.Lawful) {world world' : World}
    (hcurrent : comparison.current ledger' world world')
    (hextends : Extends .nobody ledger ledger' work.world world)
    (hissued : world'.issued = work'.world.issued) :
    comparison.Tracks ledger' outer outer' { work with world := world }
      { work' with world := world' } where
  current := hcurrent
  present := h.present.mono hextends.cached
  places n j hentry := by
    rw [hissued]
    refine h.places n j (hextends.others _ h.present ?_ n j hentry)
    have hpresent := h.present
    intro hnobody
    rw [hnobody] at hpresent
    cases hpresent
  placed := h.placed.mono hextends.issued
  scope := h.scope.trans (Ledger.rename_kept hlawful.injective hextends.kept
    h.placed.here).symm
  outer := h.outer.trans (Ledger.rename_all_kept hlawful.injective hextends.kept
    h.placed.around).symm
  diagnostics := h.diagnostics

theorem Tracks.attach (h : comparison.Tracks ledger outer outer' work work')
    (hlawful : comparison.Lawful) {child : Scope}
    (hchild : child.Within (Since comparison.idOf 0 work.world.issued)) :
    comparison.Tracks ledger outer outer' (work.attach child)
      (work'.attach (child.rename (ledger.rename comparison.idOf))) := by
  have hinj := Ledger.rename_injective hlawful.injective (hlawful.one h.current)
  have hwithin := h.placed.here.attach hchild
  refine ⟨h.current, h.present, h.places, h.placed.replace Scope.id_attach hwithin, ?_, h.outer,
    h.diagnostics⟩
  change work'.scope.attach _ = (work.scope.attach child).rename _
  rw [Scope.rename_attach hinj, h.scope]

/-- The same package has come on both sides, or none. -/
structure Brings (comparison : Comparison) (ledger : Ledger) (outer outer' : List Scope)
    (brought brought' : Option Scope × Work) : Prop where
  tracks : comparison.Tracks ledger outer outer' brought.2 brought'.2
  package : brought'.1 = brought.1.map (Scope.rename (ledger.rename comparison.idOf))
  within : ∀ package ∈ brought.1, package.Within (Since comparison.idOf 0 brought.2.world.issued)

variable (hlawful : comparison.Lawful) {loader loader' : Loader}
  (hloader : comparison.setting.loader = some loader)
  (hloader' : comparison.second.loader = some loader') {location : String}
  (hsupplies : comparison.Supplies loader loader' location)

include hlawful hloader hloader' hsupplies

theorem Tracks.bringIn (h : comparison.Tracks ledger outer outer' work work')
    (extent : Option Span) :
    ∃ ledger', Extends comparison.owner ledger ledger' work.world
        (bringIn comparison.setting location extent work).2.world ∧
      comparison.Brings ledger' outer outer'
        (bringIn comparison.setting location extent work)
        (bringIn comparison.second location extent work') := by
  obtain ⟨ledger', hcurrent, hextends, hissued, hreads⟩ :=
    hsupplies ledger work.world work'.world h.current
  have hloaded := (h.note location).load hlawful hcurrent hextends hissued
  obtain ⟨hsame, hwithin⟩ := hreads
  rcases hload : loader location comparison.setting.chain work.world with ⟨result, world⟩
  rcases hload' : loader' location comparison.second.chain work'.world with ⟨result', world'⟩
  rw [hload, hload'] at hsame hloaded
  rw [hload] at hextends hwithin
  subst hsame
  cases result with
  | error fault =>
    rw [bringIn_failed hloader hload, bringIn_failed hloader' hload']
    exact ⟨ledger', hextends.weaken _, hloaded.report _ _, rfl, fun _ hnone => nomatch hnone⟩
  | ok package =>
    rw [bringIn_arrived hloader hload, bringIn_arrived hloader' hload']
    refine ⟨ledger', hextends.weaken _, hloaded, ?_, ?_⟩
    · exact congrArg some (Scope.rename_copy
        (Ledger.rename_injective hlawful.injective (hlawful.one hcurrent)) package).symm
    · intro copied hcopied
      rw [← Option.some.inj hcopied]
      exact (hwithin package rfl).copy

theorem Tracks.mergePackage (h : comparison.Tracks ledger outer outer' work work')
    (extent : Option Span) :
    comparison.Reaches ledger outer outer' work
      (lowerPackage comparison.setting location none extent work)
      (lowerPackage comparison.second location none extent work') := by
  obtain ⟨ledger', hextends, hbrings⟩ := h.bringIn hlawful hloader hloader' hsupplies extent
  rcases hbring : Compile.bringIn comparison.setting location extent work with
    ⟨package, after⟩
  rcases hbring' : Compile.bringIn comparison.second location extent work' with
    ⟨package', after'⟩
  rw [hbring, hbring'] at hbrings
  rw [hbring] at hextends
  obtain ⟨htracks, rfl, hwithin⟩ := hbrings
  cases package with
  | none =>
    rw [lowerPackage_absent hbring, lowerPackage_absent hbring']
    exact ⟨ledger', hextends, htracks⟩
  | some package =>
    rw [lowerPackage_present hbring, lowerPackage_present hbring']
    have hinj := Ledger.rename_injective hlawful.injective (hlawful.one htracks.current)
    have hmerged := htracks.placed.here.merge (hwithin package rfl)
    refine ⟨ledger', hextends, htracks.current, htracks.present, htracks.places, ?_, ?_,
      htracks.outer, htracks.diagnostics⟩
    · exact htracks.placed.replace (Scope.id_merge _ _) hmerged
    · change after'.scope.merge _ = (after.scope.merge package).rename _
      rw [Scope.rename_merge hinj]
      exact congrArg (Scope.merge · _) htracks.scope

omit hloader hloader' hsupplies in
theorem Tracks.freshId (h : comparison.Tracks ledger outer outer' work work') :
    comparison.Gains ledger outer outer' work
      (some (comparison.idOf work.world.issued), (work.freshId comparison.setting).2)
      (some (comparison.second.idOf work'.world.issued),
        (work'.freshId comparison.second).2) := by
  refine h.step hlawful (growth_later.freshId comparison.setting work)
    (growth_later.freshId comparison.second work') ?_
  rintro _ rfl hpairing bond hstep hcalm
  refine ⟨_, hstep.freshId, congrArg some (hstep.next hpairing hcalm).symm, ?_⟩
  intro id hid
  rw [← Option.some.inj hid]
  exact since_next _ hstep.placed.since

theorem Tracks.attachPackage (h : comparison.Tracks ledger outer outer' work work')
    (label : Option String) (extent : Option Span) :
    comparison.Gains ledger outer outer' work
      (attachPackage comparison.setting location label extent work)
      (attachPackage comparison.second location label extent work') := by
  obtain ⟨middle, hextends, hbrings⟩ := h.bringIn hlawful hloader hloader' hsupplies extent
  rcases hbring : Compile.bringIn comparison.setting location extent work with
    ⟨package, after⟩
  rcases hbring' : Compile.bringIn comparison.second location extent work' with
    ⟨package', after'⟩
  rw [hbring, hbring'] at hbrings
  rw [hbring] at hextends
  obtain ⟨htracks, rfl, hwithin⟩ := hbrings
  cases package with
  | none =>
    rw [attachPackage_absent hbring, attachPackage_absent hbring']
    exact ⟨middle, hextends, htracks, rfl, fun _ hnone => nomatch hnone⟩
  | some package =>
    rw [attachPackage_present hbring, attachPackage_present hbring']
    obtain ⟨ledger', hextends', hissued⟩ := htracks.freshId hlawful
    have hnew := Option.some.inj hissued.value
    have hsame := Ledger.rename_kept hlawful.injective hextends'.kept (hwithin package rfl)
    have hpackage := (hwithin package rfl).mono fun _ hid => hid.mono (Nat.le_succ _)
    have hown := (hpackage package (Scope.self_mem_all _)).1
    have hchild : (package.mapContents fun contents => { contents with
        id := comparison.idOf after.world.issued, name := label.getD "" }).Within
          (Since comparison.idOf 0 (after.world.issued + 1)) :=
      hpackage.mapContents (hown.relabel (hissued.since _ rfl) _)
    have hattached := hissued.tracks.attach hlawful hchild
    rw [Scope.rename_relabel, hsame, ← hnew] at hattached
    exact ⟨ledger', hextends.trans hextends', hattached, hissued.value, hissued.since⟩

end Packages

section Nested

variable (hlawful : comparison.Lawful)

include hlawful

theorem Tracks.enter (h : comparison.Tracks ledger outer outer' work work') (name : String)
    (styling : Option Node) :
    ∃ ledger', Extends comparison.owner ledger ledger' work.world
        (enter comparison.setting (work.scope :: outer) (some (comparison.idOf work.world.issued))
          name styling (work.freshId comparison.setting).2).world ∧
      comparison.Tracks ledger' (work.scope :: outer) (work'.scope :: outer')
        (enter comparison.setting (work.scope :: outer) (some (comparison.idOf work.world.issued))
          name styling (work.freshId comparison.setting).2)
        (enter comparison.second (work'.scope :: outer')
          (some (comparison.second.idOf work'.world.issued)) name styling
          (work'.freshId comparison.second).2) ∧
      ledger'.rename comparison.idOf (comparison.idOf work.world.issued) =
        comparison.second.idOf work'.world.issued := by
  have hlater := (growth_later.freshId comparison.setting work).trans
    (growth_later.enter comparison.setting (work.scope :: outer)
      (some (comparison.idOf work.world.issued)) name styling _)
  have hlater' := (growth_later.freshId comparison.second work').trans
    (growth_later.enter comparison.second (work'.scope :: outer')
      (some (comparison.second.idOf work'.world.issued)) name styling _)
  have hpairing := h.lawful_echo hlawful (Compile.enter comparison.second (work'.scope :: outer')
    (some (comparison.second.idOf work'.world.issued)) name styling
    (work'.freshId comparison.second).2)
  have hbegun := h.begin_echo hlawful (Compile.enter comparison.second (work'.scope :: outer')
    (some (comparison.second.idOf work'.world.issued)) name styling
    (work'.freshId comparison.second).2)
  have hentered := hbegun.enter (h.bond_echo hlawful) hpairing name styling calm_echo
  have hnext := hbegun.next_enter hpairing calm_echo
  obtain ⟨hextends, htracks⟩ := h.follow hlawful hentered (fun htwin => htwin.renamed)
    (congrArg₂ List.cons (h.scope_echo hlawful) (h.outer_echo hlawful)) hlater hlater'
  exact ⟨_, hextends, htracks, hnext⟩

theorem Tracks.leave {around around' : Scope}
    (h : comparison.Tracks ledger (around :: outer) (around' :: outer') work work') :
    comparison.Tracks ledger outer outer' { work with scope := around.attach work.scope }
      { work' with scope := around'.attach work'.scope } := by
  have hinj := Ledger.rename_injective hlawful.injective (hlawful.one h.current)
  have houter := h.outer
  rw [List.map_cons, List.cons.injEq] at houter
  refine ⟨h.current, h.present, h.places, h.placed.close, ?_, houter.2, h.diagnostics⟩
  dsimp only
  rw [Scope.rename_attach hinj, houter.1, h.scope]

/-- A nested scope, if its body is followed. -/
theorem Tracks.nested (h : comparison.Tracks ledger outer outer' work work') (name : String)
    (body args : List Node) (styling : Option Node)
    (hbody : ∀ ledger inside inside',
      comparison.Tracks ledger (work.scope :: outer) (work'.scope :: outer') inside inside' →
      comparison.Reaches ledger (work.scope :: outer) (work'.scope :: outer') inside
        (lowerAll comparison.setting (work.scope :: outer) body inside)
        (lowerAll comparison.second (work'.scope :: outer') body inside')) :
    comparison.Gains ledger outer outer' work
      (some (comparison.idOf work.world.issued),
        (lowerNested comparison.setting outer name body args styling work).2)
      (some (comparison.second.idOf work'.world.issued),
        (lowerNested comparison.second outer' name body args styling work').2) := by
  obtain ⟨opened, hopened, hentered, hnew⟩ := h.enter hlawful name styling
  obtain ⟨closed, hclosed, hinside⟩ := hbody opened _ _ hentered
  have hid := since_next comparison.idOf (Nat.zero_le work.world.issued)
  have hissued := (growth_later.enter comparison.setting (work.scope :: outer)
    (some (comparison.idOf work.world.issued)) name styling
    (work.freshId comparison.setting).2).issued
  have hsame := (Ledger.rename_kept_id hlawful.injective hclosed.kept (hid.mono hissued)).trans hnew
  have hfed := (hinside.leave hlawful).feed hlawful
    ((hid.mono hissued).mono hclosed.issued) hsame args
  obtain ⟨ledger', hextends, hyields⟩ := hfed
  exact ⟨ledger', (hopened.trans hclosed).trans hextends, hyields⟩

end Nested

section Statements

variable (hlawful : comparison.Lawful) {loader loader' : Loader}
  (hloader : comparison.setting.loader = some loader)
  (hloader' : comparison.second.loader = some loader')

include hlawful hloader hloader'

theorem statements_tracked (known : String → Prop)
    (hsupplies : ∀ location, known location → comparison.Supplies loader loader' location) :
    Node.StatementCases
      (fun value => (∀ location ∈ Node.locationsOfValue (some value), known location) →
        ∀ ledger outer outer' work work', comparison.Tracks ledger outer outer' work work' →
        comparison.Gains ledger outer outer' work
          (lowerValue comparison.setting outer value work)
          (lowerValue comparison.second outer' value work'))
      (fun node => (∀ location ∈ node.locations, known location) →
        ∀ ledger outer outer' work work', comparison.Tracks ledger outer outer' work work' →
        comparison.Reaches ledger outer outer' work (lower comparison.setting outer node work)
          (lower comparison.second outer' node work'))
      (fun nodes => (∀ location ∈ Node.locationsOfAll nodes, known location) →
        ∀ ledger outer outer' work work', comparison.Tracks ledger outer outer' work work' →
        comparison.Reaches ledger outer outer' work
          (lowerAll comparison.setting outer nodes work)
          (lowerAll comparison.second outer' nodes work')) where
  call name args styling extent _ ledger outer outer' work work' h :=
    h.plainValue hlawful _ rfl
  scope name body bodyExtent args argsExtent styling extent hbody hknown ledger outer outer' work
      work' h := by
    rw [lowerValue_scope, lowerValue_scope]
    exact h.nested hlawful name body args styling
      fun ledger inside inside' hinside => hbody hknown ledger _ _ inside inside' hinside
  package location label extent hknown ledger outer outer' work work' h :=
    h.attachPackage hlawful hloader hloader'
      (hsupplies location (hknown location (List.mem_singleton_self _))) label extent
  unbuilt node hnode _ ledger outer outer' work work' h :=
    h.plainValue hlawful node (Node.locationsOfValue_unbuilt hnode)
  bareCall name args styling extent _ _ ledger outer outer' work work' h :=
    h.plain hlawful _ rfl
  bareScope name body bodyExtent args argsExtent styling extent hvalue hknown ledger outer outer'
      work work' h := by
    rw [lower_scope, lower_scope]
    exact (hvalue hknown ledger outer outer' work work' h).reaches
  barePackage location label extent hknown ledger outer outer' work work' h := by
    have hlocation := hsupplies location (hknown location (List.mem_singleton_self _))
    rw [lower_package, lower_package]
    cases label with
    | none => exact h.mergePackage hlawful hloader hloader' hlocation extent
    | some name =>
      exact (h.attachPackage hlawful hloader hloader' hlocation (some name) extent).reaches
  reference path extent _ ledger outer outer' work work' h := h.plain hlawful _ rfl
  incomplete targets extent _ ledger outer outer' work work' h := h.plain hlawful _ rfl
  synonym targets path place extent _ ledger outer outer' work work' h := h.plain hlawful _ rfl
  assigned targets value extent hvariable hvalue hknown ledger outer outer' work work' h := by
    rw [lower_assigned _ _ _ _ _ hvariable, lower_assigned _ _ _ _ _ hvariable]
    have hready := h.prepareTargets hlawful targets extent
    obtain ⟨middle, hextends, hyields⟩ := hready.gains fun ledger' hprepared =>
      hvalue hknown ledger' outer outer' _ _ hprepared
    obtain ⟨ledger', hbound, htracks⟩ := hyields.bindTargets hlawful targets
    exact ⟨ledger', hextends.trans hbound, htracks⟩
  namedStyle name style extent _ ledger outer outer' work work' h := h.plain hlawful _ rfl
  styleBinding keyword tags extent _ ledger outer outer' work work' h := h.plain hlawful _ rfl
  other node hnode _ ledger outer outer' work work' h :=
    h.plain hlawful node (Node.locations_other hnode)
  nil _ ledger outer outer' work work' h := by
    rw [lowerAll, lowerAll]
    exact ⟨ledger, .refl _ _ _, h⟩
  cons node rest hnode hrest hknown ledger outer outer' work work' h := by
    have hfirst : ∀ location ∈ node.locations, known location :=
      fun location hin => hknown location (List.mem_append_left _ hin)
    have hothers : ∀ location ∈ Node.locationsOfAll rest, known location :=
      fun location hin => hknown location (List.mem_append_right _ hin)
    rw [lowerAll, lowerAll]
    exact (hnode hfirst ledger outer outer' work work' h).trans
      fun ledger' hone => hrest hothers ledger' outer outer' _ _ hone

end Statements

end Comparison

end RecipeGraph.Compile
