import RecipeGraph.Proofs.Parallel

/-!
Statements without packages keep two sides in step. On both of them each call, argument, nested
scope and assignment finds the same and adds the same, up to the ids it is given. It is counted
along how many nested scopes the statements open.
-/
namespace RecipeGraph.Compile

open RecipeGraph.Graph Recipe

variable {pairing : Pairing} {outer outer' : List Scope} {related : Scope → Scope → Prop}
  {count : Nat} {work work' : Work}

section Tags

variable (bond : Bond pairing outer outer' related)

include bond

theorem InStep.checkTag (h : InStep pairing outer related count work work') (tag : Node)
    (hcalm : pairing.Calm (Work.checkTag outer' work' tag)) :
    InStep pairing outer related count (Work.checkTag outer work tag)
      (Work.checkTag outer' work' tag) := by
  unfold Work.checkTag at hcalm ⊢
  rcases h.style bond tag.path with hsame | ⟨hsilent, hnone⟩
  · rw [hsame]
    split
    · exact h
    · exact h.report _ _
  · rw [hnone] at hcalm
    exact absurd hcalm (Pairing.not_calm_report hsilent _ _ _)

theorem InStep.checkTags (h : InStep pairing outer related count work work')
    (styling : Option Node) (hcalm : pairing.Calm (work'.checkTags outer' styling)) :
    InStep pairing outer related count (work.checkTags outer styling)
      (work'.checkTags outer' styling) := by
  cases styling with
  | none => exact h
  | some style =>
    refine .foldl ?_ ?_ style.tags h hcalm
    · exact fun _ _ tag hstep hquiet => hstep.checkTag bond tag hquiet
    · exact fun work tag => (Work.quiet_checkTag outer' work tag).later

theorem InStep.checkTargets (h : InStep pairing outer related count work work')
    (targets : List Node) (hcalm : pairing.Calm (checkTargets outer' targets work')) :
    InStep pairing outer related count (checkTargets outer targets work)
      (checkTargets outer' targets work') := by
  refine .foldl ?_ ?_ targets h hcalm
  · exact fun _ _ target hstep hquiet => hstep.checkTags bond target.styling hquiet
  · exact fun work target => (Work.quiet_checkTags outer' target.styling work).later

omit bond in
theorem InStep.checkLeft (h : InStep pairing outer related count work work')
    (targets : List Node) (extent : Option Span) :
    InStep pairing outer related count (checkLeft targets extent work)
      (checkLeft targets extent work') := by
  unfold Compile.checkLeft
  split
  · exact h.report _ _
  · exact h

theorem InStep.prepareTargets (h : InStep pairing outer related count work work')
    (targets : List Node) (extent : Option Span)
    (hcalm : pairing.Calm (prepareTargets outer' targets extent work')) :
    InStep pairing outer related count (prepareTargets outer targets extent work)
      (prepareTargets outer' targets extent work') :=
  (h.checkLeft targets extent).checkTargets bond targets hcalm

end Tags

/-- The same values have come of some arguments on both sides. -/
structure Delivers (pairing : Pairing) (outer : List Scope) (related : Scope → Scope → Prop)
    (count : Nat) (lowered lowered' : List Inflow × Work) : Prop where
  inStep : InStep pairing outer related count lowered.2 lowered'.2
  inflows : lowered'.1 = lowered.1.map (Inflow.rename pairing.rename)
  since : ∀ inflow ∈ lowered.1,
    Since pairing.first.idOf pairing.base lowered.2.world.issued inflow.source

/-- The same element stands on the right of an assignment on both sides, or none. -/
structure Gives (pairing : Pairing) (outer : List Scope) (related : Scope → Scope → Prop)
    (count : Nat) (lowered lowered' : Option String × Work) : Prop where
  inStep : InStep pairing outer related count lowered.2 lowered'.2
  value : lowered'.1 = lowered.1.map pairing.rename
  since : ∀ id ∈ lowered.1,
    Since pairing.first.idOf pairing.base lowered.2.world.issued id

section Arguments

theorem since_placeCall (setting : Setting) (outer : List Scope) (name : String)
    (styling : Option Node) {base : Nat} {work : Work} (hle : base ≤ work.world.issued) :
    Since setting.idOf base (placeCall setting outer name styling work).world.issued
      (setting.idOf work.world.issued) := by
  unfold placeCall
  rw [Work.world_update, Work.world_checkTags]
  exact since_next _ hle

variable (bond : Bond pairing outer outer' related) (hlawful : pairing.Lawful)

include bond hlawful

theorem InStep.addInflow (h : InStep pairing outer related count work work') {target : String}
    (htarget : Since pairing.first.idOf pairing.base work.world.issued target) {inflow : Inflow}
    (hsource : Since pairing.first.idOf pairing.base work.world.issued inflow.source)
    (hcalm : pairing.Calm (work'.addInflow pairing.second (pairing.rename target)
      (inflow.rename pairing.rename))) :
    InStep pairing outer related count (work.addInflow pairing.first target inflow)
      (work'.addInflow pairing.second (pairing.rename target)
        (inflow.rename pairing.rename)) := by
  have hedge : (Edit.edge ⟨pairing.first.idOf work.world.issued, inflow.name, inflow.source,
      target, inflow.look.getD {}⟩).Within
        (Since pairing.first.idOf pairing.base (work.world.issued + 1)) :=
    ⟨since_next _ h.placed.since, hsource.mono (Nat.le_succ _), htarget.mono (Nat.le_succ _)⟩
  have hadded := h.freshId.edit bond hedge
  have hnext := h.next hlawful (hcalm.before (growth_later.update _ _))
  unfold Work.addInflow
  dsimp only [Work.freshId]
  rw [← hnext]
  exact hadded

theorem InStep.addInflows {target : String} {inflows : List Inflow}
    (h : InStep pairing outer related count work work')
    (htarget : Since pairing.first.idOf pairing.base work.world.issued target)
    (hsources : ∀ inflow ∈ inflows,
      Since pairing.first.idOf pairing.base work.world.issued inflow.source)
    (hcalm : pairing.Calm (work'.addInflows pairing.second (pairing.rename target)
      (inflows.map (Inflow.rename pairing.rename)))) :
    InStep pairing outer related count (work.addInflows pairing.first target inflows)
      (work'.addInflows pairing.second (pairing.rename target)
        (inflows.map (Inflow.rename pairing.rename))) := by
  induction inflows generalizing work work' with
  | nil => exact h
  | cons inflow rest ih =>
    have hfirst := h.addInflow bond hlawful htarget (hsources inflow (List.mem_cons_self ..))
      (hcalm.before (growth_later.addInflows _ _ _ _))
    refine ih hfirst (htarget.mono (Nat.le_succ _)) ?_ hcalm
    intro other hother
    exact (hsources other (List.mem_cons_of_mem _ hother)).mono (Nat.le_succ _)

theorem Delivers.feed {args : List Node} {target : String}
    (h : Delivers pairing outer related count (lowerArgs pairing.first outer args work)
      (lowerArgs pairing.second outer' args work'))
    (htarget : Since pairing.first.idOf pairing.base work.world.issued target)
    (hcalm : pairing.Calm (feed pairing.second outer' (pairing.rename target) args work')) :
    InStep pairing outer related count (feed pairing.first outer target args work)
      (feed pairing.second outer' (pairing.rename target) args work') := by
  have hlater := (growth_later.arguments pairing.first outer).all args work
  unfold Compile.feed at hcalm ⊢
  rw [h.inflows] at hcalm ⊢
  exact h.inStep.addInflows bond hlawful (htarget.mono hlater.issued) h.since hcalm

/-- An element on both sides, when its inflows are there. -/
theorem Delivers.gives {args : List Node} {id id' : String}
    (h : Delivers pairing outer related count (lowerArgs pairing.first outer args work)
      (lowerArgs pairing.second outer' args work'))
    (hsince : Since pairing.first.idOf pairing.base work.world.issued id)
    (hsame : pairing.rename id = id')
    (hcalm : pairing.Calm (Compile.feed pairing.second outer' id' args work')) :
    Gives pairing outer related count (some id, Compile.feed pairing.first outer id args work)
      (some id', Compile.feed pairing.second outer' id' args work') := by
  rw [← hsame] at hcalm ⊢
  refine ⟨h.feed bond hlawful hsince hcalm, rfl, ?_⟩
  intro other hother
  rw [← Option.some.inj hother]
  exact hsince.mono (growth_later.feed pairing.first outer id args work).issued

omit bond in
theorem InStep.next_call (h : InStep pairing outer related count work work') {name : String}
    {styling : Option Node}
    (hcalm : pairing.Calm (placeCall pairing.second outer' name styling work')) :
    pairing.rename (pairing.first.idOf work.world.issued) =
      pairing.second.idOf work'.world.issued := by
  refine h.next hlawful (hcalm.before ?_)
  exact (Work.quiet_checkTags outer' styling _).later.trans (growth_later.update _ _)

theorem InStep.placeCall (h : InStep pairing outer related count work work') (name : String)
    (styling : Option Node)
    (hcalm : pairing.Calm (placeCall pairing.second outer' name styling work')) :
    InStep pairing outer related count (placeCall pairing.first outer name styling work)
      (placeCall pairing.second outer' name styling work') := by
  have hchecked := h.freshId.checkTags bond styling (hcalm.before (growth_later.update _ _))
  have hvertex : (Edit.vertex ⟨pairing.first.idOf work.world.issued, name,
      (lookOf styling).getD {}⟩).Within (Since pairing.first.idOf pairing.base
        ((work.freshId pairing.first).2.checkTags outer styling).world.issued) := by
    rw [Work.world_checkTags]
    exact since_next _ h.placed.since
  have hadded := hchecked.edit bond hvertex
  have hnext := h.next_call hlawful hcalm
  unfold Compile.placeCall
  rw [← hnext]
  exact hadded

theorem arguments_in_step :
    Node.ArgumentCases
      (fun arg => ∀ work work', InStep pairing outer related count work work' →
        pairing.Calm (lowerArg pairing.second outer' arg work').2 →
        Delivers pairing outer related count
          ((lowerArg pairing.first outer arg work).1.toList,
            (lowerArg pairing.first outer arg work).2)
          ((lowerArg pairing.second outer' arg work').1.toList,
            (lowerArg pairing.second outer' arg work').2))
      (fun args => ∀ work work', InStep pairing outer related count work work' →
        pairing.Calm (lowerArgs pairing.second outer' args work').2 →
        Delivers pairing outer related count (lowerArgs pairing.first outer args work)
          (lowerArgs pairing.second outer' args work')) where
  call name args styling extent ih work work' h hcalm := by
    rw [lowerArg_call] at hcalm
    have hlater := growth_later.feed pairing.second outer'
      (pairing.second.idOf work'.world.issued) args
      (placeCall pairing.second outer' name styling work')
    have hcalmPlaced := hcalm.before hlater
    have hplaced := h.placeCall bond hlawful name styling hcalmPlaced
    have hargs := ih _ _ hplaced
      (hcalm.before (growth_later.addInflows _ _ _ _))
    have hnext := h.next_call hlawful hcalmPlaced
    have hgives := hargs.gives bond hlawful
      (since_placeCall pairing.first outer name styling h.placed.since) hnext hcalm
    rw [lowerArg_call, lowerArg_call]
    refine ⟨hgives.inStep, ?_, ?_⟩
    · rw [← hnext]
      rfl
    · intro inflow hinflow
      rw [List.mem_singleton.mp hinflow]
      exact hgives.since _ rfl
  reference path extent work work' h hcalm := by
    rw [lowerArg_variable] at hcalm
    rw [lowerArg_variable, lowerArg_variable]
    rcases h.element bond hlawful path with hsame | ⟨hsilent, hnone⟩
    · cases hid : work.elementOf? outer path with
      | none =>
        rw [hid] at hsame
        rw [hsame]
        exact ⟨h.report _ _, rfl, fun _ hnone => nomatch hnone⟩
      | some id =>
        rw [hid] at hsame
        have hlook := h.look bond path fun _ => by
          rw [hsame]
          rfl
        rw [hsame]
        refine ⟨h, ?_, ?_⟩
        · change [Inflow.mk (pairing.rename id) (lastSegment path) _] = _
          rw [hlook]
          rfl
        · intro inflow hinflow
          rw [List.mem_singleton.mp hinflow]
          exact h.since hid
    · rw [hnone] at hcalm
      exact absurd hcalm (Pairing.not_calm_report hsilent _ _ _)
  other node hnode work work' h hcalm := by
    rw [lowerArg_other _ _ _ hnode, lowerArg_other _ _ _ hnode]
    exact ⟨h.report _ _, rfl, fun _ hnone => nomatch hnone⟩
  nil work work' h hcalm := ⟨h, rfl, fun _ hnone => nomatch hnone⟩
  cons arg rest hfirst hrest work work' h hcalm := by
    rw [lowerArgs_cons] at hcalm
    have hcalmFirst := hcalm.before ((growth_later.arguments pairing.second outer').all rest _)
    have hone := hfirst work work' h hcalmFirst
    have hothers := hrest _ _ hone.inStep hcalm
    have hlater := (growth_later.arguments pairing.first outer).all rest
      (lowerArg pairing.first outer arg work).2
    rw [lowerArgs_cons, lowerArgs_cons]
    refine ⟨hothers.inStep, ?_, ?_⟩
    · dsimp only
      rw [List.map_append, ← hothers.inflows, ← hone.inflows]
    · intro inflow hinflow
      rcases List.mem_append.mp hinflow with hin | hin
      · exact (hone.since inflow hin).mono hlater.issued
      · exact hothers.since inflow hin

theorem InStep.gives {id id' : String} (args : List Node)
    (h : InStep pairing outer related count work work')
    (hsince : Since pairing.first.idOf pairing.base work.world.issued id)
    (hsame : pairing.rename id = id')
    (hcalm : pairing.Calm (feed pairing.second outer' id' args work')) :
    Gives pairing outer related count (some id, feed pairing.first outer id args work)
      (some id', feed pairing.second outer' id' args work') := by
  have hargs := (arguments_in_step bond hlawful).all args work work' h
    (hcalm.before (growth_later.addInflows _ _ _ _))
  exact hargs.gives bond hlawful hsince hsame hcalm

end Arguments

section Assignments

variable (bond : Bond pairing outer outer' related)

include bond

theorem InStep.bindAll (h : InStep pairing outer related count work work') {id : String}
    (hid : Since pairing.first.idOf pairing.base work.world.issued id) (look : Node → Option Look)
    (targets : List Node) :
    InStep pairing outer related count (targets.foldl (Work.bindTarget id look) work)
      (targets.foldl (Work.bindTarget (pairing.rename id) look) work') := by
  induction targets generalizing work work' with
  | nil => exact h
  | cons target rest ih =>
    have hbind : (Edit.bind target.name id (look target)).Within
        (Since pairing.first.idOf pairing.base work.world.issued) := hid
    exact ih (h.edit bond hbind) hid

theorem InStep.bindTargets (h : InStep pairing outer related count work work')
    {value : Option String}
    (hvalue : ∀ id ∈ value, Since pairing.first.idOf pairing.base work.world.issued id)
    (targets : List Node) :
    InStep pairing outer related count (bindTargets targets value work)
      (bindTargets targets (value.map pairing.rename) work') := by
  cases value with
  | none => exact h
  | some id => exact h.bindAll bond (hvalue id rfl) _ targets

/-- One of the styles referred to, over those before it. -/
def flattenTag (outer : List Scope) (state : Properties × Work) (tag : Node) :
    Properties × Work :=
  match state.2.style? outer tag.path with
  | some referred => (state.1.merge referred, state.2)
  | none => (state.1, state.2.report tag.place (.undefinedStyleTag tag.path))

omit bond in
theorem later_flattenTags (outer : List Scope) (tags : List Node) (state : Properties × Work) :
    Work.Later state.2 (tags.foldl (flattenTag outer) state).2 := by
  induction tags generalizing state with
  | nil => exact growth_later.refl state.2
  | cons tag rest ih =>
    refine Work.Later.trans ?_ (ih _)
    unfold flattenTag
    split
    · exact growth_later.refl state.2
    · exact growth_later.report state.2 _ _

theorem InStep.flattenTags (h : InStep pairing outer related count work work')
    (properties : Properties) (tags : List Node)
    (hcalm : pairing.Calm (tags.foldl (flattenTag outer') (properties, work')).2) :
    (tags.foldl (flattenTag outer') (properties, work')).1 =
        (tags.foldl (flattenTag outer) (properties, work)).1 ∧
      InStep pairing outer related count (tags.foldl (flattenTag outer) (properties, work)).2
        (tags.foldl (flattenTag outer') (properties, work')).2 := by
  induction tags generalizing properties work work' with
  | nil => exact ⟨rfl, h⟩
  | cons tag rest ih =>
    have hfirst : pairing.Calm (flattenTag outer' (properties, work') tag).2 :=
      hcalm.before (later_flattenTags outer' rest _)
    rw [List.foldl_cons] at hcalm
    rw [List.foldl_cons, List.foldl_cons]
    rcases h.style bond tag.path with hsame | ⟨hsilent, hnone⟩
    · unfold flattenTag at hcalm ⊢
      dsimp only at hcalm ⊢
      rw [hsame] at hcalm ⊢
      cases hstyle : work.style? outer tag.path with
      | none =>
        rw [hstyle] at hcalm
        exact ih (h.report _ _) properties hcalm
      | some referred =>
        rw [hstyle] at hcalm
        exact ih h _ hcalm
    · unfold flattenTag at hfirst
      dsimp only at hfirst
      rw [hnone] at hfirst
      exact absurd hfirst (Pairing.not_calm_report hsilent _ _ _)

theorem InStep.namedStyle (h : InStep pairing outer related count work work') (name : String)
    (style : Node) (hcalm : pairing.Calm (lowerNamedStyle outer' name style work')) :
    InStep pairing outer related count (lowerNamedStyle outer name style work)
      (lowerNamedStyle outer' name style work') := by
  have hcalmFlat := hcalm.before (growth_later.update (flatten outer' style work').2 _)
  obtain ⟨hproperties, hflat⟩ := h.flattenTags bond {} style.tags hcalmFlat
  have hstyle : (Edit.style name ((style.tags.foldl (flattenTag outer) ({}, work)).1.merge
      style.properties)).Within (Since pairing.first.idOf pairing.base
        (style.tags.foldl (flattenTag outer) ({}, work)).2.world.issued) := trivial
  have hadded := hflat.edit bond hstyle
  change InStep pairing outer related count
    ((style.tags.foldl (flattenTag outer) ({}, work)).2.update (·.setStyle name
      ((style.tags.foldl (flattenTag outer) ({}, work)).1.merge style.properties)))
    ((style.tags.foldl (flattenTag outer') ({}, work')).2.update (·.setStyle name
      ((style.tags.foldl (flattenTag outer') ({}, work')).1.merge style.properties)))
  rw [hproperties]
  exact hadded

variable (hlawful : pairing.Lawful)

include hlawful

theorem InStep.alias (h : InStep pairing outer related count work work') (targets : List Node)
    (path : Path) (extent : Option Span)
    (hcalm : pairing.Calm (lowerAlias outer' targets path extent work')) :
    InStep pairing outer related count (lowerAlias outer targets path extent work)
      (lowerAlias outer' targets path extent work') := by
  unfold lowerAlias at hcalm ⊢
  rcases h.element bond hlawful path with hsame | ⟨hsilent, hnone⟩
  · cases hid : work.elementOf? outer path with
    | none =>
      rw [hid] at hsame
      rw [hsame]
      exact h.report _ _
    | some id =>
      rw [hid] at hsame
      have hlook := h.look bond path fun _ => by
        rw [hsame]
        rfl
      rw [hsame, hlook]
      exact h.bindAll bond (h.since hid) _ targets
  · rw [hnone] at hcalm
    exact absurd hcalm (Pairing.not_calm_report hsilent _ _ _)

end Assignments

section Nested

variable (bond : Bond pairing outer outer' related) (hlawful : pairing.Lawful)

include bond hlawful

omit bond in
theorem InStep.next_enter (h : InStep pairing outer related count work work') {name : String}
    {styling : Option Node}
    (hcalm : pairing.Calm (enter pairing.second (work'.scope :: outer')
      (some (pairing.second.idOf work'.world.issued)) name styling
      (work'.freshId pairing.second).2)) :
    pairing.rename (pairing.first.idOf work.world.issued) =
      pairing.second.idOf work'.world.issued :=
  h.next hlawful (hcalm.before (growth_later.enter pairing.second _ _ name styling _))

theorem InStep.enter (h : InStep pairing outer related count work work') (name : String)
    (styling : Option Node)
    (hcalm : pairing.Calm (enter pairing.second (work'.scope :: outer')
      (some (pairing.second.idOf work'.world.issued)) name styling
      (work'.freshId pairing.second).2)) :
    InStep pairing (work.scope :: outer)
      (Twin pairing.rename (pairing.first.idOf work.world.issued)) 0
      (enter pairing.first (work.scope :: outer)
        (some (pairing.first.idOf work.world.issued)) name styling
        (work.freshId pairing.first).2)
      (enter pairing.second (work'.scope :: outer')
        (some (pairing.second.idOf work'.world.issued)) name styling
        (work'.freshId pairing.second).2) := by
  have hinj := hlawful.distinct
  have hnested := bond.nested hlawful h.related (h.placed.next_apart hinj)
    (h.placed.next_fresh hinj)
  have hnext := h.next_enter hlawful hcalm
  rw [enter_given _ _ (hlawful.given' _)] at hcalm
  rw [enter_given _ _ (hlawful.given _), enter_given _ _ (hlawful.given' _)]
  refine InStep.checkTags hnested ?_ styling hcalm
  refine ⟨h.freshId.pace, h.placed.open hinj _ _, ⟨?_, ?_, rfl⟩, h.diagnostics, rfl⟩
  · rw [← hnext]
    rfl
  · exact Scope.regular_ofContents (Contents.orderly_new _ _ _)

theorem InStep.leave {inside inside' : Work} {opened : Nat}
    (h : InStep pairing outer related count work work')
    (hinside : InStep pairing (work.scope :: outer)
      (Twin pairing.rename (pairing.first.idOf work.world.issued)) opened inside inside') :
    InStep pairing outer related (count + 1)
      { inside with scope := work.scope.attach inside.scope }
      { inside' with scope := work'.scope.attach inside'.scope } := by
  have htwin := hinside.related
  have hfresh : inside.scope.id ∉ work.scope.children.map Scope.id := by
    rw [htwin.id]
    exact h.placed.next_fresh hlawful.distinct
  refine ⟨hinside.pace, hinside.placed.close, ?_, hinside.diagnostics, ?_⟩
  · have hregular := htwin.regular
    dsimp only
    rw [htwin.renamed] at hregular ⊢
    exact bond.attach h.related hfresh hregular
  · change (Scope.placeChild inside.scope work.scope.children).length = count + 1
    rw [Scope.placeChild_of_not_mem hfresh, List.length_append, h.count]
    rfl

/-- A nested scope whose body keeps the sides in step. -/
theorem InStep.nested (h : InStep pairing outer related count work work') (name : String)
    {body : List Node} (himports : Node.locationsOfAll body = []) (args : List Node)
    (styling : Option Node) {opened : Nat}
    (hbody : Bond pairing (work.scope :: outer) (work'.scope :: outer')
        (Twin pairing.rename (pairing.first.idOf work.world.issued)) → ∀ inside inside',
      InStep pairing (work.scope :: outer)
        (Twin pairing.rename (pairing.first.idOf work.world.issued)) 0 inside inside' →
      pairing.Calm (lowerAll pairing.second (work'.scope :: outer') body inside') →
      InStep pairing (work.scope :: outer)
        (Twin pairing.rename (pairing.first.idOf work.world.issued)) opened
        (lowerAll pairing.first (work.scope :: outer) body inside)
        (lowerAll pairing.second (work'.scope :: outer') body inside'))
    (hcalm : pairing.Calm (lowerNested pairing.second outer' name body args styling work').2) :
    Gives pairing outer related (count + 1)
      (some (pairing.first.idOf work.world.issued),
        (lowerNested pairing.first outer name body args styling work).2)
      (some (pairing.second.idOf work'.world.issued),
        (lowerNested pairing.second outer' name body args styling work').2) := by
  have hcalmLeft := hcalm.before (growth_later.feed pairing.second outer' _ args _)
  have hcalmInside : pairing.Calm (lowerInside pairing.second outer' name body styling work') :=
    hcalmLeft.before (growth_later.scope _ _)
  have hlater := lowerAll_later pairing.second body himports (work'.scope :: outer')
    (Compile.enter pairing.second (work'.scope :: outer')
      (some (pairing.second.idOf work'.world.issued)) name styling
      (work'.freshId pairing.second).2)
  have hcalmEntered := hcalmInside.before hlater
  have hentered := h.enter bond hlawful name styling hcalmEntered
  have hnested := bond.nested hlawful h.related (h.placed.next_apart hlawful.distinct)
    (h.placed.next_fresh hlawful.distinct)
  have hinside := hbody hnested _ _ hentered hcalmInside
  have hleft := h.leave bond hlawful hinside
  have hsince := hinside.placed.here.id
  rw [hinside.related.id] at hsince
  exact hleft.gives bond hlawful args hsince (h.next_enter hlawful hcalmEntered) hcalm

end Nested

theorem Gives.bindTargets {lowered lowered' : Option String × Work}
    (h : Gives pairing outer related count lowered lowered')
    (bond : Bond pairing outer outer' related) (targets : List Node) :
    InStep pairing outer related count (bindTargets targets lowered.1 lowered.2)
      (bindTargets targets lowered'.1 lowered'.2) := by
  rw [h.value]
  exact h.inStep.bindTargets bond h.since targets

end RecipeGraph.Compile

namespace RecipeGraph.Recipe.Node

def isScope : Node → Bool
  | scope .. => true
  | _ => false

/-- Whether a statement opens a nested scope in the scope it stands in. -/
def opens : Node → Bool
  | scope .. => true
  | assignment _ (some value) _ => value.isScope
  | _ => false

theorem opens_other {node : Node} (h : node.isStatement = false) : node.opens = false := by
  cases node with
  | target => rfl
  | style => rfl
  | styleTag => rfl
  | valueList => rfl
  | statementList => rfl
  | recipe => rfl
  | _ => cases h

theorem isScope_unbuilt {node : Node} (h : node.isBuilt = false) : node.isScope = false := by
  cases node with
  | scope => cases h
  | _ => rfl

end RecipeGraph.Recipe.Node

namespace RecipeGraph.Compile

open RecipeGraph.Graph Recipe

section Statements

variable {pairing : Pairing} (hlawful : pairing.Lawful)

include hlawful

theorem statements_in_step :
    Node.StatementCases
      (fun value => Node.locationsOfValue (some value) = [] →
        ∀ {outer outer' related}, Bond pairing outer outer' related → ∀ count work work',
        InStep pairing outer related count work work' →
        pairing.Calm (lowerValue pairing.second outer' value work').2 →
        Gives pairing outer related (count + value.isScope.toNat)
          (lowerValue pairing.first outer value work)
          (lowerValue pairing.second outer' value work'))
      (fun node => node.locations = [] →
        ∀ {outer outer' related}, Bond pairing outer outer' related → ∀ count work work',
        InStep pairing outer related count work work' →
        pairing.Calm (lower pairing.second outer' node work') →
        InStep pairing outer related (count + node.opens.toNat)
          (lower pairing.first outer node work) (lower pairing.second outer' node work'))
      (fun nodes => Node.locationsOfAll nodes = [] →
        ∀ {outer outer' related}, Bond pairing outer outer' related → ∀ count work work',
        InStep pairing outer related count work work' →
        pairing.Calm (lowerAll pairing.second outer' nodes work') →
        InStep pairing outer related (count + nodes.countP Node.opens)
          (lowerAll pairing.first outer nodes work)
          (lowerAll pairing.second outer' nodes work')) where
  call name args styling extent _ outer outer' related bond count work work' h hcalm := by
    rw [lowerValue_call] at hcalm
    have hcalmPlaced := hcalm.before (growth_later.feed pairing.second outer' _ args _)
    have hplaced := h.placeCall bond hlawful name styling hcalmPlaced
    rw [lowerValue_call, lowerValue_call]
    exact hplaced.gives bond hlawful args
      (since_placeCall pairing.first outer name styling h.placed.since)
      (h.next_call hlawful hcalmPlaced) hcalm
  scope name body _ args _ styling _ hbody himports outer outer' related bond count work work' h
      hcalm := by
    rw [lowerValue_scope] at hcalm
    rw [lowerValue_scope, lowerValue_scope]
    exact h.nested bond hlawful name himports args styling
      (fun hnested => hbody himports hnested 0) hcalm
  package location label extent himports := by
    cases himports
  unbuilt node hnode _ outer outer' related bond count work work' h hcalm := by
    rw [lowerValue_unbuilt _ _ _ hnode, lowerValue_unbuilt _ _ _ hnode,
      Node.isScope_unbuilt hnode]
    exact ⟨h.report _ _, rfl, fun _ hnone => nomatch hnone⟩
  bareCall name args styling extent hvalue _ outer outer' related bond count work work' h
      hcalm := by
    rw [lower_call] at hcalm
    rw [lower_call, lower_call]
    exact (hvalue rfl bond count work work' h hcalm).inStep
  bareScope name body bodyExtent args argsExtent styling extent hvalue himports outer outer'
      related bond count work work' h hcalm := by
    rw [lower_scope] at hcalm
    rw [lower_scope, lower_scope]
    exact (hvalue himports bond count work work' h hcalm).inStep
  barePackage location label extent himports := by
    cases himports
  reference path extent _ outer outer' related bond count work work' h hcalm := by
    rw [lower_variable, lower_variable]
    exact h
  incomplete targets extent _ outer outer' related bond count work work' h hcalm := by
    rw [lower_incomplete, lower_incomplete]
    exact (h.checkLeft targets extent).report _ _
  synonym targets path place extent _ outer outer' related bond count work work' h hcalm := by
    rw [lower_synonym] at hcalm
    have hlater := growth_later.synonym outer' targets path place
      (prepareTargets outer' targets extent work')
    have hready := h.prepareTargets bond targets extent (hcalm.before hlater)
    rw [lower_synonym, lower_synonym]
    exact hready.alias bond hlawful targets path place hcalm
  assigned targets value extent hvariable hvalue himports outer outer' related bond count work
      work' h hcalm := by
    rw [lower_assigned _ _ _ _ _ hvariable] at hcalm
    have hcalmValue := hcalm.before (growth_later.bindTargets targets _ _)
    have hlater := lowerValue_later pairing.second value himports outer'
      (prepareTargets outer' targets extent work')
    have hready := h.prepareTargets bond targets extent (hcalmValue.before hlater)
    have hgiven := hvalue himports bond count _ _ hready hcalmValue
    rw [lower_assigned _ _ _ _ _ hvariable, lower_assigned _ _ _ _ _ hvariable]
    exact hgiven.bindTargets bond targets
  namedStyle name style extent _ outer outer' related bond count work work' h hcalm := by
    rw [lower_namedStyle] at hcalm
    rw [lower_namedStyle, lower_namedStyle]
    exact h.namedStyle bond name style hcalm
  styleBinding keyword tags extent _ outer outer' related bond count work work' h hcalm := by
    have hbinding : (Edit.binding keyword (tags.map Node.path)).Within
        (Since pairing.first.idOf pairing.base work.world.issued) := trivial
    rw [lower_styleBinding, lower_styleBinding]
    exact h.edit bond hbinding
  other node hnode _ outer outer' related bond count work work' h hcalm := by
    rw [lower_other _ _ _ hnode, lower_other _ _ _ hnode, Node.opens_other hnode]
    exact h.report _ _
  nil _ outer outer' related bond count work work' h hcalm := by
    rw [lowerAll, lowerAll]
    exact h
  cons node rest hnode hrest himports outer outer' related bond count work work' h hcalm := by
    obtain ⟨hfirst, hothers⟩ := List.append_eq_nil_iff.mp himports
    rw [lowerAll] at hcalm
    have hlater := lowerAll_later pairing.second rest hothers outer'
      (lower pairing.second outer' node work')
    have hone := hnode hfirst bond count work work' h (hcalm.before hlater)
    have hall := hrest hothers bond _ _ _ hone hcalm
    have hcount : count + node.opens.toNat + rest.countP Node.opens =
        count + (node :: rest).countP Node.opens := by
      rw [List.countP_cons]
      cases node.opens <;> simp
      omega
    rw [hcount] at hall
    rw [lowerAll, lowerAll]
    exact hall

end Statements

end RecipeGraph.Compile
