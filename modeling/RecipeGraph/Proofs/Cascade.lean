import RecipeGraph.Proofs.LexicalScope
import RecipeGraph.Proofs.StoredStyles
import RecipeGraph.Proofs.Surroundings

/-!
Styles cascade as their declarations say. Lowering keeps nothing but properties, all of them spelled
out at once. Still these are what comes of looking the declarations up one by one, and what has
been stored for a style stays when another one, be it one that it refers to, is declared anew.
-/
namespace RecipeGraph.Cascade

open RecipeGraph.Graph Recipe Compile Scoping

section Steps

variable {outer : List Scope} {yonder : Outside} {work middle after : Work} {sheet : Sheet}

/-- What is wrong with references to styles. -/
def lost (work : Work) : List Diagnostic :=
  work.diagnostics.filter fun diagnostic => diagnostic.problem.concernsStyle

/-- Nothing happens that has to do with styles. -/
structure Bare (work after : Work) : Prop where
  id : after.scope.id = work.scope.id
  name : after.scope.name = work.scope.name
  styles : after.scope.contents.styles = work.scope.contents.styles
  names : after.scope.names = work.scope.names
  children : after.scope.children = work.scope.children
  lost : lost after = lost work

theorem Bare.refl (work : Work) : Bare work work :=
  ⟨rfl, rfl, rfl, rfl, rfl, rfl⟩

theorem Bare.trans (h : Bare work middle) (h' : Bare middle after) : Bare work after :=
  ⟨h'.id.trans h.id, h'.name.trans h.name, h'.styles.trans h.styles, h'.names.trans h.names,
   h'.children.trans h.children, h'.lost.trans h.lost⟩

theorem bare_foldl {α : Type} {step : Work → α → Work}
    (hstep : ∀ work item, Bare work (step work item)) (items : List α) (work : Work) :
    Bare work (items.foldl step work) :=
  List.foldlRecOn (motive := Bare work) items step (.refl work) fun after h item _ =>
    h.trans (hstep after item)

theorem bare_report (work : Work) (extent : Span) {problem : Problem}
    (h : problem.concernsStyle = false) : Bare work (work.report extent problem) := by
  refine ⟨rfl, rfl, rfl, rfl, rfl, ?_⟩
  simp [Cascade.lost, Work.report, h]

theorem bare_freshId (setting : Compile.Setting) (work : Work) :
    Bare work (work.freshId setting).2 :=
  ⟨rfl, rfl, rfl, rfl, rfl, rfl⟩

theorem bare_update (work : Work) {f : Contents → Contents}
    (hid : (f work.scope.contents).id = work.scope.contents.id)
    (hname : (f work.scope.contents).name = work.scope.contents.name)
    (hstyles : (f work.scope.contents).styles = work.scope.contents.styles) :
    Bare work (work.update f) := by
  constructor
  case id =>
    unfold Scope.id
    rw [Work.scope_update, Scope.contents_mapContents, hid]
  case name =>
    unfold Scope.name
    rw [Work.scope_update, Scope.contents_mapContents, hname]
  case styles => rw [Work.scope_update, Scope.contents_mapContents, hstyles]
  case names => rw [Work.scope_update, Scope.names_mapContents]
  case children => rw [Work.scope_update, Scope.children_mapContents]
  case lost => rfl

theorem bare_addInflows (setting : Compile.Setting) (target : String) (inflows : List Inflow)
    (work : Work) : Bare work (work.addInflows setting target inflows) := by
  unfold Work.addInflows
  refine bare_foldl ?_ inflows work
  intro work inflow
  have hadded : Bare (work.freshId setting).2 (Work.addInflow setting target work inflow) :=
    bare_update (work.freshId setting).2 rfl rfl rfl
  exact (bare_freshId setting work).trans hadded

theorem bare_bindAll (id : String) (look : Node → Option Look) (targets : List Node)
    (work : Work) : Bare work (targets.foldl (Work.bindTarget id look) work) := by
  refine bare_foldl ?_ targets work
  intro work target
  exact bare_update work rfl rfl rfl

theorem bare_bindTargets (targets : List Node) (value : Option String) (work : Work) :
    Bare work (bindTargets targets value work) := by
  cases value with
  | none => exact .refl work
  | some id => exact bare_bindAll id _ targets work

theorem bare_lowerAlias (outer : List Scope) (targets : List Node) (path : Path)
    (extent : Option Span) (work : Work) :
    Bare work (lowerAlias outer targets path extent work) := by
  unfold lowerAlias
  cases work.elementOf? outer path with
  | none => exact bare_report work _ rfl
  | some id => exact bare_bindAll id _ targets work

theorem bare_checkLeft (targets : List Node) (extent : Option Span) (work : Work) :
    Bare work (checkLeft targets extent work) := by
  unfold checkLeft
  split
  · exact bare_report work _ rfl
  · exact .refl work

theorem Answers.bare {declared : List Declaration} {events : List Event}
    (h : Answers declared work.scope events) (hbare : Bare work after) :
    Answers declared after.scope events := by
  intro path
  have hold := h path
  match path with
  | [] => exact .none
  | [name] =>
    simp only [Scope.findBelow] at hold ⊢
    rw [hbare.styles]
    exact hold
  | name :: next :: rest =>
    have hchild : after.scope.child? = work.scope.child? := by
      funext id
      unfold Scope.child?
      rw [hbare.children]
    simp only [Scope.findBelow] at hold ⊢
    rw [hbare.names, hchild]
    exact hold

/-- Lowering has come as far as reading, in the same place. -/
structure Tracks (outer : List Scope) (yonder : Outside) (work : Work) (sheet : Sheet) :
    Prop where
  within : Within sheet.declared work.scope.id work.scope.name outer yonder
  nodup : ((work.scope :: outer).map Scope.id).Nodup
  answers : Answers sheet.declared work.scope sheet.events
  keeps : KeepsAll sheet.declared work.scope.children (openings sheet.events)
  missing : lost work = sheet.missing

theorem Tracks.bare (h : Tracks outer yonder work sheet) (hbare : Bare work after) :
    Tracks outer yonder after sheet := by
  constructor
  case within =>
    rw [hbare.id, hbare.name]
    exact h.within
  case nodup =>
    rw [List.map_cons, hbare.id]
    exact h.nodup
  case answers => exact h.answers.bare hbare
  case keeps =>
    rw [hbare.children]
    exact h.keeps
  case missing => exact hbare.lost.trans h.missing

/-- A tag is found to have the properties of the declaration that it leads to. -/
theorem Tracks.reach (h : Tracks outer yonder work sheet) (path : Path) :
    Option.Rel Declaration.Expands (sheet.reach yonder path) (work.style? outer path) := by
  have hfound := search_denoted h.within h.answers path
  unfold Sheet.reach Work.style?
  rw [Scope.resolve_eq_search path h.nodup]
  generalize denoted path sheet.events yonder = number at *
  generalize Scope.search Contents.styles path work.scope outer = properties at *
  cases hfound with
  | none => exact .none
  | some hstands =>
    obtain ⟨declaration, hnumber, hexpands⟩ := hstands
    rw [Option.bind_some, Option.mem_def.mp hnumber]
    exact .some hexpands

theorem Tracks.unresolved_eq (h : Tracks outer yonder work sheet) (tags : List Node) :
    unresolved (work.style? outer) tags = unresolved (sheet.reach yonder) tags :=
  (unresolved_congr h.reach tags).symm

/-- All of this is reported. -/
def remark (work : Work) (reports : List Diagnostic) : Work :=
  { work with diagnostics := work.diagnostics ++ reports }

theorem remark_nil (work : Work) : remark work [] = work := by
  unfold remark
  rw [List.append_nil]

theorem remark_report (work : Work) (diagnostic : Diagnostic) (reports : List Diagnostic) :
    remark (work.report diagnostic.extent diagnostic.problem) reports =
      remark work (diagnostic :: reports) := by
  unfold remark Work.report
  rw [List.append_assoc, List.singleton_append]

/-- The tags that are not found are reported, each once. -/
theorem Tracks.consult (h : Tracks outer yonder work sheet) (tags : List Node) :
    Tracks outer yonder (remark work (unresolved (work.style? outer) tags))
      (sheet.consult yonder tags) := by
  refine ⟨h.within, h.nodup, h.answers, h.keeps, ?_⟩
  unfold lost remark
  rw [List.filter_append, unresolved_filter, h.unresolved_eq]
  exact congrArg (· ++ _) h.missing

theorem foldl_checkTag (outer : List Scope) (tags : List Node) (work : Work) :
    tags.foldl (Work.checkTag outer) work =
      remark work (unresolved (work.style? outer) tags) := by
  induction tags generalizing work with
  | nil => exact (remark_nil work).symm
  | cons tag rest ih =>
    rw [List.foldl_cons, ih]
    unfold Work.checkTag
    cases hstyle : work.style? outer tag.path with
    | none =>
      rw [unresolved_cons_none hstyle, ← remark_report]
      rfl
    | some properties =>
      rw [unresolved_cons_some hstyle]
      rfl

theorem checkTags_eq (outer : List Scope) (styling : Option Node) (work : Work) :
    work.checkTags outer styling =
      remark work (unresolved (work.style? outer) (Node.tagsOf styling)) := by
  cases styling with
  | none => exact (remark_nil work).symm
  | some style => exact foldl_checkTag outer style.tags work

theorem Tracks.checkTags (h : Tracks outer yonder work sheet) (styling : Option Node) :
    Tracks outer yonder (work.checkTags outer styling)
      (sheet.consult yonder (Node.tagsOf styling)) := by
  rw [checkTags_eq]
  exact h.consult (Node.tagsOf styling)

theorem Tracks.checkTargets (h : Tracks outer yonder work sheet) (targets : List Node) :
    Tracks outer yonder (checkTargets outer targets work)
      (sheet.consult yonder (targetTags targets)) := by
  unfold Compile.checkTargets targetTags
  induction targets generalizing work sheet with
  | nil =>
    rw [List.flatMap_nil, consult_nil]
    exact h
  | cons target rest ih =>
    rw [List.flatMap_cons, consult_append]
    exact ih (h.checkTags target.styling)

theorem Tracks.prepareTargets (h : Tracks outer yonder work sheet) (targets : List Node)
    (extent : Option Span) :
    Tracks outer yonder (prepareTargets outer targets extent work)
      (sheet.consult yonder (targetTags targets)) :=
  (h.bare (bare_checkLeft targets extent work)).checkTargets targets

/-- One more style that is referred to. -/
def gather (outer : List Scope) (state : Properties × Work) (tag : Node) : Properties × Work :=
  match state.2.style? outer tag.path with
  | some referred => (state.1.merge referred, state.2)
  | none => (state.1, state.2.report tag.place (.undefinedStyleTag tag.path))

theorem foldl_gather (outer : List Scope) (tags : List Node) (flat : Properties) (work : Work) :
    tags.foldl (gather outer) (flat, work) =
      ((tags.filterMap fun tag => work.style? outer tag.path).foldl OrderedMap.merge flat,
       remark work (unresolved (work.style? outer) tags)) := by
  induction tags generalizing flat work with
  | nil => exact congrArg (flat, ·) (remark_nil work).symm
  | cons tag rest ih =>
    rw [List.foldl_cons]
    cases hstyle : work.style? outer tag.path with
    | none =>
      have hstep : gather outer (flat, work) tag =
          (flat, work.report tag.place (.undefinedStyleTag tag.path)) := by simp [gather, hstyle]
      rw [hstep, ih, unresolved_cons_none hstyle, ← remark_report,
        List.filterMap_cons_none (f := fun tag : Node => work.style? outer tag.path) hstyle]
      rfl
    | some properties =>
      have hstep : gather outer (flat, work) tag = (flat.merge properties, work) := by
        simp [gather, hstyle]
      rw [hstep, ih, unresolved_cons_some hstyle,
        List.filterMap_cons_some (f := fun tag : Node => work.style? outer tag.path) hstyle]
      rfl

/-- A style comes to what it refers to, one written over the other, and its own properties last. -/
theorem flatten_eq (outer : List Scope) (style : Node) (work : Work) :
    flatten outer style work =
      (((style.tags.filterMap fun tag => work.style? outer tag.path).foldl OrderedMap.merge
          {}).merge style.properties,
       remark work (unresolved (work.style? outer) style.tags)) := by
  change ((style.tags.foldl (gather outer) ({}, work)).1.merge style.properties,
    (style.tags.foldl (gather outer) ({}, work)).2) = _
  rw [foldl_gather]

theorem Tracks.expands (h : Tracks outer yonder work sheet) (style : Node) :
    (sheet.declaration yonder style).Expands (flatten outer style work).1 := by
  rw [flatten_eq]
  refine expands_merged ?_ style.properties
  have hreach : ∀ tag tag' : Node, tag = tag' →
      Option.Rel Declaration.Expands (sheet.reach yonder tag.path)
        (work.style? outer tag'.path) := by
    rintro tag _ rfl
    exact h.reach tag.path
  exact List.rel_filterMap hreach (List.forall₂_refl style.tags)

/-- A declaration is stored as it stands, and the tags that lead nowhere are reported. -/
theorem Tracks.declare (h : Tracks outer yonder work sheet) (name : String) (style : Node) :
    Tracks outer yonder (lowerNamedStyle outer name style work)
      (sheet.declare yonder name style) := by
  have hgrown := List.prefix_append sheet.declared [sheet.declaration yonder style]
  have hexpands := h.expands style
  have hconsulted := h.consult style.tags
  unfold lowerNamedStyle
  rw [flatten_eq] at hexpands ⊢
  dsimp only at hexpands ⊢
  generalize OrderedMap.merge _ _ = flat at *
  obtain ⟨world, diagnostics, contents, names, children⟩ := work
  constructor
  case within => exact h.within.mono hgrown
  case nodup => exact h.nodup
  case answers => exact h.answers.declare hexpands name
  case keeps => exact KeepsAll.mono hgrown _ _ h.keeps
  case missing => exact hconsulted.missing

end Steps

section Run

variable {setting : Compile.Setting} {outer : List Scope} {yonder : Outside}

theorem arguments_tracked (setting : Compile.Setting) (outer : List Scope) (yonder : Outside) :
    Node.ArgumentCases
      (fun arg => ∀ work sheet, Tracks outer yonder work sheet →
        Tracks outer yonder (lowerArg setting outer arg work).2
          (sheet.consult yonder (callTags arg)))
      (fun args => ∀ work sheet, Tracks outer yonder work sheet →
        Tracks outer yonder (lowerArgs setting outer args work).2
          (sheet.consult yonder (callTagsOfAll args))) where
  call name args styling extent ih work sheet h := by
    have hplaced : Tracks outer yonder (placeCall setting outer name styling work)
        (sheet.consult yonder (Node.tagsOf styling)) :=
      ((h.bare (bare_freshId setting work)).checkTags styling).bare (bare_update _ rfl rfl rfl)
    rw [lowerArg_call, callTags, consult_append]
    exact (ih _ _ hplaced).bare (bare_addInflows setting _ _ _)
  reference path extent work sheet h := by
    rw [lowerArg_variable, show callTags (.variable path extent) = [] from rfl, consult_nil]
    cases work.elementOf? outer path with
    | none => exact h.bare (bare_report work _ rfl)
    | some id => exact h
  other node hnode work sheet h := by
    rw [lowerArg_other setting outer work hnode, callTags_other hnode, consult_nil]
    exact h.bare (bare_report work _ rfl)
  nil work sheet h := by
    rw [callTagsOfAll, consult_nil]
    exact h
  cons arg rest hfirst hrest work sheet h := by
    rw [lowerArgs_cons, callTagsOfAll, consult_append]
    exact hrest _ _ (hfirst work sheet h)

theorem Tracks.feed {work : Work} {sheet : Sheet} (h : Tracks outer yonder work sheet)
    (target : String) (args : List Node) :
    Tracks outer yonder (feed setting outer target args work)
      (sheet.consult yonder (callTagsOfAll args)) :=
  ((arguments_tracked setting outer yonder).all args work sheet h).bare
    (bare_addInflows setting target _ _)

section Nested

variable (hinj : Function.Injective setting.idOf) (hne : ∀ n, setting.idOf n ≠ "") {base : Nat}
  {outside : Outside} {work inside : Work} {draft within : Draft} {sheet inner : Sheet}

include hinj hne in
theorem Tracks.enter (h : Tracks outer yonder work sheet)
    (hsituated : Situated (numbering setting.idOf base) draft outer outside)
    (hfollows : Follows setting.idOf base work draft) (name : String) (styling : Option Node) :
    Tracks (work.scope :: outer) ((name, sheet.events) :: yonder)
      (Compile.enter setting (work.scope :: outer) (some (setting.idOf work.world.issued)) name
        styling (work.freshId setting).2)
      (sheet.enter yonder name styling) := by
  rw [enter_given setting (work.scope :: outer) (hne work.world.issued)]
  refine Tracks.checkTags ?_ styling
  have hnew := (hsituated.enter hinj hfollows name).nodup
  have hfresh := hfollows.depicts.child_fresh (numbering_injective hinj base) hfollows.bounded
  rw [← hfollows.id_issued] at hfresh
  constructor
  case within => exact .cons h.answers hfollows.depicts.legible.names hfresh h.within
  case nodup =>
    change (numbering setting.idOf base draft.given :: _).Nodup at hnew
    rw [← hfollows.id_issued] at hnew
    exact hnew
  case answers => exact answers_ofContents _ rfl
  case keeps => trivial
  case missing => exact h.missing

include hinj in
theorem Tracks.leave (h : Tracks outer yonder work sheet)
    (hfollows : Follows setting.idOf base work draft) {name : String}
    (hinside : Advances setting.idOf base (draft.enter name) inside within)
    (hinner : Tracks (work.scope :: outer) ((name, sheet.events) :: yonder) inside inner)
    (hgrown : sheet.declared <+: inner.declared) :
    Tracks outer yonder { inside with scope := work.scope.attach inside.scope }
      { inner with events := .opened name inner.events :: sheet.events } := by
  have hfresh := hfollows.inside_fresh hinj hinside.follows hinside.onward
  have hname : inside.scope.name = name :=
    hinside.follows.depicts.name.trans hinside.onward.name
  constructor
  case within => exact h.within.mono hgrown
  case nodup => exact h.nodup
  case answers =>
    have hattached := (h.answers.mono hgrown).attach hinner.answers
      hfollows.depicts.legible.names hfresh
    rw [hname] at hattached
    exact hattached
  case keeps =>
    rw [Scope.children_attach, Scope.placeChild_of_not_mem hfresh]
    exact KeepsAll.append (keeps_of_answers hinner.answers hinner.keeps)
      (KeepsAll.mono hgrown _ _ h.keeps)
  case missing => exact hinner.missing

end Nested

section Statements

variable (hinj : Function.Injective setting.idOf) (hne : ∀ n, setting.idOf n ≠ "") {base : Nat}

include hinj hne

/-- Lowering and reading keep together, statement by statement. The drawing of the variables goes
along with both, since it knows that every nested scope has an id of its own. -/
theorem statements_tracked :
    Node.StatementCases
      (fun value => Node.locationsOfValue (some value) = [] →
        ∀ outer outside yonder work draft sheet,
          Situated (numbering setting.idOf base) draft outer outside →
          Follows setting.idOf base work draft → Tracks outer yonder work sheet →
          Tracks outer yonder (lowerValue setting outer value work).2
            (readValue yonder value sheet))
      (fun node => node.locations = [] → ∀ outer outside yonder work draft sheet,
        Situated (numbering setting.idOf base) draft outer outside →
        Follows setting.idOf base work draft → Tracks outer yonder work sheet →
        Tracks outer yonder (lower setting outer node work) (read yonder node sheet))
      (fun nodes => Node.locationsOfAll nodes = [] → ∀ outer outside yonder work draft sheet,
        Situated (numbering setting.idOf base) draft outer outside →
        Follows setting.idOf base work draft → Tracks outer yonder work sheet →
        Tracks outer yonder (lowerAll setting outer nodes work)
          (readAll yonder nodes sheet)) where
  call name args styling extent _ outer outside yonder work draft sheet _ _ h := by
    have hcall := (arguments_tracked setting outer yonder).one (.call name args styling extent)
      work sheet h
    rw [lowerArg_call] at hcall
    rw [lowerValue_call]
    exact hcall
  scope name body _ args _ styling _ hbody himports outer outside yonder work draft sheet
      hsituated hfollows h := by
    have hopened := hsituated.enter hinj hfollows name
    have hentered := hfollows.enter hne outer name styling
    have hinside := (statements_advance hinj hne).all body himports _ _ _ _ hopened hentered
    -- Inside, the scopes around stay as they are; only more and more is declared.
    have hinner := hbody himports _ _ _ _ _ _ hopened hentered
      (h.enter hinj hne hsituated hfollows name styling)
    have hgrown := declared_grows.all body ((name, sheet.events) :: yonder)
      (sheet.enter yonder name styling)
    rw [lowerValue_scope]
    exact (h.leave hinj hfollows hinside hinner hgrown).feed _ args
  package location label extent himports := by
    cases himports
  unbuilt node hnode _ outer outside yonder work draft sheet _ _ h := by
    rw [lowerValue_unbuilt setting outer work hnode, readValue_unbuilt yonder sheet hnode]
    exact h.bare (bare_report work _ rfl)
  bareCall name args styling extent hvalue himports outer outside yonder work draft sheet
      hsituated hfollows h := by
    rw [lower_call, read_call]
    exact hvalue rfl outer outside yonder work draft sheet hsituated hfollows h
  bareScope name body bodyExtent args argsExtent styling extent hvalue himports outer outside
      yonder work draft sheet hsituated hfollows h := by
    rw [lower_scope, read_scope]
    exact hvalue himports outer outside yonder work draft sheet hsituated hfollows h
  barePackage location label extent himports := by
    cases himports
  reference path extent _ outer outside yonder work draft sheet _ _ h := by
    rw [lower_variable, read_variable]
    exact h
  incomplete targets extent _ outer outside yonder work draft sheet _ _ h := by
    rw [lower_incomplete, read_incomplete]
    exact (h.bare (bare_checkLeft targets extent work)).bare (bare_report _ _ rfl)
  synonym targets path place extent _ outer outside yonder work draft sheet _ _ h := by
    rw [lower_synonym, read_assigned, readValue_unbuilt yonder _ rfl]
    exact (h.prepareTargets targets extent).bare (bare_lowerAlias outer targets path place _)
  assigned targets value extent hvariable hvalue himports outer outside yonder work draft sheet
      hsituated hfollows h := by
    have hlowered := hvalue himports outer outside yonder _ draft _ hsituated
      (hfollows.quiet (quiet_prepareTargets outer targets extent work))
      (h.prepareTargets targets extent)
    rw [lower_assigned setting outer work targets extent hvariable, read_assigned]
    exact hlowered.bare (bare_bindTargets targets _ _)
  namedStyle name style extent _ outer outside yonder work draft sheet _ _ h := by
    rw [lower_namedStyle]
    exact h.declare name style
  styleBinding keyword tags extent _ outer outside yonder work draft sheet _ _ h := by
    rw [lower_styleBinding, read_styleBinding]
    exact h.bare (bare_update work rfl rfl rfl)
  other node hnode _ outer outside yonder work draft sheet _ _ h := by
    rw [lower_other setting outer work hnode, read_other yonder sheet hnode]
    exact h.bare (bare_report work _ rfl)
  nil _ outer outside yonder work draft sheet _ _ h := by
    rw [lowerAll]
    exact h
  cons node rest hnode hrest himports outer outside yonder work draft sheet hsituated hfollows
      h := by
    obtain ⟨hfirst, hothers⟩ := List.append_eq_nil_iff.mp himports
    have hone := (statements_advance hinj hne).one node hfirst outer outside work draft hsituated
      hfollows
    rw [lowerAll, readAll]
    exact hrest hothers outer outside yonder _ _ _ (hsituated.onward hone.onward) hone.follows
      (hnode hfirst outer outside yonder work draft sheet hsituated hfollows h)

end Statements

end Run

/-- The variables that are bound to the scope. -/
def targetsOf (enclosure : Enclosure) : List Node :=
  (enclosure.binding.map Prod.fst).getD []

/-- The sheet when the nested scope is about to be opened. -/
def readBefore (yonder : Outside) (enclosure : Enclosure) (sheet : Sheet) : Sheet :=
  (readAll yonder enclosure.before sheet).consult yonder (targetTags (targetsOf enclosure))

/-- Where the innermost statements are read: what happened around, and the sheet before them. -/
def readTo : List Enclosure → Outside → Sheet → Outside × Sheet
  | [], yonder, sheet => (yonder, sheet)
  | enclosure :: rest, yonder, sheet =>
      let reached := readBefore yonder enclosure sheet
      readTo rest ((enclosure.name, reached.events) :: yonder)
        (reached.enter yonder enclosure.name enclosure.styling)

section Places

theorem locationsOfAll_append (nodes more : List Node) :
    Node.locationsOfAll (nodes ++ more) =
      Node.locationsOfAll nodes ++ Node.locationsOfAll more := by
  induction nodes with
  | nil => rfl
  | cons node rest ih =>
    rw [List.cons_append, Node.locationsOfAll, Node.locationsOfAll, ih, List.append_assoc]

theorem locations_statement (enclosure : Enclosure) (body : List Node) :
    (enclosure.statement body).locations = Node.locationsOfAll body := by
  unfold Enclosure.statement
  cases enclosure.binding with
  | none => rfl
  | some binding => rfl

/-- Without packages around and inside, there are none before the nested scope and none in it. -/
theorem locations_enclosed {enclosure : Enclosure} {body : List Node}
    (h : Node.locationsOfAll
      (enclosure.before ++ enclosure.statement body :: enclosure.after) = []) :
    Node.locationsOfAll enclosure.before = [] ∧ Node.locationsOfAll body = [] := by
  rw [locationsOfAll_append, Node.locationsOfAll, locations_statement] at h
  obtain ⟨hbefore, hrest⟩ := List.append_eq_nil_iff.mp h
  exact ⟨hbefore, (List.append_eq_nil_iff.mp hrest).1⟩

variable {setting : Compile.Setting} (hinj : Function.Injective setting.idOf)
  (hne : ∀ n, setting.idOf n ≠ "") {base : Nat}

include hinj hne

/-- Wherever lowering arrives, reading has come to the same place. -/
theorem arrive_tracked (enclosures : List Enclosure) (inner : List Node)
    (himports : Node.locationsOfAll (surround enclosures inner) = []) {outer : List Scope}
    {outside yonder : Outside} {work : Work} {draft : Draft} {sheet : Sheet}
    (hsituated : Situated (numbering setting.idOf base) draft outer outside)
    (hfollows : Follows setting.idOf base work draft) (h : Tracks outer yonder work sheet) :
    let place := arrive setting enclosures outer work
    let spot := readTo enclosures yonder sheet
    Node.locationsOfAll inner = [] ∧ Tracks place.1 spot.1 place.2 spot.2 ∧
      ∃ outside' draft', Situated (numbering setting.idOf base) draft' place.1 outside' ∧
        Follows setting.idOf base place.2 draft' := by
  induction enclosures generalizing outer outside yonder work draft sheet with
  | nil => exact ⟨himports, h, outside, draft, hsituated, hfollows⟩
  | cons enclosure rest ih =>
    obtain ⟨hbefore, hbody⟩ := locations_enclosed himports
    have hadvanced := (statements_advance hinj hne).all enclosure.before hbefore outer outside work
      draft hsituated hfollows
    have htracked := (statements_tracked hinj hne).all enclosure.before hbefore outer outside yonder
      work draft sheet hsituated hfollows h
    have hreached : Follows setting.idOf base (approach setting outer enclosure work)
          (drawAll outside enclosure.before draft) ∧
        Tracks outer yonder (approach setting outer enclosure work)
          (readBefore yonder enclosure sheet) := by
      unfold approach readBefore targetsOf
      cases enclosure.binding with
      | none =>
        refine ⟨hadvanced.follows, ?_⟩
        change Tracks outer yonder _ (Sheet.consult yonder [] _)
        rw [consult_nil]
        exact htracked
      | some binding =>
        exact ⟨hadvanced.follows.quiet (quiet_prepareTargets outer binding.1 binding.2 _),
          htracked.prepareTargets binding.1 binding.2⟩
    have hsituated' := hsituated.onward hadvanced.onward
    rw [arrive, readTo]
    exact ih hbody (hsituated'.enter hinj hreached.1 enclosure.name)
      (hreached.1.enter hne outer enclosure.name enclosure.styling)
      (hreached.2.enter hinj hne hsituated' hreached.1 enclosure.name enclosure.styling)

end Places

/-- A style that stands at a place between some statements and others: what is stored for it is
what its declaration spells out, its tags that lead nowhere are reported, and whatever else is
declared later, this is what the scope keeps under the name until the name itself comes again. -/
structure Declares (setting : Compile.Setting) (place : List Scope × Work) (spot : Outside × Sheet)
    (before : List Node) (name : String) (style : Node) (extent : Option Span)
    (after : List Node) : Prop where
  stored : ∃ flat,
    ((readAll spot.1 before spot.2).declaration spot.1 style).Expands flat ∧
      (lowerAll setting place.1 (before ++ [.namedStyle name style extent]) place.2).scope =
        (lowerAll setting place.1 before place.2).scope.mapContents (·.setStyle name flat)
  reported :
    (lowerAll setting place.1 (before ++ [.namedStyle name style extent]) place.2).diagnostics =
      (lowerAll setting place.1 before place.2).diagnostics ++
        unresolved ((readAll spot.1 before spot.2).reach spot.1) style.tags
  kept : (∀ other place', .namedStyle name other place' ∉ after) → ∃ flat,
    ((readAll spot.1 before spot.2).declaration spot.1 style).Expands flat ∧
      (lowerAll setting place.1 (before ++ .namedStyle name style extent :: after)
        place.2).scope.contents.styles.get? name = some flat

section Main

variable {setting : Compile.Setting} (hinj : Function.Injective setting.idOf)
  (hne : ∀ n, setting.idOf n ≠ "")

include hinj hne

/-- What comes of a style where it stands. -/
theorem declares {base : Nat} {outer : List Scope} {outside yonder : Outside} {work : Work}
    {draft : Draft} {sheet : Sheet} {before after : List Node} {name : String} {style : Node}
    {extent : Option Span}
    (himports : Node.locationsOfAll (before ++ .namedStyle name style extent :: after) = [])
    (hsituated : Situated (numbering setting.idOf base) draft outer outside)
    (hfollows : Follows setting.idOf base work draft) (h : Tracks outer yonder work sheet) :
    Declares setting (outer, work) (yonder, sheet) before name style extent after := by
  have hbefore : Node.locationsOfAll before = [] := by
    rw [locationsOfAll_append] at himports
    exact (List.append_eq_nil_iff.mp himports).1
  have hreached := (statements_tracked hinj hne).all before hbefore outer outside yonder work draft
    sheet hsituated hfollows h
  have hlast := (statements_tracked hinj hne).all _ himports outer outside yonder work draft
    sheet hsituated hfollows h
  have hexpands := hreached.expands style
  have htold := hreached.unresolved_eq style.tags
  have hflat := flatten_eq outer style (lowerAll setting outer before work)
  constructor
  case stored =>
    refine ⟨_, hexpands, ?_⟩
    rw [lowerAll_append, lowerAll, lowerAll, lower_namedStyle]
    unfold lowerNamedStyle
    rw [hflat]
    rfl
  case reported =>
    rw [lowerAll_append, lowerAll, lowerAll, lower_namedStyle]
    unfold lowerNamedStyle
    rw [hflat, ← htold]
    rfl
  case kept =>
    intro hnever
    rw [readAll_append, readAll, read_namedStyle] at hlast
    generalize readAll yonder before sheet = reached at *
    -- The name still goes with the number of this declaration, and the number with it.
    have hbound : lastBound name
        (readAll yonder after (reached.declare yonder name style)).events =
          some reached.declared.length := by
      rw [lastBound_readAll hnever]
      exact if_pos rfl
    have hanswer := hlast.answers [name]
    rw [below, hbound] at hanswer
    obtain ⟨flat, hfound, declaration, hnumber, hflat⟩ := rel_some hanswer
    rw [declared_kept, Option.mem_some_iff] at hnumber
    exact ⟨flat, hnumber ▸ hflat, hfound⟩

/-- Without packages, what is stored in every scope under every name is what the declaration made
last under it spells out: for each property its own value, or else that of the last declaration
with one among those that its tags led to where it stood. Every tag that leads nowhere is reported
once. And so it is with each single style at the place where it stands. -/
theorem stored_as_declared (statements : List Node)
    (himports : Node.locationsOfAll statements = []) (world : Package.World) :
    let lowered := lowerRecipe setting statements world
    let sheet := readAll [] statements {}
    Keeps sheet.declared lowered.scope sheet.events ∧ lost lowered = sheet.missing ∧
      ∀ enclosures before name style extent after,
        statements = surround enclosures (before ++ .namedStyle name style extent :: after) →
        let place := arrive setting enclosures [] (opening setting world)
        lowered = depart setting enclosures [] (opening setting world)
            (lowerAll setting place.1 (before ++ .namedStyle name style extent :: after) place.2) ∧
          Declares setting place (readTo enclosures [] {}) before name style extent after := by
  intro lowered sheet
  have hsituated := situated_start setting world
  have hfollows := follows_start setting world
  have hstart : Tracks [] [] (opening setting world) {} := by
    refine ⟨.nil, List.nodup_singleton _, answers_ofContents _ rfl, trivial, rfl⟩
  have hend : Tracks [] [] lowered sheet :=
    (statements_tracked hinj hne).all statements himports [] [] [] _ _ _ hsituated hfollows hstart
  refine ⟨keeps_of_answers hend.answers hend.keeps, hend.missing, ?_⟩
  rintro enclosures before name style extent after rfl
  obtain ⟨hinner, hplace, outside, draft, hsituated', hfollows'⟩ :=
    arrive_tracked hinj hne enclosures _ himports hsituated hfollows hstart
  exact ⟨lowerAll_surround setting enclosures [] (opening setting world) _,
    declares hinj hne hinner hsituated' hfollows' hplace⟩

end Main

/-- A style with the given tags. -/
def styled (properties : List (String × String)) (tags : List Path) : Node :=
  .style (.ofList properties) (tags.map fun path => .styleTag path none) none

/-- A scope between two declarations of one name. The later one refers to the earlier one and into
the scope, and a call refers to a style of the scope from outside. -/
def paletteScope : Enclosure where
  before := [.namedStyle "base" (styled [("color", "red"), ("size", "1")] []) none]
  binding := none
  name := "lib"
  bodyExtent := none
  args := []
  argsExtent := none
  styling := none
  extent := none
  after :=
    [.namedStyle "base" (styled [("size", "3")] [["base"], ["lib", "tone"], ["none"]]) none,
     .call "f" [] (some (styled [] [["lib", "base"], ["tone"]])) none]

/-- In the scope a style refers to one of the same name around it, another style refers to it, and
then it is declared anew. -/
def restyledRecipe : List Node :=
  surround [paletteScope]
    ([.namedStyle "base" (styled [("color", "blue")] [["base"]]) none] ++
      .namedStyle "tone" (styled [("weight", "2")] [["base"], ["lib", "none"]]) none ::
        [.namedStyle "base" (styled [] []) none])

theorem stored_as_declared_restyled :
    Node.locationsOfAll restyledRecipe = [] ∧
      let setting : Compile.Setting := ⟨tally, [], none⟩
      let lowered := lowerRecipe setting restyledRecipe {}
      let sheet := readAll [] restyledRecipe {}
      Keeps sheet.declared lowered.scope sheet.events ∧ lost lowered = sheet.missing ∧
        Declares setting (arrive setting [paletteScope] [] (opening setting {}))
          (readTo [paletteScope] [] {})
          [.namedStyle "base" (styled [("color", "blue")] [["base"]]) none] "tone"
          (styled [("weight", "2")] [["base"], ["lib", "none"]]) none
          [.namedStyle "base" (styled [] []) none] := by
  obtain ⟨hkeeps, hlost, hdeclares⟩ :=
    @stored_as_declared ⟨tally, [], none⟩ tally_injective tally_ne_empty restyledRecipe rfl {}
  exact ⟨rfl, hkeeps, hlost, (hdeclares [paletteScope] _ "tone" _ none _ rfl).2⟩

example : (readAll [] restyledRecipe {}).declared.map
    (fun declaration => (declaration.value? "color", declaration.value? "size")) =
      [(some "red", some "1"), (some "blue", some "1"), (some "blue", some "1"), (none, none),
       (some "blue", some "3")] := rfl

example : (readAll [] restyledRecipe {}).missing.map (fun diagnostic => diagnostic.problem) =
    [.undefinedStyleTag ["lib", "none"], .undefinedStyleTag ["none"],
     .undefinedStyleTag ["tone"]] := rfl

end RecipeGraph.Cascade
