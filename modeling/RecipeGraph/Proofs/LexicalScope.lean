import RecipeGraph.Proofs.LoweringCases
import RecipeGraph.Proofs.Moves
import RecipeGraph.Proofs.Scoping
import RecipeGraph.Recipe.Packages

/-!
Lowering draws the picture that the statements alone describe. What a scope answers to any path
is what the events in it say, and it stays so when a variable is bound or a nested scope is
attached. So every edge starts at the element that the variable denotes, and a variable that
denotes nothing is reported and left out.
-/
namespace RecipeGraph.Scoping

open RecipeGraph.Graph Recipe Compile

variable {ident : Nat → String}

section Legible

variable {scope child : Scope} {events before : List Event}

/-- A scope answers to every path what the events say. -/
structure Legible (ident : Nat → String) (scope : Scope) (events : List Event) : Prop where
  names : ∀ id ∈ scope.names.values, id ∈ scope.children.map Scope.id
  lookups : ∀ path,
    scope.findBelow Contents.variableIds path = (below path events).map ident

theorem Legible.bind (h : Legible ident scope events) (name : String) (element : Nat)
    (look : Option Look) :
    Legible ident
      (scope.mapContents fun contents =>
        (contents.bindVariable name (ident element)).setVariableLook name look)
      (.bound name element :: events) := by
  constructor
  case names =>
    rw [Scope.names_mapContents, Scope.children_mapContents]
    exact h.names
  case lookups =>
    intro path
    match path with
    | [] => rfl
    | [other] =>
      have hold := h.lookups [other]
      simp only [Scope.findBelow, below, lastBound] at hold ⊢
      rw [Scope.contents_mapContents]
      change (scope.contents.variableIds.insert name (ident element)).get? other = _
      rw [OrderedMap.get?_insert]
      by_cases heq : name = other
      · rw [if_pos heq, if_pos heq]
        rfl
      · rw [if_neg heq, if_neg heq]
        exact hold
    | first :: next :: rest =>
      rw [Scope.findBelow_mapContents, h.lookups]
      rfl

/-- What leaves the variables alone changes no answer. -/
theorem Legible.edit (h : Legible ident scope events) {f : Contents → Contents}
    (hf : (f scope.contents).variableIds = scope.contents.variableIds) :
    Legible ident (scope.mapContents f) events := by
  constructor
  case names =>
    rw [Scope.names_mapContents, Scope.children_mapContents]
    exact h.names
  case lookups =>
    intro path
    rw [← h.lookups]
    match path with
    | [] => rfl
    | [other] =>
      simp only [Scope.findBelow, Scope.contents_mapContents, hf]
    | first :: next :: rest => rw [Scope.findBelow_mapContents]

theorem Legible.attach (h : Legible ident scope before) (hchild : Legible ident child events)
    (hfresh : child.id ∉ scope.children.map Scope.id) :
    Legible ident (scope.attach child) (.opened child.name events :: before) := by
  constructor
  case names =>
    intro id hid
    refine Scope.mem_ids_placeChild.mpr ?_
    rw [Scope.names_attach] at hid
    split at hid
    · exact Or.inr (h.names id hid)
    · exact (OrderedMap.mem_values_insert hid).imp (fun heq => heq) (h.names id)
  case lookups =>
    intro path
    match path with
    | [] => rfl
    | [name] => exact h.lookups [name]
    | name :: next :: rest =>
      rw [Scope.findBelow_attach hfresh h.names, h.lookups, hchild.lookups]
      change _ = Option.map ident
        ((lastOpened name (.opened child.name events :: before)).bind (below (next :: rest)))
      rw [lastOpened]
      split
      · rfl
      · rfl

theorem legible_ofContents (contents : Contents) (h : contents.variableIds = {}) :
    Legible ident (.ofContents contents) [] := by
  constructor
  case names =>
    intro id hid
    cases hid
  case lookups =>
    intro path
    match path with
    | [] => rfl
    | [name] =>
      change contents.variableIds.get? name = _
      rw [h]
      rfl
    | name :: next :: rest => rfl

end Legible

/-- The scopes around one with the given id and name, each as it was when the one within was
opened. -/
inductive Around (ident : Nat → String) : String → String → List Scope → Outside → Prop
  | nil {id name : String} : Around ident id name [] []
  | cons {id name : String} {scope : Scope} {before : List Event} {further : List Scope}
      {outside : Outside} (hlegible : Legible ident scope before)
      (hfresh : id ∉ scope.children.map Scope.id)
      (h : Around ident scope.id scope.name further outside) :
      Around ident id name (scope :: further) ((name, before) :: outside)

theorem search_eq_denoted {scope : Scope} {events : List Event} {outer : List Scope}
    {outside : Outside} (h : Around ident scope.id scope.name outer outside)
    (hlegible : Legible ident scope events) (path : Path) :
    Scope.search Contents.variableIds path scope outer =
      (denoted path events outside).map ident := by
  induction outer generalizing scope events outside with
  | nil =>
    cases h
    exact hlegible.lookups path
  | cons around further ih =>
    cases h with
    | @cons _ _ _ _ _ further' haround hfresh hfurther =>
      have hattached : Around ident (around.attach scope).id (around.attach scope).name
          further further' := hfurther
      unfold Scope.search denoted
      rw [hlegible.lookups, ih hattached (haround.attach hlegible hfresh), Option.map_or]

section Depicts

variable {scope inside : Scope} {draft within : Draft}

/-- The scope is drawn so far. -/
structure Depicts (ident : Nat → String) (draft : Draft) (scope : Scope) : Prop where
  id : scope.contents.id = ident draft.label
  name : scope.contents.name = draft.name
  legible : Legible ident scope draft.events
  calls : scope.contents.vertices.entries.map
      (fun entry => (entry.1, entry.2.id, entry.2.name)) =
    draft.calls.map fun call => (ident call.1, ident call.1, call.2)
  links : scope.contents.edges.entries.map (fun entry => (entry.1, linkOf entry.2)) =
    draft.links.map fun link => (ident link.id, link.map ident)
  inner : pictures scope.children = Picture.mapAll ident draft.inner

/-- All numbers in the draft were given. -/
structure Draft.Bounded (draft : Draft) : Prop where
  label : draft.label < draft.given
  calls : ∀ call ∈ draft.calls, call.1 < draft.given
  links : ∀ link ∈ draft.links, link.id < draft.given
  inner : ∀ picture ∈ draft.inner, picture.id < draft.given

theorem id_picture (scope : Scope) : (picture scope).id = scope.id := by
  cases scope
  rfl

theorem id_map (f : Nat → String) (picture : Picture Nat) : (picture.map f).id = f picture.id := by
  cases picture
  rfl

theorem ids_pictures (scopes : List Scope) :
    (pictures scopes).map Picture.id = scopes.map Scope.id := by
  induction scopes with
  | nil => rfl
  | cons first rest ih =>
    unfold pictures
    rw [List.map_cons, List.map_cons, ih, id_picture]

theorem ids_mapAll (f : Nat → String) (pictures : List (Picture Nat)) :
    (Picture.mapAll f pictures).map Picture.id = pictures.map fun picture => f picture.id := by
  induction pictures with
  | nil => rfl
  | cons first rest ih =>
    unfold Picture.mapAll
    rw [List.map_cons, List.map_cons, ih, id_map]

theorem pictures_append (scopes : List Scope) (scope : Scope) :
    pictures (scopes ++ [scope]) = pictures scopes ++ [picture scope] := by
  induction scopes with
  | nil => rfl
  | cons first rest ih =>
    rw [List.cons_append]
    unfold pictures
    rw [ih, List.cons_append]

theorem mapAll_append (f : Nat → String) (pictures : List (Picture Nat)) (picture : Picture Nat) :
    Picture.mapAll f (pictures ++ [picture]) = Picture.mapAll f pictures ++ [picture.map f] := by
  induction pictures with
  | nil => rfl
  | cons first rest ih =>
    rw [List.cons_append]
    unfold Picture.mapAll
    rw [ih, List.cons_append]

theorem Depicts.picture_eq (h : Depicts ident draft scope) :
    picture scope = draft.picture.map ident := by
  have hcalls : scope.contents.vertices.values.map (fun vertex => (vertex.id, vertex.name)) =
      draft.calls.map fun call => (ident call.1, call.2) := by
    have hvalues := congrArg (List.map Prod.snd) h.calls
    rw [List.map_map, List.map_map] at hvalues
    unfold OrderedMap.values
    rw [List.map_map]
    exact hvalues
  have hlinks : scope.contents.edges.values.map linkOf = draft.links.map (Link.map ident) := by
    have hvalues := congrArg (List.map Prod.snd) h.links
    rw [List.map_map, List.map_map] at hvalues
    unfold OrderedMap.values
    rw [List.map_map]
    exact hvalues
  have hid := h.id
  have hname := h.name
  have hinner := h.inner
  obtain ⟨contents, names, children⟩ := scope
  unfold picture Draft.picture Picture.map
  rw [← hinner, ← hlinks, ← hcalls, ← hid, ← hname]
  rfl

variable (hident : Function.Injective ident)

include hident

theorem Depicts.child_fresh (h : Depicts ident draft scope) (hbounded : draft.Bounded) :
    ident draft.given ∉ scope.children.map Scope.id := by
  rw [← ids_pictures, h.inner, ids_mapAll]
  intro hmem
  obtain ⟨picture, hpicture, heq⟩ := List.mem_map.mp hmem
  have hlt := hbounded.inner picture hpicture
  have hsame := hident heq
  omega

theorem Depicts.vertex_fresh (h : Depicts ident draft scope) (hbounded : draft.Bounded) :
    ident draft.given ∉ scope.contents.vertices.keys := by
  have hkeys : scope.contents.vertices.keys = draft.calls.map fun call => ident call.1 := by
    have hfirst := congrArg (List.map Prod.fst) h.calls
    rw [List.map_map, List.map_map] at hfirst
    exact hfirst
  rw [hkeys]
  intro hmem
  obtain ⟨call, hcall, heq⟩ := List.mem_map.mp hmem
  have hlt := hbounded.calls call hcall
  have hsame := hident heq
  omega

theorem Depicts.edge_fresh (h : Depicts ident draft scope) (hbounded : draft.Bounded) :
    ident draft.given ∉ scope.contents.edges.keys := by
  have hkeys : scope.contents.edges.keys = draft.links.map fun link => ident link.id := by
    have hfirst := congrArg (List.map Prod.fst) h.links
    rw [List.map_map, List.map_map] at hfirst
    exact hfirst
  rw [hkeys]
  intro hmem
  obtain ⟨link, hlink, heq⟩ := List.mem_map.mp hmem
  have hlt := hbounded.links link hlink
  have hsame := hident heq
  omega

theorem Depicts.call (h : Depicts ident draft scope) (hbounded : draft.Bounded) (name : String)
    (look : Look) :
    Depicts ident (draft.call name)
      (scope.mapContents (·.addVertex ⟨ident draft.given, name, look⟩)) := by
  have hfresh := h.vertex_fresh hident hbounded
  obtain ⟨contents, names, children⟩ := scope
  refine ⟨h.id, h.name, h.legible.edit rfl, ?_, h.links, h.inner⟩
  change ident draft.given ∉ contents.vertices.keys at hfresh
  change (contents.vertices.insert (ident draft.given) _).entries.map _ =
    (draft.calls ++ [(draft.given, name)]).map _
  rw [OrderedMap.entries_insert_of_not_mem _ hfresh, List.map_append, List.map_append, ← h.calls]
  rfl

theorem Depicts.link (h : Depicts ident draft scope) (hbounded : draft.Bounded) (target : Nat)
    (flow : Nat × String) (look : Look) :
    Depicts ident (draft.link target flow)
      (scope.mapContents
        (·.addEdge ⟨ident draft.given, flow.2, ident flow.1, ident target, look⟩)) := by
  have hfresh := h.edge_fresh hident hbounded
  obtain ⟨contents, names, children⟩ := scope
  refine ⟨h.id, h.name, h.legible.edit rfl, h.calls, ?_, h.inner⟩
  change ident draft.given ∉ contents.edges.keys at hfresh
  change (contents.edges.insert (ident draft.given) _).entries.map _ =
    (draft.links ++ [Link.mk draft.given flow.1 target flow.2]).map _
  rw [OrderedMap.entries_insert_of_not_mem _ hfresh, List.map_append, List.map_append, ← h.links]
  rfl

omit hident

theorem Depicts.bind (h : Depicts ident draft scope) (element : Nat) (target : Node)
    (look : Option Look) :
    Depicts ident (draft.bind element target)
      (scope.mapContents fun contents =>
        (contents.bindVariable target.name (ident element)).setVariableLook target.name look) := by
  have hlegible := h.legible.bind target.name element look
  obtain ⟨contents, names, children⟩ := scope
  exact ⟨h.id, h.name, hlegible, h.calls, h.links, h.inner⟩

theorem Depicts.adorn (h : Depicts ident draft scope) (adornment : Adornment) :
    Depicts ident draft (scope.mapContents adornment.apply) := by
  obtain ⟨contents, names, children⟩ := scope
  obtain ⟨styles, bindings, packages, happly⟩ := adornment.apply_eq contents
  have hlegible : Legible ident (.mk (adornment.apply contents) names children) draft.events := by
    refine h.legible.edit ?_
    rw [Scope.contents_mk, happly]
  change Depicts ident draft (.mk (adornment.apply contents) names children)
  rw [happly] at hlegible ⊢
  exact ⟨h.id, h.name, hlegible, h.calls, h.links, h.inner⟩

/-- A nested scope comes in as the last child. -/
theorem Depicts.leave (h : Depicts ident draft scope) (hinside : Depicts ident within inside)
    (hfresh : inside.id ∉ scope.children.map Scope.id) :
    Depicts ident (draft.leave within) (scope.attach inside) where
  id := h.id
  name := h.name
  legible := by
    have hattached := h.legible.attach hinside.legible hfresh
    unfold Scope.name at hattached
    rw [hinside.name] at hattached
    exact hattached
  calls := h.calls
  links := h.links
  inner := by
    rw [Scope.children_attach, Scope.placeChild_of_not_mem hfresh, pictures_append, h.inner,
      hinside.picture_eq]
    exact (mapAll_append ident draft.inner within.picture).symm

end Depicts

/-- The ids that are given out from a number on. -/
def numbering (idOf : Nat → String) (base n : Nat) : String :=
  idOf (base + n)

theorem numbering_injective {idOf : Nat → String} (hinj : Function.Injective idOf) (base : Nat) :
    Function.Injective (numbering idOf base) := by
  intro m n heq
  have hsum := hinj heq
  omega

/-- More of the same scope is drawn. -/
structure Draft.Onward (draft after : Draft) : Prop where
  given : draft.given ≤ after.given
  label : after.label = draft.label
  name : after.name = draft.name

section Onward

variable {draft middle after : Draft}

theorem Draft.Onward.refl (draft : Draft) : draft.Onward draft :=
  ⟨Nat.le_refl _, rfl, rfl⟩

theorem Draft.Onward.trans (h : draft.Onward middle) (h' : middle.Onward after) :
    draft.Onward after :=
  ⟨Nat.le_trans h.given h'.given, h'.label.trans h.label, h'.name.trans h.name⟩

theorem Draft.onward_link (target : Nat) (flow : Nat × String) (draft : Draft) :
    draft.Onward (draft.link target flow) :=
  ⟨Nat.le_succ _, rfl, rfl⟩

theorem Draft.onward_bind (element : Nat) (draft : Draft) (target : Node) :
    draft.Onward (draft.bind element target) :=
  ⟨Nat.le_refl _, rfl, rfl⟩

end Onward

/-- Where a draft stands among the scopes around. -/
structure Situated (ident : Nat → String) (draft : Draft) (outer : List Scope)
    (outside : Outside) : Prop where
  around : Around ident (ident draft.label) draft.name outer outside
  nodup : (ident draft.label :: outer.map Scope.id).Nodup
  numbered : ∀ id ∈ outer.map Scope.id, ∃ n < draft.given, id = ident n

theorem Situated.onward {draft after : Draft} {outer : List Scope} {outside : Outside}
    (h : Situated ident draft outer outside) (honward : draft.Onward after) :
    Situated ident after outer outside := by
  constructor
  case around =>
    rw [honward.label, honward.name]
    exact h.around
  case nodup =>
    rw [honward.label]
    exact h.nodup
  case numbered =>
    intro id hid
    obtain ⟨n, hn, heq⟩ := h.numbered id hid
    exact ⟨n, Nat.lt_of_lt_of_le hn honward.given, heq⟩

/-- Lowering has come as far as drawing. -/
structure Follows (idOf : Nat → String) (base : Nat) (work : Work) (draft : Draft) : Prop where
  issued : work.world.issued = base + draft.given
  missing : work.missing = draft.missing
  depicts : Depicts (numbering idOf base) draft work.scope
  bounded : draft.Bounded

/-- Both have gone on from a draft and come equally far. -/
structure Advances (idOf : Nat → String) (base : Nat) (draft : Draft) (work : Work)
    (after : Draft) : Prop where
  follows : Follows idOf base work after
  onward : draft.Onward after

section Follows

variable {setting : Compile.Setting} {base : Nat} {work after : Work} {draft : Draft}

theorem Follows.id_issued (h : Follows setting.idOf base work draft) :
    setting.idOf work.world.issued = numbering setting.idOf base draft.given := by
  rw [h.issued]
  rfl

theorem Follows.quiet (h : Follows setting.idOf base work draft) (hquiet : Work.Quiet work after) :
    Follows setting.idOf base after draft := by
  constructor
  case issued =>
    rw [hquiet.world]
    exact h.issued
  case missing => exact hquiet.missing.trans h.missing
  case depicts =>
    rw [hquiet.scope]
    exact h.depicts
  case bounded => exact h.bounded

theorem Follows.miss (h : Follows setting.idOf base work draft) (extent : Option Span)
    {problem : Problem} (hproblem : problem.concernsVariable = true) :
    Follows setting.idOf base (work.report (extent.getD .origin) problem)
      (draft.miss extent problem) := by
  constructor
  case issued => exact h.issued
  case missing =>
    rw [Work.missing_report work _ hproblem, h.missing]
    rfl
  case depicts => exact ⟨h.depicts.id, h.depicts.name, h.depicts.legible, h.depicts.calls,
    h.depicts.links, h.depicts.inner⟩
  case bounded => exact ⟨h.bounded.label, h.bounded.calls, h.bounded.links, h.bounded.inner⟩

theorem Follows.bind (h : Follows setting.idOf base work draft) (element : Nat)
    (look : Node → Option Look) (target : Node) :
    Follows setting.idOf base
      (Work.bindTarget (numbering setting.idOf base element) look work target)
      (draft.bind element target) where
  issued := h.issued
  missing := h.missing
  depicts := h.depicts.bind element target (look target)
  bounded := ⟨h.bounded.label, h.bounded.calls, h.bounded.links, h.bounded.inner⟩

theorem Follows.bindAll (h : Follows setting.idOf base work draft) (element : Nat)
    (look : Node → Option Look) (targets : List Node) :
    Advances setting.idOf base draft
      (targets.foldl (Work.bindTarget (numbering setting.idOf base element) look) work)
      (targets.foldl (Draft.bind element) draft) := by
  induction targets generalizing work draft with
  | nil => exact ⟨h, .refl draft⟩
  | cons target rest ih =>
    have hrest := ih (h.bind element look target)
    exact ⟨hrest.follows, (Draft.onward_bind element draft target).trans hrest.onward⟩

theorem Follows.adorn (h : Follows setting.idOf base work draft) (adornment : Adornment) :
    Follows setting.idOf base (work.update adornment.apply) draft where
  issued := h.issued
  missing := h.missing
  depicts := h.depicts.adorn adornment
  bounded := h.bounded

variable (hinj : Function.Injective setting.idOf)

include hinj

theorem Follows.call (h : Follows setting.idOf base work draft) (outer : List Scope)
    (name : String) (styling : Option Node) :
    Follows setting.idOf base (placeCall setting outer name styling work) (draft.call name) := by
  have hquiet := Work.quiet_checkTags outer styling (work.freshId setting).2
  constructor
  case issued =>
    change ((work.freshId setting).2.checkTags outer styling).world.issued = _
    rw [hquiet.world]
    change work.world.issued + 1 = base + (draft.given + 1)
    rw [h.issued]
    omega
  case missing => exact hquiet.missing.trans h.missing
  case depicts =>
    have hplaced := h.depicts.call (numbering_injective hinj base) h.bounded name
      ((lookOf styling).getD {})
    rw [← h.id_issued] at hplaced
    unfold placeCall
    rw [Work.scope_update, hquiet.scope]
    exact hplaced
  case bounded =>
    refine ⟨Nat.lt_succ_of_lt h.bounded.label, ?_,
      fun link hlink => Nat.lt_succ_of_lt (h.bounded.links link hlink),
      fun picture hpicture => Nat.lt_succ_of_lt (h.bounded.inner picture hpicture)⟩
    intro call hcall
    rcases List.mem_append.mp hcall with hold | hnew
    · exact Nat.lt_succ_of_lt (h.bounded.calls call hold)
    · rw [List.mem_singleton.mp hnew]
      exact Nat.lt_succ_self _

/-- The source of an inflow and the name it goes by. -/
def flowOf (inflow : Inflow) : String × String :=
  (inflow.source, inflow.name)

theorem Follows.link (h : Follows setting.idOf base work draft) (target : Nat) (inflow : Inflow)
    (flow : Nat × String)
    (hflow : flowOf inflow = Prod.map (numbering setting.idOf base) id flow) :
    Follows setting.idOf base
      (Work.addInflow setting (numbering setting.idOf base target) work inflow)
      (draft.link target flow) := by
  obtain ⟨hsource, hname⟩ := Prod.mk.inj hflow
  constructor
  case issued =>
    change work.world.issued + 1 = base + (draft.given + 1)
    rw [h.issued]
    omega
  case missing => exact h.missing
  case depicts =>
    have hlinked := h.depicts.link (numbering_injective hinj base) h.bounded target flow
      (inflow.look.getD {})
    rw [← h.id_issued] at hlinked
    unfold Work.addInflow
    rw [Work.scope_update, hsource, hname]
    exact hlinked
  case bounded =>
    refine ⟨Nat.lt_succ_of_lt h.bounded.label,
      fun call hcall => Nat.lt_succ_of_lt (h.bounded.calls call hcall), ?_,
      fun picture hpicture => Nat.lt_succ_of_lt (h.bounded.inner picture hpicture)⟩
    intro link hlink
    rcases List.mem_append.mp hlink with hold | hnew
    · exact Nat.lt_succ_of_lt (h.bounded.links link hold)
    · rw [List.mem_singleton.mp hnew]
      exact Nat.lt_succ_self _

theorem Follows.linkAll (h : Follows setting.idOf base work draft) (target : Nat)
    (inflows : List Inflow) (flows : List (Nat × String))
    (hflows : inflows.map flowOf = flows.map (Prod.map (numbering setting.idOf base) id)) :
    Advances setting.idOf base draft
      (work.addInflows setting (numbering setting.idOf base target) inflows)
      (flows.foldl (Draft.link target) draft) := by
  induction flows generalizing inflows work draft with
  | nil =>
    rw [List.map_eq_nil_iff.mp hflows]
    exact ⟨h, .refl draft⟩
  | cons flow rest ih =>
    obtain ⟨inflow, others, rfl, hfirst, hothers⟩ := List.map_eq_cons_iff.mp hflows
    have hrest := ih (h.link hinj target inflow flow hfirst) others hothers
    exact ⟨hrest.follows, (Draft.onward_link target flow draft).trans hrest.onward⟩

end Follows

section Arguments

variable {setting : Compile.Setting} (hinj : Function.Injective setting.idOf)
  (hne : ∀ n, setting.idOf n ≠ "") {base : Nat} {outer : List Scope} {outside : Outside}

include hne in
/-- A path leads to the element it denotes. -/
theorem elementOf_eq_denoted {work : Work} {draft : Draft}
    (hsituated : Situated (numbering setting.idOf base) draft outer outside)
    (hfollows : Follows setting.idOf base work draft) (path : Path) :
    work.elementOf? outer path =
      (denoted path draft.events outside).map (numbering setting.idOf base) := by
  have hid : work.scope.id = numbering setting.idOf base draft.label := hfollows.depicts.id
  have hname : work.scope.name = draft.name := hfollows.depicts.name
  have hnodup : ((work.scope :: outer).map Scope.id).Nodup := by
    rw [List.map_cons, hid]
    exact hsituated.nodup
  have haround : Around (numbering setting.idOf base) work.scope.id work.scope.name outer
      outside := by
    rw [hid, hname]
    exact hsituated.around
  unfold Work.elementOf?
  rw [Scope.resolve_eq_search path hnodup,
    search_eq_denoted haround hfollows.depicts.legible path]
  cases denoted path draft.events outside with
  | none => rfl
  | some element =>
    have hnonempty : numbering setting.idOf base element ≠ "" := hne _
    simp [hnonempty]

include hinj

theorem Advances.feed {work : Work} {draft : Draft} {args : List Node} (target : Nat)
    (hargs : Advances setting.idOf base draft (lowerArgs setting outer args work).2
        (drawArgs outside args draft).2)
    (hflows : (lowerArgs setting outer args work).1.map flowOf =
      (drawArgs outside args draft).1.map (Prod.map (numbering setting.idOf base) id)) :
    Advances setting.idOf base draft
      (feed setting outer (numbering setting.idOf base target) args work)
      (drawInflows outside target args draft) := by
  have hlinked := hargs.follows.linkAll hinj target _ _ hflows
  exact ⟨hlinked.follows, hargs.onward.trans hlinked.onward⟩

include hne

theorem arguments_advance :
    Node.ArgumentCases
      (fun arg => ∀ work draft, Situated (numbering setting.idOf base) draft outer outside →
        Follows setting.idOf base work draft →
        Advances setting.idOf base draft (lowerArg setting outer arg work).2
            (drawArg outside arg draft).2 ∧
          (lowerArg setting outer arg work).1.map flowOf =
            (drawArg outside arg draft).1.map (Prod.map (numbering setting.idOf base) id))
      (fun args => ∀ work draft, Situated (numbering setting.idOf base) draft outer outside →
        Follows setting.idOf base work draft →
        Advances setting.idOf base draft (lowerArgs setting outer args work).2
            (drawArgs outside args draft).2 ∧
          (lowerArgs setting outer args work).1.map flowOf =
            (drawArgs outside args draft).1.map (Prod.map (numbering setting.idOf base) id)) where
  call name args styling extent ih work draft hsituated hfollows := by
    have hcall : draft.Onward (draft.call name) := ⟨Nat.le_succ _, rfl, rfl⟩
    obtain ⟨hargs, hflows⟩ := ih (placeCall setting outer name styling work) (draft.call name)
      (hsituated.onward hcall) (hfollows.call hinj outer name styling)
    have hfed := Advances.feed hinj draft.given hargs hflows
    rw [lowerArg_call, hfollows.id_issued]
    exact ⟨⟨hfed.follows, hcall.trans hfed.onward⟩, rfl⟩
  reference path extent work draft hsituated hfollows := by
    have helement := elementOf_eq_denoted hne hsituated hfollows path
    rw [lowerArg_variable, helement]
    unfold drawArg
    cases denoted path draft.events outside with
    | none => exact ⟨⟨hfollows.miss extent rfl, ⟨Nat.le_refl _, rfl, rfl⟩⟩, rfl⟩
    | some element => exact ⟨⟨hfollows, .refl draft⟩, rfl⟩
  other node hnode work draft hsituated hfollows := by
    rw [lowerArg_other setting outer work hnode]
    have hdrawn : drawArg outside node draft = (none, draft) := by
      cases node with
      | call => cases hnode
      | «variable» => cases hnode
      | _ => rfl
    rw [hdrawn]
    exact ⟨⟨hfollows.quiet (Work.quiet_report work _ rfl), .refl draft⟩, rfl⟩
  nil work draft hsituated hfollows := ⟨⟨hfollows, .refl draft⟩, rfl⟩
  cons arg rest hfirst hrest work draft hsituated hfollows := by
    obtain ⟨hone, hflow⟩ := hfirst work draft hsituated hfollows
    obtain ⟨hothers, hflows⟩ := hrest _ _ (hsituated.onward hone.onward) hone.follows
    rw [lowerArgs_cons]
    refine ⟨⟨hothers.follows, hone.onward.trans hothers.onward⟩, ?_⟩
    change _ = ((drawArg outside arg draft).1.toList ++
      (drawArgs outside rest (drawArg outside arg draft).2).1).map _
    rw [List.map_append, List.map_append, hflows, ← Option.toList_map, ← Option.toList_map, hflow]

theorem feed_advances {work : Work} {draft : Draft} (target : Nat) (args : List Node)
    (hsituated : Situated (numbering setting.idOf base) draft outer outside)
    (hfollows : Follows setting.idOf base work draft) :
    Advances setting.idOf base draft
      (feed setting outer (numbering setting.idOf base target) args work)
      (drawInflows outside target args draft) := by
  obtain ⟨hargs, hflows⟩ :=
    (arguments_advance hinj hne).all args work draft hsituated hfollows
  exact Advances.feed hinj target hargs hflows

end Arguments

section Values

/-- What stands on the right of an assignment, unless it is a variable. -/
def drawValue (outside : Outside) : Node → Draft → Option Nat × Draft
  | .call name args _ _, draft =>
      (some draft.given, drawInflows outside draft.given args (draft.call name))
  | .scope name body _ args _ _ _, draft =>
      (some draft.given,
       drawInflows outside draft.given args
        (draft.leave (drawAll ((name, draft.events) :: outside) body (draft.enter name))))
  | _, draft => (none, draft)

theorem draw_assigned (outside : Outside) (targets : List Node) {value : Node}
    (extent : Option Span) (draft : Draft) (h : value.isVariable = false) :
    draw outside (.assignment targets (some value) extent) draft =
      (drawValue outside value draft).2.bindAll targets (drawValue outside value draft).1 := by
  cases value with
  | «variable» => cases h
  | _ => rfl

theorem drawValue_unbuilt (outside : Outside) {node : Node} (draft : Draft)
    (h : node.isBuilt = false) : drawValue outside node draft = (none, draft) := by
  cases node with
  | call => cases h
  | scope => cases h
  | package => cases h
  | _ => rfl

theorem draw_other (outside : Outside) {node : Node} (draft : Draft)
    (h : node.isStatement = false) : draw outside node draft = draft := by
  cases node with
  | target => rfl
  | style => rfl
  | styleTag => rfl
  | valueList => rfl
  | statementList => rfl
  | recipe => rfl
  | _ => cases h

end Values

section Nested

variable {setting : Compile.Setting} (hinj : Function.Injective setting.idOf)
  (hne : ∀ n, setting.idOf n ≠ "") {base : Nat} {outer : List Scope} {outside : Outside}
  {work : Work} {draft : Draft}

include hne in
theorem Follows.enter (h : Follows setting.idOf base work draft) (outer : List Scope)
    (name : String) (styling : Option Node) :
    Follows setting.idOf base
      (Compile.enter setting (work.scope :: outer) (some (setting.idOf work.world.issued)) name
        styling (work.freshId setting).2) (draft.enter name) := by
  have hquiet := quiet_enter setting (work.scope :: outer) (hne work.world.issued) name styling
    (work.freshId setting).2
  refine Follows.quiet ?_ hquiet
  constructor
  case issued =>
    change work.world.issued + 1 = base + (draft.given + 1)
    rw [h.issued]
    omega
  case missing => exact h.missing
  case depicts => exact ⟨h.id_issued, rfl, legible_ofContents _ rfl, rfl, rfl, rfl⟩
  case bounded =>
    refine ⟨Nat.lt_succ_self _, ?_, ?_, ?_⟩
    · intro call hcall
      cases hcall
    · intro link hlink
      cases hlink
    · intro picture hpicture
      cases hpicture

include hinj in
theorem Situated.enter (h : Situated (numbering setting.idOf base) draft outer outside)
    (hfollows : Follows setting.idOf base work draft) (name : String) :
    Situated (numbering setting.idOf base) (draft.enter name) (work.scope :: outer)
      ((name, draft.events) :: outside) := by
  have hident := numbering_injective hinj base
  have hid : work.scope.id = numbering setting.idOf base draft.label := hfollows.depicts.id
  have hname : work.scope.name = draft.name := hfollows.depicts.name
  have hnumbered : ∀ id ∈ (work.scope :: outer).map Scope.id,
      ∃ n < draft.given, id = numbering setting.idOf base n := by
    intro id hmem
    rcases List.mem_cons.mp hmem with rfl | hold
    · exact ⟨draft.label, hfollows.bounded.label, hid⟩
    · exact h.numbered id hold
  constructor
  case around =>
    refine .cons hfollows.depicts.legible
      (hfollows.depicts.child_fresh hident hfollows.bounded) ?_
    rw [hid, hname]
    exact h.around
  case nodup =>
    refine List.nodup_cons.mpr ⟨?_, ?_⟩
    · intro hmem
      obtain ⟨n, hn, heq⟩ := hnumbered _ hmem
      have hsame : draft.given = n := hident heq
      omega
    · rw [List.map_cons, hid]
      exact h.nodup
  case numbered =>
    intro id hmem
    obtain ⟨n, hn, heq⟩ := hnumbered id hmem
    exact ⟨n, Nat.lt_succ_of_lt hn, heq⟩

include hinj in
/-- A nested scope has an id of its own. -/
theorem Follows.inside_fresh {inside : Work} {within : Draft} {name : String}
    (h : Follows setting.idOf base work draft) (hinside : Follows setting.idOf base inside within)
    (honward : (draft.enter name).Onward within) :
    inside.scope.id ∉ work.scope.children.map Scope.id := by
  have hid : inside.scope.id = numbering setting.idOf base draft.given := by
    have hlabel := hinside.depicts.id
    rw [honward.label] at hlabel
    exact hlabel
  rw [hid]
  exact h.depicts.child_fresh (numbering_injective hinj base) h.bounded

include hinj in
theorem Follows.leave {inside : Work} {within : Draft}
    (h : Follows setting.idOf base work draft)
    (hinside : Follows setting.idOf base inside within) (name : String)
    (honward : (draft.enter name).Onward within) :
    Follows setting.idOf base { inside with scope := work.scope.attach inside.scope }
      (draft.leave within) := by
  have hfresh := h.inside_fresh hinj hinside honward
  have hgiven : draft.given < within.given := honward.given
  constructor
  case issued => exact hinside.issued
  case missing => exact hinside.missing
  case depicts => exact h.depicts.leave hinside.depicts hfresh
  case bounded =>
    refine ⟨Nat.lt_trans h.bounded.label hgiven,
      fun call hcall => Nat.lt_trans (h.bounded.calls call hcall) hgiven,
      fun link hlink => Nat.lt_trans (h.bounded.links link hlink) hgiven, ?_⟩
    intro picture hpicture
    rcases List.mem_append.mp hpicture with hold | hnew
    · exact Nat.lt_trans (h.bounded.inner picture hold) hgiven
    · rw [List.mem_singleton.mp hnew]
      exact hinside.bounded.label

end Nested

section Start

variable (setting : Compile.Setting) (world : Package.World)

theorem situated_start :
    Situated (numbering setting.idOf world.issued) { label := 0, name := "", given := 1 } [] [] :=
  ⟨.nil, List.nodup_cons.mpr ⟨List.not_mem_nil, List.nodup_nil⟩, by simp⟩

/-- A recipe is followed from its beginning. -/
theorem follows_start :
    Follows setting.idOf world.issued
      (enter setting [] none "" none ⟨world, [], .ofContents { id := "" }⟩)
      { label := 0, name := "", given := 1 } :=
  ⟨rfl, rfl, ⟨rfl, rfl, legible_ofContents _ rfl, rfl, rfl, rfl⟩,
    Nat.zero_lt_one, by simp, by simp, by simp⟩

end Start

section Statements

variable {setting : Compile.Setting} (hinj : Function.Injective setting.idOf)
  (hne : ∀ n, setting.idOf n ≠ "") {base : Nat}

include hne

theorem alias_advances {outer : List Scope} {outside : Outside} {work : Work} {draft : Draft}
    (hsituated : Situated (numbering setting.idOf base) draft outer outside)
    (hfollows : Follows setting.idOf base work draft) (targets : List Node) (path : Path)
    (extent : Option Span) :
    Advances setting.idOf base draft (lowerAlias outer targets path extent work)
      (drawAlias outside targets path extent draft) := by
  have helement := elementOf_eq_denoted hne hsituated hfollows path
  unfold lowerAlias drawAlias
  rw [helement]
  cases denoted path draft.events outside with
  | none => exact ⟨hfollows.miss extent rfl, ⟨Nat.le_refl _, rfl, rfl⟩⟩
  | some element => exact hfollows.bindAll element _ targets

include hinj

theorem statements_advance :
    Node.StatementCases
      (fun value => Node.locationsOfValue (some value) = [] → ∀ outer outside work draft,
        Situated (numbering setting.idOf base) draft outer outside →
        Follows setting.idOf base work draft →
        Advances setting.idOf base draft (lowerValue setting outer value work).2
            (drawValue outside value draft).2 ∧
          (lowerValue setting outer value work).1 =
            (drawValue outside value draft).1.map (numbering setting.idOf base))
      (fun node => node.locations = [] → ∀ outer outside work draft,
        Situated (numbering setting.idOf base) draft outer outside →
        Follows setting.idOf base work draft →
        Advances setting.idOf base draft (lower setting outer node work)
          (draw outside node draft))
      (fun nodes => Node.locationsOfAll nodes = [] → ∀ outer outside work draft,
        Situated (numbering setting.idOf base) draft outer outside →
        Follows setting.idOf base work draft →
        Advances setting.idOf base draft (lowerAll setting outer nodes work)
          (drawAll outside nodes draft)) where
  call name args styling extent _ outer outside work draft hsituated hfollows := by
    have hcall : draft.Onward (draft.call name) := ⟨Nat.le_succ _, rfl, rfl⟩
    have hfed := feed_advances hinj hne draft.given args (hsituated.onward hcall)
      (hfollows.call hinj outer name styling)
    rw [lowerValue_call, hfollows.id_issued]
    exact ⟨⟨hfed.follows, hcall.trans hfed.onward⟩, rfl⟩
  scope name body _ args _ styling _ hbody himports outer outside work draft hsituated
      hfollows := by
    have hinside := hbody himports (work.scope :: outer) ((name, draft.events) :: outside) _ _
      (hsituated.enter hinj hfollows name) (hfollows.enter hne outer name styling)
    have hleft := hfollows.leave hinj hinside.follows name hinside.onward
    have honward : draft.Onward (draft.leave
        (drawAll ((name, draft.events) :: outside) body (draft.enter name))) :=
      ⟨Nat.le_of_succ_le hinside.onward.given, rfl, rfl⟩
    have hfed := feed_advances hinj hne draft.given args (hsituated.onward honward) hleft
    rw [lowerValue_scope]
    unfold lowerNested lowerInside
    dsimp only
    rw [hfollows.id_issued] at hleft hfed ⊢
    exact ⟨⟨hfed.follows, honward.trans hfed.onward⟩, rfl⟩
  package location label extent himports := by
    cases himports
  unbuilt node hnode _ outer outside work draft hsituated hfollows := by
    rw [lowerValue_unbuilt setting outer work hnode, drawValue_unbuilt outside draft hnode]
    exact ⟨⟨hfollows.quiet (Work.quiet_report work _ rfl), .refl draft⟩, rfl⟩
  bareCall name args styling extent hvalue himports outer outside work draft hsituated
      hfollows := by
    rw [lower_call]
    exact (hvalue rfl outer outside work draft hsituated hfollows).1
  bareScope name body bodyExtent args argsExtent styling extent hvalue himports outer outside
      work draft hsituated hfollows := by
    rw [lower_scope]
    exact (hvalue himports outer outside work draft hsituated hfollows).1
  barePackage location label extent himports := by
    cases himports
  reference path extent _ outer outside work draft hsituated hfollows := by
    rw [lower_variable]
    exact ⟨hfollows, .refl draft⟩
  incomplete targets extent _ outer outside work draft hsituated hfollows := by
    rw [lower_incomplete]
    have hleft := Work.quiet_checkLeft targets extent work
    exact ⟨hfollows.quiet (hleft.trans (Work.quiet_report _ _ rfl)), .refl draft⟩
  synonym targets path place extent _ outer outside work draft hsituated hfollows := by
    rw [lower_synonym]
    exact alias_advances hne hsituated
      (hfollows.quiet (quiet_prepareTargets outer targets extent work)) targets path place
  assigned targets value extent hvariable hvalue himports outer outside work draft hsituated
      hfollows := by
    obtain ⟨hadvanced, hbound⟩ := hvalue himports outer outside _ draft hsituated
      (hfollows.quiet (quiet_prepareTargets outer targets extent work))
    rw [lower_assigned setting outer work targets extent hvariable,
      draw_assigned outside targets extent draft hvariable]
    dsimp only
    rw [hbound]
    cases (drawValue outside value draft).1 with
    | none => exact hadvanced
    | some element =>
      have hbind := hadvanced.follows.bindAll element (fun target => lookOf target.styling) targets
      exact ⟨hbind.follows, hadvanced.onward.trans hbind.onward⟩
  namedStyle name style extent _ outer outside work draft hsituated hfollows := by
    rw [lower_namedStyle]
    have hflat := hfollows.quiet (Work.quiet_flatten outer style work)
    exact ⟨hflat.adorn (.style name (flatten outer style work).1), .refl draft⟩
  styleBinding keyword tags extent _ outer outside work draft hsituated hfollows := by
    rw [lower_styleBinding]
    exact ⟨hfollows.adorn (.binding keyword (tags.map Node.path)), .refl draft⟩
  other node hnode _ outer outside work draft hsituated hfollows := by
    rw [lower_other setting outer work hnode, draw_other outside draft hnode]
    exact ⟨hfollows.quiet (Work.quiet_report work _ rfl), .refl draft⟩
  nil _ outer outside work draft hsituated hfollows := by
    rw [lowerAll]
    exact ⟨hfollows, .refl draft⟩
  cons node rest hnode hrest himports outer outside work draft hsituated hfollows := by
    obtain ⟨hfirst, hothers⟩ := List.append_eq_nil_iff.mp himports
    have hone := hnode hfirst outer outside work draft hsituated hfollows
    have hall := hrest hothers outer outside _ _ (hsituated.onward hone.onward) hone.follows
    rw [lowerAll]
    exact ⟨hall.follows, hone.onward.trans hall.onward⟩

/-- Without packages, lowering gives the scope that the statements alone describe: every edge
starts at the element its variable denotes where it stands, and a variable that denotes nothing
is reported and gives no edge. -/
theorem lowered_as_drawn (statements : List Node)
    (himports : Node.locationsOfAll statements = []) (world : Package.World) :
    let lowered := lowerRecipe setting statements world
    picture lowered.scope =
        (drawing statements).picture.map (numbering setting.idOf world.issued) ∧
      lowered.diagnostics.filter (fun diagnostic => diagnostic.problem.concernsVariable) =
        (drawing statements).missing := by
  intro lowered
  have hsituated : Situated (numbering setting.idOf world.issued)
      { label := 0, name := "", given := 1 } [] [] := by
    refine ⟨.nil, List.nodup_cons.mpr ⟨List.not_mem_nil, List.nodup_nil⟩, ?_⟩
    intro id hid
    cases hid
  have hbegin : Follows setting.idOf world.issued
      (enter setting [] none "" none ⟨world, [], .ofContents { id := "" }⟩)
      { label := 0, name := "", given := 1 } := by
    refine ⟨rfl, rfl, ⟨rfl, rfl, legible_ofContents _ rfl, rfl, rfl, rfl⟩, ?_⟩
    refine ⟨Nat.zero_lt_one, ?_, ?_, ?_⟩
    · intro call hcall
      cases hcall
    · intro link hlink
      cases hlink
    · intro inner hinner
      cases hinner
  have hend := (statements_advance hinj hne).all statements himports [] [] _ _ hsituated hbegin
  exact ⟨hend.follows.depicts.picture_eq, hend.follows.missing⟩

end Statements

/-- A recipe in which a nested scope binds a name anew, and is fed by what it binds. -/
def nestedRecipe : List Node :=
  [.assignment [.target "a" none none] (some (.call "f" [] none none)) none,
   .scope "n"
    [.call "g" [.variable ["a"] none] none none,
     .assignment [.target "a" none none] (some (.call "h" [] none none)) none,
     .call "g" [.variable ["a"] none, .variable ["n", "a"] none] none none]
    none [.variable ["a"] none, .variable ["n", "a"] none, .variable ["b"] none] none none none]

theorem lowered_as_drawn_nested :
    Node.locationsOfAll nestedRecipe = [] ∧
      let lowered := lowerRecipe ⟨tally, [], none⟩ nestedRecipe {}
      picture lowered.scope = (drawing nestedRecipe).picture.map (numbering tally 0) ∧
        lowered.diagnostics.filter (fun diagnostic => diagnostic.problem.concernsVariable) =
          (drawing nestedRecipe).missing :=
  ⟨rfl, lowered_as_drawn tally_injective tally_ne_empty nestedRecipe rfl {}⟩

example : (drawing nestedRecipe).links.map (fun link => (link.source, link.target)) =
    [(1, 2), (5, 2)] := rfl

end RecipeGraph.Scoping
