import RecipeGraph.Proofs.References
import Mathlib.Data.List.Nodup

/-!
What is found in a copy. The names of a scope lead to the children that came in last under them.
A copy takes the children in anew in the order in which they stand, which is another order when a
child came in again after others and kept its place. So a copy finds what the original finds as
long as no name is held by a child that stands before another one of that name.
-/
namespace RecipeGraph

open RecipeGraph.Graph Package

namespace Graph.Scope

/-- Names lead to children that bear them, and every child that bears a name can be asked for by
it. -/
structure Indexed (scope : Scope) : Prop where
  leads : ∀ name x, scope.names.get? name = some x →
    name ≠ "" ∧ ∃ child ∈ scope.children, child.id = x ∧ child.name = name
  known : ∀ child ∈ scope.children, child.name ≠ "" → scope.names.get? child.name ≠ none

/-- So it is in the scope and in all that are in it. -/
def Named (scope : Scope) : Prop :=
  ∀ part ∈ scope.all, part.Indexed

/-- No name is held by a child that stands before another one of that name. -/
def HeldByLast (scope : Scope) : Prop :=
  scope.children.Pairwise fun first second =>
    first.name = second.name → scope.names.get? first.name ≠ some first.id

instance (scope : Scope) : Decidable scope.HeldByLast := by
  unfold HeldByLast
  infer_instance

@[simp] theorem name_copy (scope : Scope) : scope.copy.name = scope.name := by
  unfold name
  rw [contents_copy]

section Names

variable {scope other child : Scope} {children : List Scope}

theorem indexed_ofContents (contents : Contents) : (ofContents contents).Indexed := by
  constructor
  · intro name x hget
    cases hget
  · intro child hchild
    cases hchild

theorem Indexed.mapContents (h : scope.Indexed) (f : Contents → Contents) :
    (scope.mapContents f).Indexed := by
  cases scope
  exact ⟨h.leads, h.known⟩

theorem Indexed.attach (h : scope.Indexed)
    (hnames : ∀ old ∈ scope.children, old.id = child.id → old.name = child.name) :
    (scope.attach child).Indexed := by
  have hkept : ∀ name x, scope.names.get? name = some x →
      name ≠ "" ∧ ∃ held ∈ (scope.attach child).children, held.id = x ∧ held.name = name := by
    intro name x hget
    obtain ⟨hname, old, hold, hid, hbears⟩ := h.leads name x hget
    refine ⟨hname, ?_⟩
    by_cases hsame : old.id = child.id
    · exact ⟨child, self_mem_placeChild child _, hsame.symm.trans hid,
        (hnames old hold hsame).symm.trans hbears⟩
    · exact ⟨old, mem_placeChild_of_ne hold hsame, hid, hbears⟩
  constructor
  case leads =>
    intro name x hget
    rw [names_attach] at hget
    split at hget
    · exact hkept name x hget
    · rename_i hnamed
      obtain ⟨rfl, rfl⟩ | ⟨-, hold⟩ := OrderedMap.get?_insert_eq_some.mp hget
      · exact ⟨hnamed, child, self_mem_placeChild child _, rfl, rfl⟩
      · exact hkept name x hold
  case known =>
    intro held hheld hnamed
    rw [names_attach]
    rcases mem_placeChild hheld with rfl | hold
    · rw [if_neg hnamed, OrderedMap.get?_insert_self]
      exact Option.some_ne_none _
    · split
      · exact h.known held hold hnamed
      · rw [OrderedMap.get?_insert]
        split
        · exact Option.some_ne_none _
        · exact h.known held hold hnamed

theorem Indexed.attachAll (h : scope.Indexed)
    (hnames : ∀ first ∈ scope.children ++ children, ∀ second ∈ scope.children ++ children,
      first.id = second.id → first.name = second.name) :
    (children.foldl Scope.attach scope).Indexed := by
  induction children generalizing scope with
  | nil => exact h
  | cons first rest ih =>
    have hfirst : first ∈ scope.children ++ first :: rest :=
      List.mem_append_right _ (List.mem_cons_self ..)
    have hold : ∀ old ∈ (scope.attach first).children ++ rest,
        old ∈ scope.children ++ first :: rest := by
      intro old hmem
      rcases List.mem_append.mp hmem with hplaced | hrest
      · rcases mem_placeChild hplaced with rfl | hkept
        · exact hfirst
        · exact List.mem_append_left _ hkept
      · exact List.mem_append_right _ (List.mem_cons_of_mem _ hrest)
    refine ih (h.attach fun old hmem => ?_) fun one hone another hanother => ?_
    · exact hnames old (List.mem_append_left _ hmem) first hfirst
    · exact hnames one (hold one hone) another (hold another hanother)

theorem Named.indexed (h : scope.Named) : scope.Indexed :=
  h scope (self_mem_all scope)

theorem Named.of_child (h : scope.Named) (hchild : child ∈ scope.children) : child.Named :=
  fun part hpart => h part (mem_all_of_child hchild hpart)

theorem Named.of_children (hself : scope.Indexed) (h : ∀ child ∈ scope.children, child.Named) :
    scope.Named := by
  intro part hpart
  rcases mem_all.mp hpart with rfl | ⟨child, hchild, hin⟩
  · exact hself
  · exact h child hchild part hin

theorem named_ofContents (contents : Contents) : (ofContents contents).Named :=
  .of_children (indexed_ofContents contents) fun _ hnone => nomatch hnone

theorem Named.mapContents (h : scope.Named) (f : Contents → Contents) :
    (scope.mapContents f).Named := by
  refine .of_children (h.indexed.mapContents f) fun child hchild => ?_
  rw [children_mapContents] at hchild
  exact h.of_child hchild

theorem Named.attach (h : scope.Named) (hchild : child.Named)
    (hnames : ∀ old ∈ scope.children, old.id = child.id → old.name = child.name) :
    (scope.attach child).Named := by
  refine .of_children (h.indexed.attach hnames) fun held hheld => ?_
  rcases mem_placeChild hheld with rfl | hold
  · exact hchild
  · exact h.of_child hold

theorem Named.merge (h : scope.Named) (hother : other.Named)
    (hnames : ∀ first ∈ scope.children ++ other.children,
      ∀ second ∈ scope.children ++ other.children,
        first.id = second.id → first.name = second.name) :
    (scope.merge other).Named := by
  have hself := h.indexed.mapContents (·.merge other.contents)
  refine .of_children (hself.attachAll ?_) fun child hchild => ?_
  · rwa [children_mapContents]
  · rcases mem_children_foldl_attach hchild with hin | hown
    · exact hother.of_child hin
    · rw [children_mapContents] at hown
      exact h.of_child hown

theorem indexed_copy (h : (scope.children.map id).Nodup) : scope.copy.Indexed := by
  rw [copy_eq]
  refine (indexed_ofContents _).attachAll ?_
  change ∀ first ∈ scope.children.map copy, ∀ second ∈ scope.children.map copy, _
  rw [← ids_copies] at h
  intro first hfirst second hsecond hid
  rw [List.inj_on_of_nodup_map h hfirst hsecond hid]

theorem named_copy (h : scope.DistinctIds) : scope.copy.Named := by
  intro part hpart
  obtain ⟨original, horiginal, rfl⟩ := mem_all_copy h hpart
  exact indexed_copy (h original horiginal)

/-- Children of other names leave a name to whom it belongs. -/
theorem get?_names_foldl_attach {name : String} (h : ∀ child ∈ children, child.name ≠ name) :
    (children.foldl Scope.attach scope).names.get? name = scope.names.get? name := by
  induction children generalizing scope with
  | nil => rfl
  | cons first rest ih =>
    obtain ⟨hfirst, hrest⟩ := List.forall_mem_cons.mp h
    rw [List.foldl_cons, ih hrest, names_attach]
    split
    · rfl
    · exact OrderedMap.get?_insert_of_ne _ _ hfirst

/-- A name belongs to the last of those that bear it. -/
theorem get?_names_of_last (scope : Scope) (before : List Scope) {after : List Scope}
    (hnamed : child.name ≠ "") (h : ∀ later ∈ after, later.name ≠ child.name) :
    ((before ++ child :: after).foldl Scope.attach scope).names.get? child.name =
      some child.id := by
  rw [List.foldl_append, List.foldl_cons, get?_names_foldl_attach h, names_attach, if_neg hnamed,
    OrderedMap.get?_insert_self]

/-- A name that children bear belongs to one of them once they are in. -/
theorem get?_names_of_later (scope : Scope) {name : String} (hname : name ≠ "")
    (h : ∃ child ∈ children, child.name = name) :
    ∃ child ∈ children, (children.foldl Scope.attach scope).names.get? name = some child.id := by
  induction children generalizing scope with
  | nil =>
    obtain ⟨_, hnone, -⟩ := h
    cases hnone
  | cons first rest ih =>
    by_cases hrest : ∃ child ∈ rest, child.name = name
    · obtain ⟨child, hchild, hheld⟩ := ih (scope.attach first) hrest
      exact ⟨child, List.mem_cons_of_mem _ hchild, hheld⟩
    · have hfirst : first.name = name := by
        obtain ⟨child, hchild, hbears⟩ := h
        rcases List.mem_cons.mp hchild with rfl | hin
        · exact hbears
        · exact absurd ⟨child, hin, hbears⟩ hrest
      subst hfirst
      refine ⟨first, List.mem_cons_self .., ?_⟩
      exact get?_names_of_last scope [] hname fun later hlater hsame =>
        hrest ⟨later, hlater, hsame⟩

/-- A copy has the names of the original if and only if they are held by the last to bear
them. -/
theorem names_copy_iff (hindexed : scope.Indexed) (hdistinct : (scope.children.map id).Nodup) :
    (∀ name, scope.copy.names.get? name = scope.names.get? name) ↔ scope.HeldByLast := by
  constructor
  · intro hsame
    refine List.pairwise_iff_forall_sublist.mpr ?_
    intro first second hsublist hname hheld
    -- whoever holds the name in the copy is not among those up to the first one
    obtain ⟨before, after, hsplit, hfirst, hsecond⟩ := List.cons_sublist_iff.mp hsublist
    obtain ⟨hnamed, -⟩ := hindexed.leads _ _ hheld
    have hlater : ∃ child ∈ after.map copy, child.name = first.name :=
      ⟨second.copy, List.mem_map_of_mem (List.singleton_sublist.mp hsecond),
        (name_copy second).trans hname.symm⟩
    obtain ⟨holder, hholder, hheld'⟩ := get?_names_of_later
      ((before.map copy).foldl Scope.attach (ofContents scope.contents)) hnamed hlater
    rw [← List.foldl_append, ← List.map_append, ← hsplit, ← copy_eq, hsame, hheld] at hheld'
    obtain ⟨original, horiginal, rfl⟩ := List.mem_map.mp hholder
    rw [hsplit, List.map_append] at hdistinct
    refine (List.nodup_append.mp hdistinct).2.2 _ (List.mem_map_of_mem hfirst) _
      (List.mem_map_of_mem horiginal) ?_
    exact (Option.some.inj hheld').trans (id_copy original)
  · intro hlast name
    cases hget : scope.names.get? name with
    | none =>
      by_contra hfound
      obtain ⟨x, hx⟩ := Option.ne_none_iff_exists'.mp hfound
      obtain ⟨hname, child, hchild, -, hbears⟩ := (indexed_copy hdistinct).leads name x hx
      rw [copy_eq] at hchild
      rcases mem_children_foldl_attach hchild with hcopy | hnone
      · obtain ⟨original, horiginal, rfl⟩ := List.mem_map.mp hcopy
        rw [name_copy] at hbears
        refine hindexed.known original horiginal (hbears ▸ hname) ?_
        rwa [hbears]
      · cases hnone
    | some x =>
      obtain ⟨hname, child, hchild, rfl, rfl⟩ := hindexed.leads name x hget
      obtain ⟨before, after, hsplit⟩ := List.append_of_mem hchild
      unfold HeldByLast at hlast
      rw [hsplit] at hlast
      have hlater := (List.pairwise_cons.mp (List.pairwise_append.mp hlast).2.1).1
      have hcopies : ∀ later ∈ after.map copy, later.name ≠ child.copy.name := by
        intro later hmem hsame
        obtain ⟨original, horiginal, rfl⟩ := List.mem_map.mp hmem
        rw [name_copy, name_copy] at hsame
        exact hlater original horiginal hsame.symm hget
      have hheld := get?_names_of_last (ofContents scope.contents) (before.map copy)
        ((name_copy child).symm ▸ hname) hcopies
      rw [copy_eq, hsplit, List.map_append, List.map_cons]
      rwa [name_copy, id_copy] at hheld

end Names

/-- Downwards a copy gives what the original gives if names lead to the same children. -/
theorem findBelow_copy {α : Type} (member : Contents → OrderedMap α) {scope : Scope}
    (hdistinct : scope.DistinctIds)
    (hnames : ∀ part ∈ scope.all, ∀ name, part.copy.names.get? name = part.names.get? name)
    (path : Path) : scope.copy.findBelow member path = scope.findBelow member path := by
  induction path generalizing scope with
  | nil => rfl
  | cons name rest ih =>
    cases rest with
    | nil =>
      unfold findBelow
      rw [contents_copy]
    | cons next rest =>
      have hchild : ∀ x, scope.copy.child? x = (scope.child? x).map copy := by
        intro x
        unfold child?
        rw [children_copy hdistinct, List.find?_map]
        simp only [Function.comp_def, id_copy]
      simp only [findBelow]
      rw [hnames scope (self_mem_all scope)]
      cases scope.names.get? name with
      | none => rfl
      | some x =>
        simp only [Option.bind_some, hchild]
        cases hfound : scope.child? x with
        | none => rfl
        | some child =>
          have hin : child ∈ scope.children := List.mem_of_find?_eq_some hfound
          exact ih (hdistinct.of_child hin) fun part hpart =>
            hnames part (mem_all_of_child hin hpart)

/-- A part of a scope and the scopes around it, from the inside out. -/
inductive Inside (root : Scope) : Scope → List Scope → Prop
  | root : Inside root root []
  | child {scope child : Scope} {around : List Scope} (h : Inside root scope around)
      (hchild : child ∈ scope.children) : Inside root child (scope :: around)

/-- The value of a path in the nearest of some scopes, each of which is complete and holds the
one before. An id that comes again ends the search. -/
def lookUp {α : Type} (member : Contents → OrderedMap α) (path : Path) :
    List String → List Scope → Option α
  | _, [] => none
  | seen, scope :: around =>
      if scope.id ∈ seen then none
      else
        match scope.findBelow member path with
        | some value => some value
        | none => lookUp member path (scope.id :: seen) around

/-- The scopes in which a path is looked up, from the inside out, each with the one before it in
its place. -/
def upwards : Scope → List Scope → List Scope
  | scope, [] => [scope]
  | scope, around :: further => scope :: upwards (around.attach scope) further

/-- Each of them is part of the last. -/
theorem inside_upwards (scope : Scope) (outer : List Scope) :
    ∃ root around, upwards scope outer = scope :: around ∧ Inside root scope around := by
  induction outer generalizing scope with
  | nil => exact ⟨scope, [], rfl, .root⟩
  | cons first further ih =>
    obtain ⟨root, around, hupwards, hinside⟩ := ih (first.attach scope)
    exact ⟨root, first.attach scope :: around, congrArg (scope :: ·) hupwards,
      .child hinside (self_mem_placeChild scope _)⟩

/-- A path is looked up during construction in the scopes as they are then. -/
theorem resolveFrom_eq_lookUp {α : Type} (member : Contents → OrderedMap α) (path : Path)
    (seen : List String) (scope : Scope) (outer : List Scope) :
    resolveFrom member path seen scope outer = lookUp member path seen (upwards scope outer) := by
  induction outer generalizing scope seen with
  | nil =>
    unfold resolveFrom upwards lookUp
    rfl
  | cons around further ih =>
    unfold resolveFrom upwards lookUp
    cases scope.findBelow member path with
    | some value => rfl
    | none =>
      dsimp only
      rw [ih]

section Copied

variable {root part : Scope} {around : List Scope}

theorem Inside.mem_all (h : Inside root part around) : part ∈ root.all := by
  induction h with
  | root => exact self_mem_all root
  | child _ hchild ih => exact mem_all_trans (mem_all_of_child hchild (self_mem_all _)) ih

theorem Inside.around_mem_all (h : Inside root part around) :
    ∀ scope ∈ around, scope ∈ root.all := by
  induction h with
  | root =>
    intro scope hnone
    cases hnone
  | child h _ ih => exact List.forall_mem_cons.mpr ⟨h.mem_all, ih⟩

theorem Inside.copy (h : Inside root part around) (hdistinct : root.DistinctIds) :
    Inside root.copy part.copy (around.map Scope.copy) := by
  induction h with
  | root => exact .root
  | child h hchild ih =>
    refine .child ih ?_
    rw [children_copy (hdistinct.of_mem h.mem_all)]
    exact List.mem_map_of_mem hchild

theorem lookUp_copy {α : Type} {member : Contents → OrderedMap α} {path : Path}
    {scopes : List Scope}
    (h : ∀ scope ∈ scopes, scope.copy.findBelow member path = scope.findBelow member path)
    (seen : List String) :
    lookUp member path seen (scopes.map Scope.copy) = lookUp member path seen scopes := by
  induction scopes generalizing seen with
  | nil => rfl
  | cons scope rest ih =>
    obtain ⟨hself, hrest⟩ := List.forall_mem_cons.mp h
    rw [List.map_cons]
    unfold lookUp
    rw [id_copy, hself, ih hrest]

end Copied

end Graph.Scope

namespace Compile

open Recipe

variable {idOf : Nat → String}

namespace Stage

variable {stage next : Stage}

/-- Whatever is done next, names lead to children that bear them. -/
theorem named_step (hinj : Function.Injective idOf) (hlinked : stage.Linked idOf)
    (hnamed : ∀ root ∈ stage.roots, root.Named) (hmove : Move idOf stage next) :
    ∀ root ∈ next.roots, root.Named := by
  have hframe := hnamed _ (frame_mem_roots stage)
  intro root hroot
  rcases roots_step hmove root hroot with rfl | hold
  · cases hmove with
    | vertex | edge | bind | adorn => exact hframe.mapContents _
    | settle | refer | drop => exact hframe
    | enter | suspend => exact Scope.named_ofContents _
    | @leave around further hwaiting houter =>
      have haround := others_mem_roots (around_mem_others houter)
      refine (hnamed _ haround).attach hframe fun old hchild hid => ?_
      -- a root is alone with its id
      have houtside := (hlinked.inner old (child_known haround hchild)).2
      exact absurd (hid ▸ List.mem_map_of_mem (frame_mem_roots stage)) houtside
    | resume hwaiting houter hcallers =>
      exact hnamed _ (others_mem_roots (caller_mem_others houter hcallers))
    | @adopt package hpackage name =>
      have hdistinct := (hlinked.sound package (shelf_mem_roots hpackage)).distinctIds
      refine hframe.attach ((Scope.named_copy hdistinct).mapContents _) fun old hchild hid => ?_
      have hnumbered := (hlinked.inner old (child_known (frame_mem_roots stage) hchild)).1
      exact absurd (hid.trans (id_relabel package _ name)) (hnumbered.ne_next hinj)
    | @absorb package hpackage =>
      have hdistinct := (hlinked.sound package (shelf_mem_roots hpackage)).distinctIds
      refine hframe.merge (Scope.named_copy hdistinct) fun first hfirst second hsecond hid => ?_
      unfold Scope.name
      rw [(hlinked.children_alike hpackage first hfirst second hsecond hid).contents]
  · exact hnamed root hold

theorem named_of_reachable (hinj : Function.Injective idOf) (h : Reachable idOf stage) :
    ∀ root ∈ stage.roots, root.Named := by
  induction h with
  | first issued =>
    intro root hroot
    cases List.mem_singleton.mp hroot
    exact Scope.named_ofContents _
  | move hreachable hmove ih => exact named_step hinj (linked_of_reachable hinj hreachable) ih hmove
  | @next stage _ ih =>
    intro root hroot
    rcases mem_roots.mp hroot with rfl | hother | hshelf
    · exact Scope.named_ofContents _
    · cases hother
    · exact ih root (shelf_mem_roots hshelf)

end Stage

/-- What is made of a text in a session, and the packages that a session remembers. -/
inductive Finished (idOf : Nat → String) : Scope → Prop
  | compiled {world : World} (h : Session idOf world) (library : Library)
      (source filename : String) (chain : List String) :
      Finished idOf ((Compiler.mk idOf library).compile source filename chain world).1.scope
  | remembered {world : World} (h : Session idOf world) {location : String} {package : Scope}
      (hcached : world.cache.get? location = some (.loaded (.ok package))) :
      Finished idOf package

section Finished

variable (hinj : Function.Injective idOf) (hne : ∀ n, idOf n ≠ "") {root : Scope}

include hne in
theorem Finished.is_root (h : Finished idOf root) :
    ∃ stage, Reachable idOf stage ∧ root ∈ stage.roots := by
  cases h with
  | compiled hworld library source filename chain =>
    obtain ⟨stage, hreachable, -, -, hscope⟩ := hworld.compiled hne library source filename chain
    exact ⟨stage, hreachable, hscope ▸ Stage.frame_mem_roots stage⟩
  | remembered hworld hcached =>
    obtain ⟨shelf, hstocked, hreachable⟩ := hworld.opens hne
    exact ⟨_, hreachable, Stage.shelf_mem_roots (hstocked _ _ hcached)⟩

include hinj hne

/-- A finished scope and a copy of it answer alike, and so do corresponding parts of them, if in
every part the names are held by the last to bear them. -/
theorem copies_answer_alike (h : Finished idOf root)
    (hlast : ∀ part ∈ root.all, part.HeldByLast) {part : Scope} {around : List Scope}
    (hinside : Scope.Inside root part around) :
    Scope.Inside root.copy part.copy (around.map Scope.copy) ∧
      ∀ {α : Type} (member : Contents → OrderedMap α) (path : Path),
        Scope.lookUp member path [] ((part :: around).map Scope.copy) =
          Scope.lookUp member path [] (part :: around) := by
  obtain ⟨stage, hreachable, hroot⟩ := h.is_root hne
  have hdistinct := ((Stage.linked_of_reachable hinj hreachable).sound root hroot).distinctIds
  have hnamed := Stage.named_of_reachable hinj hreachable root hroot
  have hnames : ∀ scope ∈ root.all, ∀ name, scope.copy.names.get? name = scope.names.get? name :=
    fun scope hscope =>
      (Scope.names_copy_iff (hnamed scope hscope) (hdistinct scope hscope)).mpr (hlast scope hscope)
  refine ⟨hinside.copy hdistinct, fun member path => Scope.lookUp_copy ?_ []⟩
  intro scope hscope
  have hin : scope ∈ root.all :=
    List.forall_mem_cons.mpr ⟨hinside.mem_all, hinside.around_mem_all⟩ scope hscope
  exact Scope.findBelow_copy member (hdistinct.of_mem hin) (fun low hlow => hnames low
    (Scope.mem_all_trans hlow hin)) path

end Finished

/-- A package with a scope in it. -/
def oneInside : Library :=
  .ofStored ⟨[("lib.fiz", .text "a[x = f()]")]⟩

theorem copies_answer_alike_nested :
    let root := ((Compiler.mk tally oneInside).compile "@\"lib.fiz\"\nb[y = g()]\n@\"lib.fiz\""
      "main.fiz" [] {}).1.scope
    ∃ part ∈ root.children, part.name = "b" ∧
      Scope.lookUp Contents.variableIds ["a", "x"] [] [part.copy, root.copy] = some (tally 3) := by
  intro root
  have hlength : 1 < root.children.length := by decide +kernel
  have hlast : ∀ part ∈ root.all, part.HeldByLast := by decide +kernel
  have hpart : root.children[1] ∈ root.children := List.getElem_mem hlength
  have halike := (copies_answer_alike tally_injective tally_ne_empty
    (.compiled .begin oneInside _ _ []) hlast (.child .root hpart)).2 Contents.variableIds
      ["a", "x"]
  refine ⟨root.children[1], hpart, ?_, halike.trans ?_⟩
  · clear halike hpart
    decide +kernel +revert
  · clear halike hpart
    decide +kernel +revert

/-- A package that comes in again takes its names back from a scope between, which its copy
gives to that scope. -/
theorem copies_differ :
    let root := ((Compiler.mk tally oneInside).compile "@\"lib.fiz\"\na[x = g()]\n@\"lib.fiz\""
      "main.fiz" [] {}).1.scope
    Finished tally root ∧ Scope.lookUp Contents.variableIds ["a", "x"] [] [root.copy] ≠
      Scope.lookUp Contents.variableIds ["a", "x"] [] [root] :=
  ⟨.compiled .begin _ _ _ _, by decide +kernel⟩

end Compile

end RecipeGraph
