import RecipeGraph.Proofs.Extension
import RecipeGraph.Proofs.Inclusion

/-!
What a statement leaves as it is. Ids stand for one vertex, one edge and the copies of one scope,
so that a package which comes in again finds all that it brings in its place already. The scope at
the bottom of what is under construction is therefore only ever added to, and so are the reports
and the list of locations fetched.
-/
namespace RecipeGraph

open RecipeGraph.Graph Recipe Package

/-- The edges that stand under other ids than their own. -/
def Graph.Contents.strays (contents : Contents) : List (String × Edge) :=
  contents.edges.entries.filter fun entry => entry.1 ≠ entry.2.id

section Strays

variable {contents other : Contents} {entry : String × Edge}

theorem Graph.Contents.mem_strays :
    entry ∈ contents.strays ↔ entry ∈ contents.edges.entries ∧ entry.1 ≠ entry.2.id := by
  simp [strays]

theorem Graph.Contents.strays_addEdge {edge : Edge} (h : entry ∈ (contents.addEdge edge).strays) :
    entry ∈ contents.strays := by
  obtain ⟨key, value⟩ := entry
  obtain ⟨hmem, hstray⟩ := mem_strays.mp h
  rcases OrderedMap.mem_insert hmem with ⟨rfl, rfl⟩ | hold
  · exact absurd rfl hstray
  · exact mem_strays.mpr ⟨hold, hstray⟩

theorem Graph.Contents.strays_merge (h : entry ∈ (contents.merge other).strays) :
    entry ∈ contents.strays := by
  obtain ⟨key, value⟩ := entry
  obtain ⟨hmem, hstray⟩ := mem_strays.mp h
  rw [edges_merge] at hmem
  rcases OrderedMap.mem_writeAll hmem with hadded | hold
  · obtain ⟨edge, -, heq⟩ := List.mem_map.mp hadded
    obtain ⟨rfl, rfl⟩ := Prod.mk.inj heq
    exact absurd rfl hstray
  · exact mem_strays.mpr ⟨hold, hstray⟩

end Strays

namespace Compile

variable {idOf : Nat → String}

namespace Stage

variable {stage next : Stage}

/-- Of all that depends on edges only a move brings in what a single new edge brings. -/
theorem edges_step {α : Type} {f : Contents → List α} {g : Edge → List α}
    (hsame : ∀ contents contents' : Contents, contents'.edges = contents.edges →
      f contents' = f contents)
    (hempty : ∀ contents : Contents, contents.edges = {} → f contents = [])
    (hedge : ∀ contents edge x, x ∈ f (Contents.addEdge contents edge) →
      x ∈ g edge ∨ x ∈ f contents)
    (hmerge : ∀ contents other x, x ∈ f (Contents.merge contents other) →
      x ∈ f other ∨ x ∈ f contents)
    (hmove : Move idOf stage next) :
    ∃ fresh : Option Edge, (∀ edge ∈ fresh, edge.id = idOf stage.issued) ∧
      ∀ x ∈ next.collect f, (∃ edge ∈ fresh, x ∈ g edge) ∨ x ∈ stage.collect f := by
  have hnothing : next.collect f ⊆ stage.collect f →
      ∃ fresh : Option Edge, (∀ edge ∈ fresh, edge.id = idOf stage.issued) ∧
        ∀ x ∈ next.collect f, (∃ edge ∈ fresh, x ∈ g edge) ∨ x ∈ stage.collect f :=
    fun hsubset => ⟨none, fun _ hnone => absurd hnone (Option.not_mem_none _),
      fun x hx => Or.inr (hsubset hx)⟩
  cases hmove with
  | @edge name look source target hsource htarget =>
    refine ⟨some ⟨idOf stage.issued, name, source, target, look⟩, ?_, fun x hx => ?_⟩
    · rintro edge hedge
      cases hedge
      rfl
    · rcases collect_edit hx with hnew | hold
      · refine (hedge _ _ x hnew).imp (fun hin => ⟨_, rfl, hin⟩) fun hown => ?_
        exact collect_of_root (frame_mem_roots stage) (Scope.mem_gather_iff.mpr (Or.inl hown))
      · exact Or.inr hold
  | vertex | bind => exact hnothing (collect_edit_same fun _ => hsame _ _ rfl)
  | settle | refer | drop => exact hnothing (List.Subset.refl _)
  | adorn adornment =>
    exact hnothing (collect_edit_same fun contents => hsame _ _ (adornment.edges_apply contents))
  | enter | suspend => exact hnothing (collect_open rfl rfl rfl (hempty _ rfl))
  | leave hwaiting houter => exact hnothing (collect_leave rfl (others_of_outer houter) rfl)
  | resume hwaiting houter hcallers =>
    exact hnothing (collect_resume (others_of_callers houter hcallers) rfl)
  | adopt hpackage name => exact hnothing (collect_adopt hpackage fun _ => hsame _ _ rfl)
  | absorb hpackage => exact hnothing (collect_absorb hpackage hmerge)

/-- Every edge stands under its own id, and no id stands for two edges. -/
structure Labeled (stage : Stage) : Prop where
  keyed : ∀ entry, entry ∉ stage.collect Contents.strays
  single : ∀ first ∈ stage.collect (·.edges.values), ∀ second ∈ stage.collect (·.edges.values),
    first.id = second.id → first = second

theorem Labeled.step (hinj : Function.Injective idOf) (h : stage.Labeled)
    (hordered : stage.Ordered idOf) (hmove : Move idOf stage next) : next.Labeled := by
  constructor
  case keyed =>
    intro entry hentry
    obtain ⟨fresh, -, hsubset⟩ := edges_step (f := Contents.strays) (g := fun _ => [])
      (fun contents contents' hsame => by rw [Contents.strays, Contents.strays, hsame])
      (fun contents hempty => by rw [Contents.strays, hempty]; rfl)
      (fun _ _ _ hx => Or.inr (Contents.strays_addEdge hx))
      (fun _ _ _ hx => Or.inr (Contents.strays_merge hx)) hmove
    rcases hsubset entry hentry with ⟨_, _, hnone⟩ | hold
    · cases hnone
    · exact h.keyed entry hold
  case single =>
    obtain ⟨fresh, hfresh, hsubset⟩ := edges_step (f := fun contents => contents.edges.values)
      (g := fun edge => [edge])
      (fun contents contents' hsame => by rw [hsame])
      (fun contents hempty => by rw [hempty]; rfl)
      (fun _ _ _ hx => (OrderedMap.mem_values_insert hx).imp_left List.mem_singleton.mpr)
      (fun _ _ _ => Contents.mem_edges_merge) hmove
    intro first hfirst second hsecond hid
    rcases hsubset first hfirst with ⟨edge, hedge, hnew⟩ | hold
    · obtain rfl := List.mem_singleton.mp hnew
      rcases hsubset second hsecond with ⟨edge, hedge', hnew'⟩ | hold'
      · obtain rfl := List.mem_singleton.mp hnew'
        exact Option.mem_unique hedge hedge'
      · exact absurd (hid.symm.trans (hfresh first hedge))
          ((hordered.edges second hold').ne_next hinj)
    · rcases hsubset second hsecond with ⟨edge, hedge', hnew'⟩ | hold'
      · obtain rfl := List.mem_singleton.mp hnew'
        exact absurd (hid.trans (hfresh second hedge')) ((hordered.edges first hold).ne_next hinj)
      · exact h.single first hold second hold' hid

theorem labeled_of_reachable (hinj : Function.Injective idOf) (h : Reachable idOf stage) :
    stage.Labeled := by
  have hstart : ∀ (issued : Nat) (shelf : List Scope) {α : Type} (f : Contents → List α),
      f { id := idOf issued } = [] → ∀ x ∈ (Stage.start idOf issued shelf).collect f,
        ∃ package ∈ shelf, x ∈ package.gather f := by
    intro issued shelf α f hempty x hx
    obtain ⟨root, hroot, hin⟩ := mem_collect.mp hx
    rcases mem_roots.mp hroot with rfl | hother | hmem
    · rcases Scope.mem_gather_iff.mp hin with hself | ⟨child, hnone, -⟩
      · have hnone : x ∈ f { id := idOf issued } := hself
        rw [hempty] at hnone
        cases hnone
      · cases hnone
    · cases hother
    · exact ⟨root, hmem, hin⟩
  induction h with
  | first issued =>
    constructor
    · intro entry hentry
      obtain ⟨package, hnone, -⟩ := hstart issued [] Contents.strays rfl entry hentry
      cases hnone
    · intro first hfirst
      obtain ⟨package, hnone, -⟩ := hstart issued [] (·.edges.values) rfl first hfirst
      cases hnone
  | move hreachable hmove ih => exact ih.step hinj (hreachable.ordered hinj) hmove
  | @next stage _ ih =>
    have hkept : ∀ {α : Type} (f : Contents → List α), f { id := idOf stage.issued } = [] →
        ∀ x ∈ (Stage.start idOf stage.issued stage.shelf).collect f, x ∈ stage.collect f := by
      intro α f hempty x hx
      obtain ⟨package, hpackage, hin⟩ := hstart stage.issued stage.shelf f hempty x hx
      exact collect_of_root (shelf_mem_roots hpackage) hin
    exact ⟨fun entry hentry => ih.keyed entry (hkept _ rfl entry hentry),
      fun first hfirst second hsecond => ih.single first (hkept (·.edges.values) rfl first hfirst)
        second (hkept (·.edges.values) rfl second hsecond)⟩

section Ground

/-- What a move does to the frames of a text: it adds to the innermost scope, or it goes on to
another frame. -/
inductive Shift (stage next : Stage) : Prop
  | adds (houter : next.outer = stage.outer) (hcallers : next.callers = stage.callers)
      (h : stage.frame.scope.Extends next.frame.scope)
  | opens (houter : next.outer = stage.frame :: stage.outer)
      (hcallers : next.callers = stage.callers)
  | closes {around : Frame} (houter : stage.outer = around :: next.outer)
      (hcallers : next.callers = stage.callers)
      (hscope : next.frame.scope = around.scope.attach stage.frame.scope)
      (h : around.scope.Extends next.frame.scope)
  | suspends (houter : next.outer = [])
      (hcallers : next.callers = (stage.frame, stage.outer) :: stage.callers)
  | resumes (houter : stage.outer = [])
      (hcallers : stage.callers = (next.frame, next.outer) :: next.callers)

/-- The scope at the bottom of all that is under construction. -/
def ground (stage : Stage) : Scope :=
  (stage.others.getLast?.getD stage.frame).scope

theorem Shift.ground (h : Shift stage next) : stage.ground.Extends next.ground := by
  unfold Stage.ground others
  cases h with
  | adds houter hcallers h =>
    rw [houter, hcallers]
    cases (stage.outer ++ stage.callers.flatMap fun caller => caller.1 :: caller.2).getLast? with
    | none => exact h
    | some frame => exact .refl _
  | opens houter hcallers =>
    rw [houter, hcallers, List.cons_append, List.getLast?_cons]
    exact .refl _
  | closes houter hcallers hscope h =>
    rw [houter, hcallers, List.cons_append, List.getLast?_cons]
    cases (next.outer ++ stage.callers.flatMap fun caller => caller.1 :: caller.2).getLast? with
    | none => exact h
    | some frame => exact .refl _
  | suspends houter hcallers =>
    rw [houter, hcallers, List.nil_append, List.flatMap_cons, List.cons_append,
      List.getLast?_cons]
    exact .refl _
  | resumes houter hcallers =>
    rw [houter, hcallers, List.nil_append, List.flatMap_cons, List.cons_append,
      List.getLast?_cons]
    exact .refl _

/-- Vertices that come together in a merge are the same if they have the same id. -/
theorem vertices_agree (hinj : Function.Injective idOf) (h : Reachable idOf stage)
    {package : Scope} (hpackage : package ∈ stage.shelf) {k : String} {v w : Vertex}
    (hv : (k, v) ∈ Contents.keyed Vertex.id package.contents.vertices.values ++
      stage.frame.scope.contents.vertices.entries)
    (hw : (k, w) ∈ Contents.keyed Vertex.id package.contents.vertices.values ++
      stage.frame.scope.contents.vertices.entries) : v = w := by
  have hlinked := linked_of_reachable hinj h
  have hheld : ∀ u, (k, u) ∈ Contents.keyed Vertex.id package.contents.vertices.values ++
      stage.frame.scope.contents.vertices.entries →
      u.id = k ∧ (u.id, some u) ∈ stage.collect Contents.holdings := by
    intro u hu
    rcases List.mem_append.mp hu with hadded | hown
    · obtain ⟨vertex, hvertex, heq⟩ := List.mem_map.mp hadded
      obtain ⟨rfl, rfl⟩ := Prod.mk.inj heq
      exact ⟨rfl, collect_of_root (shelf_mem_roots hpackage) (Scope.mem_gather_iff.mpr
        (Or.inl (Contents.mem_holdings.mpr (Or.inr ⟨_, hvertex, rfl⟩))))⟩
    · have hkeyed := (hlinked.sound _ (frame_mem_roots stage)).tidy.keyed _ hown
      exact ⟨hkeyed, collect_of_root (frame_mem_roots stage) (Scope.mem_gather_iff.mpr (Or.inl
        (Contents.mem_holdings.mpr (Or.inr ⟨u, OrderedMap.mem_values.mpr ⟨k, hown⟩, rfl⟩))))⟩
  obtain ⟨hidv, hcollectv⟩ := hheld v hv
  obtain ⟨hidw, hcollectw⟩ := hheld w hw
  exact Option.some.inj ((registered_of_reachable hinj h).single _ hcollectv _ hcollectw
    (hidv.trans hidw.symm))

/-- And so are edges. -/
theorem edges_agree (hinj : Function.Injective idOf) (h : Reachable idOf stage)
    {package : Scope} (hpackage : package ∈ stage.shelf) {k : String} {v w : Edge}
    (hv : (k, v) ∈ Contents.keyed Edge.id package.contents.edges.values ++
      stage.frame.scope.contents.edges.entries)
    (hw : (k, w) ∈ Contents.keyed Edge.id package.contents.edges.values ++
      stage.frame.scope.contents.edges.entries) : v = w := by
  have hlabeled := labeled_of_reachable hinj h
  have hheld : ∀ u, (k, u) ∈ Contents.keyed Edge.id package.contents.edges.values ++
      stage.frame.scope.contents.edges.entries →
      u.id = k ∧ u ∈ stage.collect (·.edges.values) := by
    intro u hu
    rcases List.mem_append.mp hu with hadded | hown
    · obtain ⟨edge, hedge, heq⟩ := List.mem_map.mp hadded
      obtain ⟨rfl, rfl⟩ := Prod.mk.inj heq
      exact ⟨rfl, collect_of_root (shelf_mem_roots hpackage)
        (Scope.mem_gather_iff.mpr (Or.inl hedge))⟩
    · refine ⟨?_, collect_of_root (frame_mem_roots stage)
        (Scope.mem_gather_iff.mpr (Or.inl (OrderedMap.mem_values.mpr ⟨k, hown⟩)))⟩
      by_contra hstray
      exact hlabeled.keyed (k, u) (collect_of_root (frame_mem_roots stage)
        (Scope.mem_gather_iff.mpr (Or.inl (Contents.mem_strays.mpr ⟨hown, Ne.symm hstray⟩))))
  obtain ⟨hidv, hcollectv⟩ := hheld v hv
  obtain ⟨hidw, hcollectw⟩ := hheld w hw
  exact hlabeled.single v hcollectv w hcollectw (hidv.trans hidw.symm)

/-- Children that come together in a merge are copies of one scope if they have the same id. -/
theorem children_agree (hinj : Function.Injective idOf) (h : Reachable idOf stage)
    {package : Scope} (hpackage : package ∈ stage.shelf) :
    ∀ first ∈ stage.frame.scope.children ++ package.copy.children,
      ∀ second ∈ stage.frame.scope.children ++ package.copy.children,
        first.id = second.id → first.copy = second.copy := by
  have hlinked := linked_of_reachable hinj h
  have horigin : ∀ child ∈ stage.frame.scope.children ++ package.copy.children,
      ∃ original ∈ stage.known, child.id = original.id ∧ child.copy = original.copy := by
    intro child hchild
    rcases List.mem_append.mp hchild with hown | hcopy
    · exact ⟨child, child_known (frame_mem_roots stage) hown, rfl, rfl⟩
    · obtain ⟨original, horiginal, rfl⟩ :=
        hlinked.mem_inner_copy hpackage (Scope.child_mem_inner hcopy)
      exact ⟨original, horiginal, Scope.id_copy original,
        Scope.copy_copy (hlinked.distinctIds_known horiginal)⟩
  intro first hfirst second hsecond hid
  obtain ⟨original, hknown, hid₁, hcopy₁⟩ := horigin first hfirst
  obtain ⟨original', hknown', hid₂, hcopy₂⟩ := horigin second hsecond
  have hids : original.id = original'.id := hid₁.symm.trans (hid.trans hid₂)
  exact hcopy₁.trans ((same_copy hinj h original hknown original' hknown' hids).trans hcopy₂.symm)

/-- A move changes nothing of what the innermost scope holds already. -/
theorem shift_step (hinj : Function.Injective idOf) (h : Reachable idOf stage)
    (hmove : Move idOf stage next) : Shift stage next := by
  have hlinked := linked_of_reachable hinj h
  have hroot := frame_mem_roots stage
  cases hmove with
  | vertex name look =>
    refine .adds rfl rfl (Scope.extends_mapContents (Contents.extends_addVertex ?_))
    intro hkey
    obtain ⟨vertex, hentry⟩ := OrderedMap.mem_keys.mp hkey
    have hnumbered := (registered_of_reachable hinj h).numbered (vertex.id, some vertex)
      (collect_of_root hroot (Scope.mem_gather_iff.mpr (Or.inl (Contents.mem_holdings.mpr
        (Or.inr ⟨vertex, OrderedMap.mem_values.mpr ⟨_, hentry⟩, rfl⟩)))))
    exact hnumbered.ne_next hinj ((hlinked.sound _ hroot).tidy.keyed _ hentry)
  | edge name look hsource htarget =>
    refine .adds rfl rfl (Scope.extends_mapContents (Contents.extends_addEdge ?_))
    intro hkey
    obtain ⟨edge, hentry⟩ := OrderedMap.mem_keys.mp hkey
    have hnumbered := (h.ordered hinj).edges edge (collect_of_root hroot
      (Scope.mem_gather_iff.mpr (Or.inl (OrderedMap.mem_values.mpr ⟨_, hentry⟩))))
    refine (labeled_of_reachable hinj h).keyed _ (collect_of_root hroot
      (Scope.mem_gather_iff.mpr (Or.inl (Contents.mem_strays.mpr ⟨hentry, ?_⟩))))
    exact (hnumbered.ne_next hinj).symm
  | settle | refer | drop => exact .adds rfl rfl (.refl _)
  | bind hid name look =>
    exact .adds rfl rfl (Scope.extends_mapContents (Contents.extends_bind _ _ _ _))
  | adorn adornment =>
    exact .adds rfl rfl (Scope.extends_mapContents (Contents.extends_adorn adornment _))
  | enter => exact .opens rfl rfl
  | suspend => exact .suspends rfl rfl
  | @leave around further hwaiting houter =>
    refine .closes houter rfl rfl (Scope.extends_attach fun old hold hid => ?_)
    -- a root is alone with its id
    have houtside := (hlinked.inner old (child_known
      (others_mem_roots (around_mem_others houter)) hold)).2
    exact absurd (hid ▸ List.mem_map_of_mem hroot) houtside
  | resume hwaiting houter hcallers => exact .resumes houter hcallers
  | @adopt package hpackage name =>
    refine .adds rfl rfl (Scope.extends_attach fun old hold hid => ?_)
    have hnumbered := (hlinked.inner old (child_known hroot hold)).1
    exact absurd (hid.trans (id_relabel package _ name)) (hnumbered.ne_next hinj)
  | @absorb package hpackage =>
    refine .adds rfl rfl (Scope.extends_merge ?_ (children_agree hinj h hpackage))
    rw [Scope.contents_copy]
    exact Contents.extends_merge (fun k v w => vertices_agree hinj h hpackage)
      fun k v w => edges_agree hinj h hpackage

theorem ground_run (hinj : Function.Injective idOf) (h : Reachable idOf stage)
    (hrun : Run idOf stage next) : stage.ground.Extends next.ground := by
  induction hrun with
  | refl => exact .refl _
  | tail hrun hmove ih => exact ih.trans (shift_step hinj (h.run hrun) hmove).ground

end Ground

end Stage

section Logs

/-- Reports and fetches are only ever added. -/
theorem growth_logs : Growth fun work after =>
    work.diagnostics <+: after.diagnostics ∧ work.world.fetched <+: after.world.fetched where
  trans h h' := ⟨h.1.trans h'.1, h.2.trans h'.2⟩
  quiet h := ⟨h.kept, by rw [h.world]⟩
  report _ _ _ := ⟨List.prefix_append _ _, List.prefix_refl _⟩
  scope _ _ := ⟨List.prefix_refl _, List.prefix_refl _⟩
  freshId _ _ := ⟨List.prefix_refl _, List.prefix_refl _⟩

theorem loadWithin_fetched (library : Library) (depth : Nat) (location : String)
    (chain : List String) (world : World) :
    world.fetched <+: (loadWithin idOf library depth location chain world).2.fetched := by
  induction depth generalizing location chain world with
  | zero => exact List.prefix_refl _
  | succ depth ih =>
    have hnoted : world.fetched <+: (beginLoading location world).fetched :=
      List.prefix_append world.fetched [location]
    cases hrefusal : refusal? location chain with
    | some fault =>
      rw [loadWithin_refused hrefusal]
    | none =>
      rw [loadWithin_admitted hrefusal]
      generalize hrecalled : remember location _ world = recalled
      cases recalled_of_eq hrecalled with
      | loaded | loading => exact List.prefix_refl _
      | unfetched => exact hnoted
      | @compiled text =>
        refine hnoted.trans ?_
        refine (growth_logs.recipe ⟨idOf, location :: chain, some (loadWithin idOf library depth)⟩
          (Recipe.ofText text location).recipe.statements ?_ _).2
        rintro there - loader heq work
        cases heq
        exact ⟨List.prefix_refl _, ih there _ _⟩

end Logs

/-- Nothing that there was has been changed, removed or put elsewhere; names may be bound anew. -/
structure Work.Preserved (work after : Work) : Prop where
  scope : work.scope.Extends after.scope
  nodes : work.scope.contents.vertices.values.map Vertex.toJson <+:
    after.scope.contents.vertices.values.map Vertex.toJson
  edges : work.scope.contents.edges.values.map Edge.toJson <+:
    after.scope.contents.edges.values.map Edge.toJson
  children : Scope.jsonsAt [] work.scope.children <+: Scope.jsonsAt [] after.scope.children
  packages : work.scope.contents.packages ⊆ after.scope.contents.packages
  diagnostics : work.diagnostics <+: after.diagnostics
  fetched : work.world.fetched <+: after.world.fetched

section Statements

variable (hinj : Function.Injective idOf) (hne : ∀ n, idOf n ≠ "") {world : World}

include hinj hne

/-- Statements that come later preserve all that is made of those before them. -/
theorem later_statements_only_add (hworld : History idOf world) (library : Library)
    (chain : List String) (first second : List Node) :
    let setting := (Compiler.mk idOf library).setting chain
    (lowerRecipe setting first world).Preserved (lowerRecipe setting (first ++ second) world) := by
  intro setting
  obtain ⟨shelf, hstocked, hreachable⟩ := hworld.opens hne
  have hloader := setting_moves hne library chain
  have hcases := statements_reach hne hloader
  let start := Stage.start idOf world.issued shelf
  let work := lowerRecipe setting first world
  obtain ⟨shelf', hrun, hstocked', -⟩ := hcases.all first [] start
    (enter setting [] none "" none ⟨world, [], .ofContents { id := "" }⟩) rfl hstocked
  obtain ⟨shelf'', hrun', -, -⟩ :=
    hcases.all second [] { start with shelf := shelf' } work rfl hstocked'
  have hafter : lowerAll setting [] second work =
      lowerRecipe setting (first ++ second) world :=
    (lowerAll_append setting [] first second _).symm
  rw [hafter] at hrun'
  have hmiddle := hreachable.run hrun
  have hextends : work.scope.Extends (lowerRecipe setting (first ++ second) world).scope :=
    Stage.ground_run hinj hmiddle hrun'
  have hdistinct := ((Stage.linked_of_reachable hinj hmiddle).sound _
    (Stage.frame_mem_roots _)).distinctIds
  have hdistinct' := ((Stage.linked_of_reachable hinj (hmiddle.run hrun')).sound _
    (Stage.frame_mem_roots _)).distinctIds
  have hlogs : work.diagnostics <+: (lowerAll setting [] second work).diagnostics ∧
      work.world.fetched <+: (lowerAll setting [] second work).world.fetched := by
    refine (growth_logs.statements setting (fun _ => True) ?_).all second
      (fun _ _ => trivial) [] work
    rintro location - loader heq inside
    cases heq
    exact ⟨List.prefix_refl _, loadWithin_fetched library library.depth location chain _⟩
  rw [hafter] at hlogs
  constructor
  case scope => exact hextends
  case nodes => exact (hextends.contents.vertices.map Prod.snd).map Vertex.toJson
  case edges => exact (hextends.contents.edges.map Prod.snd).map Edge.toJson
  case children => exact hextends.documents hdistinct hdistinct' []
  case packages => exact hextends.contents.packages.subset
  case diagnostics => exact hlogs.1
  case fetched => exact hlogs.2

omit hinj hne

/-- The package comes in twice, and then a scope with the name of the one in it. -/
theorem later_statements_only_add_again :
    let setting := (Compiler.mk tally oneInside).setting []
    let first := (Recipe.ofText "@\"lib.fiz\"\nk(a.x)" "main.fiz").recipe.statements
    let second := (Recipe.ofText "@\"lib.fiz\"\na[y = g()]\nk(a.x)" "main.fiz").recipe.statements
    let before := lowerRecipe setting first {}
    let after := lowerRecipe setting (first ++ second) {}
    before.Preserved after ∧
      (before.scope.children.length, before.diagnostics.length) = (1, 0) ∧
      (after.scope.children.length, after.diagnostics.length) = (2, 1) :=
  ⟨later_statements_only_add tally_injective tally_ne_empty .begin oneInside [] _ _,
    by decide +kernel, by decide +kernel⟩

end Statements

end Compile

end RecipeGraph
