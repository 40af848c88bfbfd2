import RecipeGraph.Proofs.Cache
import RecipeGraph.Proofs.Identity
import RecipeGraph.Proofs.Parallel
import RecipeGraph.Proofs.Upkeep
import Mathlib.Data.List.Nodup
import Mathlib.Data.List.Perm.Subperm

/-!
How often an id stands in what is compiled. A package that comes in twice brings its ids twice,
since only the id of the package itself is new each time. As long as no package comes in twice,
whether asked for by the text or by another package, no id stands in two places.
-/
namespace RecipeGraph

open RecipeGraph.Graph Recipe Package

/-- The packages that come in when some are asked for, each before those that come in with it,
and each as often as it comes. -/
def Package.Library.arrivals (library : Library) : Nat → List String → List String → List String
  | 0, _, _ => []
  | depth + 1, chain, locations =>
      locations.flatMap fun location =>
        match refusal? location chain, library.fetch location with
        | none, .ok text =>
            location :: library.arrivals depth (location :: chain)
              (Node.locationsOfAll (Recipe.ofText text location).recipe.statements)
        | _, _ => []

namespace Graph.Scope

/-- What a scope consists of besides itself. -/
def members (scope : Scope) : List String :=
  scope.contents.vertices.keys ++ scope.children.flatMap elements

theorem allOf_eq_flatMap (scopes : List Scope) : allOf scopes = scopes.flatMap all := by
  induction scopes with
  | nil => rfl
  | cons first rest ih => rw [allOf, List.flatMap_cons, ih]

theorem elements_eq (scope : Scope) : scope.elements = scope.id :: scope.members := by
  unfold elements members
  rw [all_eq, List.flatMap_cons, allOf_eq_flatMap, List.flatMap_assoc]
  rfl

/-- Every vertex stands under its own id. -/
def Keyed (scope : Scope) : Prop :=
  ∀ entry ∈ scope.gather (·.vertices.entries), entry.2.id = entry.1

section Members

variable {scope other child : Scope}

theorem Keyed.ids_eq (h : scope.Keyed) :
    scope.contents.vertices.values.map Vertex.id = scope.contents.vertices.keys := by
  unfold OrderedMap.values OrderedMap.keys
  rw [List.map_map]
  refine List.map_congr_left ?_
  intro entry hentry
  exact h entry (mem_gather_iff.mpr (Or.inl hentry))

theorem elements_of_same {f : Contents → Contents} (hid : (f scope.contents).id = scope.id)
    (hvertices : (f scope.contents).vertices = scope.contents.vertices) :
    (scope.mapContents f).elements = scope.elements := by
  have hown : (scope.mapContents f).id = scope.id := by
    unfold id at hid ⊢
    rw [contents_mapContents, hid]
  rw [elements_eq, elements_eq, hown]
  unfold members
  rw [contents_mapContents, children_mapContents, hvertices]

theorem elements_addVertex {vertex : Vertex}
    (hfresh : vertex.id ∉ scope.contents.vertices.keys) :
    (scope.mapContents (·.addVertex vertex)).elements.Perm (vertex.id :: scope.elements) := by
  have hkeys : (scope.contents.addVertex vertex).vertices.keys =
      scope.contents.vertices.keys ++ [vertex.id] := by
    unfold Contents.addVertex OrderedMap.keys
    rw [OrderedMap.entries_insert_of_not_mem vertex hfresh, List.map_append]
    rfl
  have hown : (scope.mapContents (·.addVertex vertex)).id = scope.id := by
    unfold id
    rw [contents_mapContents]
    rfl
  rw [elements_eq, elements_eq, hown]
  unfold members
  rw [contents_mapContents, children_mapContents, hkeys]
  refine List.perm_iff_count.mpr fun x => ?_
  simp only [List.count_cons, List.count_append, List.count_nil]
  omega

theorem elements_attach_fresh (hfresh : child.id ∉ scope.children.map id) :
    (scope.attach child).elements = scope.elements ++ child.elements := by
  rw [elements_eq, elements_eq scope]
  unfold members
  rw [children_attach, placeChild_of_not_mem hfresh, List.flatMap_append, List.flatMap_singleton]
  simp

theorem ids_sublist (scopes : List Scope) : (scopes.map id).Sublist (scopes.flatMap elements) := by
  induction scopes with
  | nil => exact List.Sublist.refl _
  | cons first rest ih =>
    rw [List.map_cons, List.flatMap_cons, elements_eq]
    exact (ih.trans (List.sublist_append_right _ _)).cons_cons _

/-- A merge with something that has no id in common adds all but the other scope itself. -/
theorem elements_merge_fresh (hkeyed : other.Keyed)
    (h : (other.elements ++ scope.elements).Nodup) :
    (other.id :: (scope.merge other).elements).Perm (other.elements ++ scope.elements) := by
  rw [elements_eq, elements_eq scope] at h
  have hmembers : (scope.members ++ other.members).Nodup := by
    refine (h.sublist ?_).perm List.perm_append_comm
    exact (List.sublist_cons_self _ _).append (List.sublist_cons_self _ _)
  have hkeys : (scope.merge other).contents.vertices.keys =
      scope.contents.vertices.keys ++ other.contents.vertices.keys := by
    have hown : (Contents.keyed Vertex.id other.contents.vertices.values).map (·.1) =
        other.contents.vertices.keys := by
      unfold Contents.keyed
      rw [List.map_map]
      exact hkeyed.ids_eq
    unfold OrderedMap.keys
    rw [contents_merge, Contents.vertices_merge, OrderedMap.writeAll_of_fresh, List.map_append,
      hown]
    · rfl
    · rw [List.map_append, hown]
      refine hmembers.sublist ?_
      exact (List.sublist_append_left _ _).append (List.sublist_append_left _ _)
  have hchildren : (scope.merge other).children = scope.children ++ other.children := by
    unfold merge
    rw [children_foldl_attach, children_mapContents]
    rw [children_mapContents]
    refine hmembers.sublist ?_
    exact ((ids_sublist _).trans (List.sublist_append_right _ _)).append
      ((ids_sublist _).trans (List.sublist_append_right _ _))
  rw [elements_eq, elements_eq other, elements_eq scope, id_merge]
  unfold members
  rw [hkeys, hchildren, List.flatMap_append]
  refine List.perm_iff_count.mpr fun x => ?_
  simp only [List.count_cons, List.count_append]
  omega

theorem elements_sublist {part : Scope} (hpart : part ∈ scope.all) :
    part.elements.Sublist scope.elements := by
  induction scope using Scope.induction with
  | step contents names children ih =>
    rcases mem_all.mp hpart with rfl | ⟨child, hchild, hin⟩
    · exact List.Sublist.refl _
    · rw [elements_eq (mk contents names children)]
      refine (ih child hchild hin).trans (List.Sublist.cons _ ?_)
      exact (List.sublist_flatten_of_mem (List.mem_map_of_mem hchild)).trans
        (List.sublist_append_right _ _)

theorem distinctIds_of_nodup (h : scope.elements.Nodup) : scope.DistinctIds := by
  intro part hpart
  refine (h.sublist (elements_sublist hpart)).sublist ?_
  rw [elements_eq]
  exact List.Sublist.cons _ ((ids_sublist _).trans (List.sublist_append_right _ _))

theorem elements_copy (h : scope.DistinctIds) : scope.copy.elements = scope.elements := by
  induction scope using Scope.induction with
  | step contents names children ih =>
    have hchildren : (children.map copy).flatMap elements = children.flatMap elements := by
      rw [List.flatMap_map]
      exact List.flatMap_congr fun child hchild => ih child hchild (h.of_child hchild)
    rw [elements_eq, elements_eq (mk contents names children), id_copy]
    unfold members
    rw [contents_copy, children_copy h, children_mk, hchildren]

theorem Keyed.copy (h : scope.Keyed) : scope.copy.Keyed :=
  fun entry hentry => h entry (mem_gather_copy hentry)

theorem Keyed.attach (h : scope.Keyed) (hchild : child.Keyed) : (scope.attach child).Keyed :=
  fun entry hentry => (mem_gather_attach hentry).elim (h entry) (hchild entry)

theorem Keyed.merge (h : scope.Keyed) (hother : other.Keyed) : (scope.merge other).Keyed := by
  rintro ⟨key, vertex⟩ hentry
  rcases mem_gather_merge hentry with hself | hown | hin
  · rw [Contents.vertices_merge] at hself
    rcases OrderedMap.mem_writeAll hself with hadded | hold
    · obtain ⟨origin, -, heq⟩ := List.mem_map.mp hadded
      obtain ⟨rfl, rfl⟩ := Prod.mk.inj heq
      rfl
    · exact h _ (mem_gather_iff.mpr (Or.inl hold))
  · exact h _ hown
  · exact hother _ hin

theorem Keyed.of_same (h : scope.Keyed) {f : Contents → Contents}
    (hvertices : (f scope.contents).vertices = scope.contents.vertices) :
    (scope.mapContents f).Keyed := by
  intro entry hentry
  rcases mem_gather_mapContents hentry with hself | hold
  · rw [hvertices] at hself
    exact h entry (mem_gather_iff.mpr (Or.inl hself))
  · exact h entry hold

theorem Keyed.addVertex (h : scope.Keyed) (vertex : Vertex) :
    (scope.mapContents (·.addVertex vertex)).Keyed := by
  rintro ⟨key, value⟩ hentry
  rcases mem_gather_mapContents hentry with hself | hold
  · rcases OrderedMap.mem_insert hself with ⟨rfl, rfl⟩ | hown
    · rfl
    · exact h _ (mem_gather_iff.mpr (Or.inl hown))
  · exact h _ hold

theorem keyed_ofContents {contents : Contents} (h : contents.vertices = {}) :
    (ofContents contents).Keyed := by
  intro entry hentry
  rcases mem_gather_iff.mp hentry with hself | ⟨child, hchild, -⟩
  · change entry ∈ contents.vertices.entries at hself
    rw [h] at hself
    cases hself
  · cases hchild

end Members

end Graph.Scope

namespace Compile

/-- In some scopes together no id stands in two places, and all were given out from a number
on. -/
structure Unique (idOf : Nat → String) (base issued : Nat) (tops : List Scope) : Prop where
  since : base ≤ issued
  nodup : (tops.flatMap Scope.elements).Nodup
  given : ∀ id ∈ tops.flatMap Scope.elements, Since idOf base issued id
  keyed : ∀ top ∈ tops, top.Keyed

namespace Unique

variable {idOf : Nat → String} {base issued later : Nat} {scope child package : Scope}
  {tops others : List Scope}

theorem mono (h : Unique idOf base issued tops) (hle : issued ≤ later) :
    Unique idOf base later tops :=
  ⟨Nat.le_trans h.since hle, h.nodup, fun id hid => (h.given id hid).mono hle, h.keyed⟩

/-- Only the elements count, in whatever order they come. -/
theorem perm (h : Unique idOf base issued tops)
    (helements : (others.flatMap Scope.elements).Perm (tops.flatMap Scope.elements))
    (hkeyed : ∀ top ∈ others, top.Keyed) : Unique idOf base issued others :=
  ⟨h.since, helements.nodup_iff.mpr h.nodup, fun id hid => h.given id (helements.subset hid),
    hkeyed⟩

/-- What was made after something else has no id in common with it. -/
theorem join (hinj : Function.Injective idOf) (h : Unique idOf base issued tops)
    (hothers : Unique idOf issued later others) : Unique idOf base later (others ++ tops) := by
  refine ⟨Nat.le_trans h.since hothers.since, ?_, ?_, ?_⟩
  · rw [List.flatMap_append]
    refine List.nodup_append.mpr ⟨hothers.nodup, h.nodup, ?_⟩
    rintro first hfirst second hsecond rfl
    obtain ⟨m, hm, -, rfl⟩ := hothers.given first hfirst
    obtain ⟨n, -, hn, heq⟩ := h.given _ hsecond
    have hsame := hinj heq
    omega
  · intro id hid
    rw [List.flatMap_append] at hid
    rcases List.mem_append.mp hid with hnew | hold
    · obtain ⟨n, hbase, hn, rfl⟩ := hothers.given id hnew
      exact ⟨n, Nat.le_trans h.since hbase, hn, rfl⟩
    · exact (h.given id hold).mono hothers.since
  · exact fun top htop => (List.mem_append.mp htop).elim (hothers.keyed top) (h.keyed top)

theorem opened (idOf : Nat → String) (issued : Nat) (name : String) (look : Look) :
    Unique idOf issued (issued + 1)
      [.ofContents { id := idOf issued, name := name, look := look }] := by
  have helements : [Scope.ofContents { id := idOf issued, name := name, look := look }].flatMap
      Scope.elements = [idOf issued] := rfl
  refine ⟨Nat.le_succ issued, ?_, ?_, ?_⟩
  · rw [helements]
    exact List.nodup_singleton _
  · intro id hid
    rw [helements] at hid
    rw [List.mem_singleton.mp hid]
    exact since_next idOf (Nat.le_refl issued)
  · intro top htop
    rw [List.mem_singleton.mp htop]
    exact Scope.keyed_ofContents rfl

theorem attach (h : Unique idOf base issued (child :: scope :: tops)) :
    Unique idOf base issued (scope.attach child :: tops) := by
  have hnodup := h.nodup
  rw [List.flatMap_cons, List.flatMap_cons] at hnodup
  have hfresh : child.id ∉ scope.children.map Scope.id := by
    intro hmem
    refine (List.nodup_append.mp hnodup).2.2 _ (Scope.id_mem_elements child) _ ?_ rfl
    refine List.mem_append_left _ ?_
    rw [Scope.elements_eq]
    exact List.mem_cons_of_mem _
      (List.mem_append_right _ ((Scope.ids_sublist scope.children).subset hmem))
  refine h.perm ?_ ?_
  · rw [List.flatMap_cons, List.flatMap_cons, List.flatMap_cons,
      Scope.elements_attach_fresh hfresh, ← List.append_assoc]
    exact List.perm_append_comm.append_right _
  · intro top htop
    rcases List.mem_cons.mp htop with rfl | hold
    · exact (h.keyed scope (by simp)).attach (h.keyed child (by simp))
    · exact h.keyed top (by simp [hold])

theorem merge (h : Unique idOf base issued (package :: scope :: tops)) :
    Unique idOf base issued (scope.merge package :: tops) := by
  have hnodup := h.nodup
  rw [List.flatMap_cons, List.flatMap_cons, ← List.append_assoc] at hnodup
  have hmerge := Scope.elements_merge_fresh (h.keyed package (by simp))
    (List.nodup_append.mp hnodup).1
  have helements : ((scope.merge package :: tops).flatMap Scope.elements).Subperm
      ((package :: scope :: tops).flatMap Scope.elements) := by
    rw [List.flatMap_cons, List.flatMap_cons, List.flatMap_cons, ← List.append_assoc]
    exact ((List.sublist_cons_self _ _).append_right _).subperm.trans
      (hmerge.append_right _).subperm
  refine ⟨h.since, ?_, fun id hid => h.given id (helements.subset hid), ?_⟩
  · obtain ⟨kept, hkept, hsublist⟩ := helements
    exact hkept.nodup_iff.mp (h.nodup.sublist hsublist)
  · intro top htop
    rcases List.mem_cons.mp htop with rfl | hold
    · exact (h.keyed scope (by simp)).merge (h.keyed package (by simp))
    · exact h.keyed top (by simp [hold])

theorem copy (h : Unique idOf base issued [package]) : Unique idOf base issued [package.copy] := by
  have hnodup := h.nodup
  rw [List.flatMap_singleton] at hnodup
  refine h.perm ?_ ?_
  · rw [List.flatMap_singleton, List.flatMap_singleton,
      Scope.elements_copy (Scope.distinctIds_of_nodup hnodup)]
  · intro top htop
    rw [List.mem_singleton.mp htop]
    exact (h.keyed package (by simp)).copy

/-- A package under a new id instead of its own. -/
theorem relabel (hinj : Function.Injective idOf) (h : Unique idOf base issued [package])
    (name : String) :
    Unique idOf base (issued + 1) [Stage.relabel package (idOf issued) name] := by
  have hcopy := h.copy
  have helements : (Stage.relabel package (idOf issued) name).elements =
      idOf issued :: package.copy.members := by
    rw [Scope.elements_eq, Stage.id_relabel]
    unfold Scope.members Stage.relabel
    rw [Scope.contents_mapContents, Scope.children_mapContents]
  have hnodup := hcopy.nodup
  have hgiven := hcopy.given
  rw [List.flatMap_singleton, Scope.elements_eq] at hnodup hgiven
  refine ⟨Nat.le_succ_of_le h.since, ?_, ?_, ?_⟩
  · rw [List.flatMap_singleton, helements]
    refine List.nodup_cons.mpr ⟨?_, (List.nodup_cons.mp hnodup).2⟩
    intro hmem
    exact (hgiven _ (List.mem_cons_of_mem _ hmem)).ne_next hinj rfl
  · intro id hid
    rw [List.flatMap_singleton, helements] at hid
    rcases List.mem_cons.mp hid with rfl | hold
    · exact since_next idOf h.since
    · exact (hgiven id (List.mem_cons_of_mem _ hold)).mono (Nat.le_succ issued)
  · intro top htop
    rw [List.mem_singleton.mp htop]
    exact (hcopy.keyed package.copy (by simp)).of_same rfl

/-- Nothing is added that has an id. -/
theorem same (h : Unique idOf base issued (scope :: tops)) {f : Contents → Contents}
    (hid : (f scope.contents).id = scope.id)
    (hvertices : (f scope.contents).vertices = scope.contents.vertices) :
    Unique idOf base issued (scope.mapContents f :: tops) := by
  refine h.perm ?_ ?_
  · rw [List.flatMap_cons, List.flatMap_cons, Scope.elements_of_same hid hvertices]
  · intro top htop
    rcases List.mem_cons.mp htop with rfl | hold
    · exact (h.keyed scope (by simp)).of_same hvertices
    · exact h.keyed top (by simp [hold])

theorem addVertex (hinj : Function.Injective idOf) (h : Unique idOf base issued (scope :: tops))
    (name : String) (look : Look) :
    Unique idOf base (issued + 1)
      (scope.mapContents (·.addVertex ⟨idOf issued, name, look⟩) :: tops) := by
  have hnew : idOf issued ∉ (scope :: tops).flatMap Scope.elements :=
    fun hmem => (h.given _ hmem).ne_next hinj rfl
  have hfresh : idOf issued ∉ scope.contents.vertices.keys := by
    intro hkey
    refine hnew (List.mem_flatMap.mpr ⟨scope, List.mem_cons_self .., ?_⟩)
    exact Scope.mem_elements_iff.mpr (Or.inr (Or.inl hkey))
  have hadded : (scope.mapContents (·.addVertex ⟨idOf issued, name, look⟩)).elements.Perm
      (idOf issued :: scope.elements) := Scope.elements_addVertex hfresh
  have helements := hadded.append_right (tops.flatMap Scope.elements)
  refine ⟨Nat.le_succ_of_le h.since, ?_, ?_, ?_⟩
  · rw [List.flatMap_cons, helements.nodup_iff]
    exact List.nodup_cons.mpr ⟨hnew, h.nodup⟩
  · intro id hid
    rw [List.flatMap_cons, helements.mem_iff] at hid
    rcases List.mem_cons.mp hid with rfl | hold
    · exact since_next idOf h.since
    · exact (h.given id hold).mono (Nat.le_succ issued)
  · intro top htop
    rcases List.mem_cons.mp htop with rfl | hold
    · exact (h.keyed scope (by simp)).addVertex _
    · exact h.keyed top (by simp [hold])

end Unique

section Arrivals

variable {idOf : Nat → String} {library : Library} {depth : Nat}
  {chain kept pending : List String} {location : String} {world : World}

/-- What the cache says about packages that are still to come, and about all others. -/
structure Clear (library : Library) (depth : Nat) (chain kept pending : List String)
    (world : World) : Prop where
  once : (library.arrivals depth chain pending ++ kept).Nodup
  absent : ∀ location ∈ library.arrivals depth chain pending ++ kept, ∀ package,
    world.cache.get? location ≠ some (.loaded (.ok package))
  loading : ∀ location, world.cache.get? location = some .loading → location ∈ chain
  faithful : ∀ location result, world.cache.get? location = some (.loaded result) →
    result.isOk = (library.fetch location).isOk

theorem arrivals_cons (library : Library) (depth : Nat) (chain : List String) (location : String)
    (pending : List String) : library.arrivals depth chain (location :: pending) =
      library.arrivals depth chain [location] ++ library.arrivals depth chain pending := by
  cases depth with
  | zero => rfl
  | succ depth =>
    unfold Library.arrivals
    rw [List.flatMap_cons, List.flatMap_singleton]

theorem arrivals_fetched {text : String} (hrefusal : refusal? location chain = none)
    (hfetch : library.fetch location = .ok text) :
    library.arrivals (depth + 1) chain [location] =
      location :: library.arrivals depth (location :: chain)
        (Node.locationsOfAll (Recipe.ofText text location).recipe.statements) := by
  rw [Library.arrivals, List.flatMap_singleton, hrefusal, hfetch]

theorem Clear.drop (h : Clear library depth chain kept (location :: pending) world) :
    Clear library depth chain kept pending world := by
  obtain ⟨honce, habsent, hloading, hfaithful⟩ := h
  rw [arrivals_cons, List.append_assoc] at honce habsent
  exact ⟨(List.nodup_append.mp honce).2.1,
    fun there hthere => habsent there (List.mem_append_right _ hthere), hloading, hfaithful⟩

/-- The cache and the fetched texts are all that matters. -/
theorem Clear.congr (h : Clear library depth chain kept pending world) {after : World}
    (hcache : after.cache = world.cache) : Clear library depth chain kept pending after := by
  obtain ⟨honce, habsent, hloading, hfaithful⟩ := h
  rw [← hcache] at habsent hloading hfaithful
  exact ⟨honce, habsent, hloading, hfaithful⟩

/-- A package that failed to come is remembered. -/
theorem Clear.fail (h : Clear library depth chain kept pending world) {fault : Fault}
    (hfetch : library.fetch location = .error fault) {after : World}
    (hcache : after.cache =
      (world.cache.insert location .loading).insert location (.loaded (.error fault))) :
    Clear library depth chain kept pending after := by
  have hself : after.cache.get? location = some (.loaded (.error fault)) := by
    rw [hcache, OrderedMap.get?_insert_self]
  have hother : ∀ there, location ≠ there → after.cache.get? there = world.cache.get? there := by
    intro there hne
    rw [hcache, OrderedMap.get?_insert_of_ne _ _ hne, OrderedMap.get?_insert_of_ne _ _ hne]
  constructor
  case once => exact h.once
  case absent =>
    intro there hthere package hpackage
    by_cases hsame : location = there
    · rw [← hsame, hself] at hpackage
      cases hpackage
    · rw [hother there hsame] at hpackage
      exact h.absent there hthere package hpackage
  case loading =>
    intro there hthere
    by_cases hsame : location = there
    · rw [← hsame, hself] at hthere
      cases hthere
    · rw [hother there hsame] at hthere
      exact h.loading there hthere
  case faithful =>
    intro there result hresult
    by_cases hsame : location = there
    · rw [← hsame, hself] at hresult
      cases hresult
      rw [← hsame, hfetch]
      rfl
    · rw [hother there hsame] at hresult
      exact h.faithful there result hresult

section Fetched

variable {text : String} (hrefusal : refusal? location chain = none)
  (hfetch : library.fetch location = .ok text)

include hrefusal hfetch

/-- While a package is made, those that come in later are kept in mind. -/
theorem Clear.begin (h : Clear library (depth + 1) chain kept (location :: pending) world)
    {after : World} (hcache : after.cache = world.cache.insert location .loading) :
    Clear library depth (location :: chain) (library.arrivals (depth + 1) chain pending ++ kept)
      (Node.locationsOfAll (Recipe.ofText text location).recipe.statements) after := by
  have honce := h.once
  have habsent := h.absent
  rw [arrivals_cons, arrivals_fetched hrefusal hfetch, List.append_assoc, List.cons_append]
    at honce habsent
  constructor
  case once => exact (List.nodup_cons.mp honce).2
  case absent =>
    intro there hthere package hpackage
    rw [hcache] at hpackage
    obtain ⟨-, hnone⟩ | ⟨-, hkept⟩ := OrderedMap.get?_insert_eq_some.mp hpackage
    · cases hnone
    · exact habsent there (List.mem_cons_of_mem _ hthere) package hkept
  case loading =>
    intro there hthere
    rw [hcache] at hthere
    obtain ⟨rfl, -⟩ | ⟨-, hkept⟩ := OrderedMap.get?_insert_eq_some.mp hthere
    · exact List.mem_cons_self ..
    · exact List.mem_cons_of_mem _ (h.loading there hkept)
  case faithful =>
    intro there result hresult
    rw [hcache] at hresult
    obtain ⟨-, hnone⟩ | ⟨-, hkept⟩ := OrderedMap.get?_insert_eq_some.mp hresult
    · cases hnone
    · exact h.faithful there result hkept

/-- When it is done, it is remembered as well. -/
theorem Clear.finish (h : Clear library (depth + 1) chain kept (location :: pending) world)
    {inside after : World}
    (hinside : Clear library depth (location :: chain)
      (library.arrivals (depth + 1) chain pending ++ kept) [] inside) {package : Scope}
    (hcache : after.cache = inside.cache.insert location (.loaded (.ok package))) :
    Clear library (depth + 1) chain kept pending after := by
  have honce := h.once
  rw [arrivals_cons, arrivals_fetched hrefusal hfetch, List.append_assoc, List.cons_append]
    at honce
  have hlater : location ∉ library.arrivals (depth + 1) chain pending ++ kept :=
    fun hmem => (List.nodup_cons.mp honce).1 (List.mem_append_right _ hmem)
  constructor
  case once => exact h.drop.once
  case absent =>
    intro there hthere other hother
    rw [hcache] at hother
    obtain ⟨rfl, -⟩ | ⟨-, hkept⟩ := OrderedMap.get?_insert_eq_some.mp hother
    · exact hlater hthere
    · exact hinside.absent there (List.mem_append_right _ hthere) other hkept
  case loading =>
    intro there hthere
    rw [hcache] at hthere
    obtain ⟨-, hnone⟩ | ⟨hother, hkept⟩ := OrderedMap.get?_insert_eq_some.mp hthere
    · cases hnone
    · exact (List.mem_cons.mp (hinside.loading there hkept)).resolve_left (Ne.symm hother)
  case faithful =>
    intro there result hresult
    rw [hcache] at hresult
    obtain ⟨rfl, hnew⟩ | ⟨-, hkept⟩ := OrderedMap.get?_insert_eq_some.mp hresult
    · rw [← Entry.loaded.inj hnew, hfetch]
      rfl
    · exact hinside.faithful there result hkept

end Fetched

end Arrivals

section Loading

variable {idOf : Nat → String} (hinj : Function.Injective idOf) (hne : ∀ n, idOf n ≠ "")
  {library : Library}

include hinj

/-- A loader that makes each package out of ids of its own. -/
def LoadsOnce (idOf : Nat → String) (library : Library) (depth : Nat) : Prop :=
  ∀ {chain kept pending location world result after},
    loadWithin idOf library depth location chain world = (result, after) →
    Clear library depth chain kept (location :: pending) world →
    world.issued ≤ after.issued ∧ Clear library depth chain kept pending after ∧
      ∀ package, result = .ok package → Unique idOf world.issued after.issued [package]

theorem upkeep_unique {depth : Nat} (hloads : LoadsOnce idOf library depth)
    (chain kept : List String) (base : Nat) :
    Upkeep ⟨idOf, chain, some (loadWithin idOf library depth)⟩
      fun pending outer world scope => Clear library depth chain kept pending world ∧
        Unique idOf base world.issued (scope :: outer) where
  vertex h name look := ⟨h.1.congr rfl, h.2.addVertex hinj name look⟩
  edge h _ _ _ _ := ⟨h.1.congr rfl, (h.2.same rfl rfl).mono (Nat.le_succ _)⟩
  bind h _ _ _ := ⟨h.1, h.2.same rfl rfl⟩
  adorn h adornment :=
    ⟨h.1, h.2.same (adornment.id_apply _) (adornment.vertices_apply _)⟩
  enter h name look := ⟨h.1.congr rfl, h.2.join hinj (.opened idOf _ name look)⟩
  leave h := ⟨h.1, h.2.attach⟩
  alone hnone := nomatch hnone
  missed loader hloader := by
    intro location pending outer world scope fault after hresult h
    cases hloader
    obtain ⟨hissued, hclear, -⟩ := hloads hresult h.1
    exact ⟨hclear, h.2.mono hissued⟩
  adopt loader hloader := by
    intro location pending outer world scope package after hresult h name
    cases hloader
    obtain ⟨hissued, hclear, hpackage⟩ := hloads hresult h.1
    exact ⟨hclear.congr rfl, (h.2.join hinj ((hpackage package rfl).relabel hinj name)).attach⟩
  absorb loader hloader := by
    intro location pending outer world scope package after hresult h
    cases hloader
    obtain ⟨hissued, hclear, hpackage⟩ := hloads hresult h.1
    exact ⟨hclear, (h.2.join hinj (hpackage package rfl).copy).merge⟩

include hne

theorem lowerRecipe_unique {depth : Nat} (hloads : LoadsOnce idOf library depth)
    {chain kept : List String} {statements : List Node} {world : World}
    (hclear : Clear library depth chain kept (Node.locationsOfAll statements) world) :
    let work := lowerRecipe ⟨idOf, chain, some (loadWithin idOf library depth)⟩ statements world
    Clear library depth chain kept [] work.world ∧
      Unique idOf world.issued work.world.issued [work.scope] := by
  intro work
  have hkept := upkeep_unique hinj hloads chain kept world.issued
  have hbegun : Clear library depth chain kept (Node.locationsOfAll statements ++ []) world := by
    rw [List.append_nil]
    exact hclear
  exact (hkept.statements hne).all statements
    (⟨hbegun.congr rfl, .opened idOf world.issued "" {}⟩ : Upkeep.At _ _ []
      (enter _ [] none "" none ⟨world, [], .ofContents { id := "" }⟩))

omit hinj hne in
theorem no_package (fault : Fault) (P : Scope → Prop) :
    ∀ package, (Except.error fault : Except Fault Scope) = .ok package → P package := by
  intro package hpackage
  cases hpackage

/-- By induction on how deep packages may nest. -/
theorem loadsOnce (depth : Nat) : LoadsOnce idOf library depth := by
  induction depth with
  | zero =>
    intro chain kept pending location world result after hresult hclear
    cases hresult
    exact ⟨Nat.le_refl _, hclear.drop, no_package _ _⟩
  | succ depth ih =>
    intro chain kept pending location world result after hresult hclear
    cases hrefusal : refusal? location chain with
    | some fault =>
      rw [loadWithin_refused hrefusal] at hresult
      cases hresult
      exact ⟨Nat.le_refl _, hclear.drop, no_package _ _⟩
    | none =>
      rw [loadWithin_admitted hrefusal] at hresult
      cases recalled_of_eq hresult with
      | loading => exact ⟨Nat.le_refl _, hclear.drop, no_package _ _⟩
      | loaded hentry =>
        refine ⟨Nat.le_refl _, hclear.drop, ?_⟩
        rintro package rfl
        have hok := hclear.faithful location _ hentry
        cases hfetch : library.fetch location with
        | error fault =>
          rw [hfetch] at hok
          cases hok
        | ok text =>
          refine absurd hentry (hclear.absent location ?_ package)
          rw [arrivals_cons, arrivals_fetched hrefusal hfetch]
          exact List.mem_cons_self ..
      | unfetched _ hfetch =>
        exact ⟨Nat.le_refl _, hclear.drop.fail hfetch rfl, no_package _ _⟩
      | compiled _ hfetch =>
        have hrecorded : (beginLoading location world).cache =
            world.cache.insert location .loading := rfl
        have hbegun := hclear.begin hrefusal hfetch hrecorded
        obtain ⟨hinside, hunique⟩ := lowerRecipe_unique hinj hne ih hbegun
        refine ⟨hunique.since, hclear.finish hrefusal hfetch hinside rfl, ?_⟩
        rintro package hpackage
        cases hpackage
        exact hunique

end Loading

section Compiled

/-- No two different things in a scope have one id. Things of one id are copies of one thing. -/
structure ToldApart (scope : Scope) : Prop where
  kinds : ∀ part ∈ scope.all, ∀ other ∈ scope.all, other.id ∉ part.contents.vertices.keys
  vertices : ∀ part ∈ scope.all, ∀ other ∈ scope.all, ∀ id vertex vertex',
    part.contents.vertices.get? id = some vertex →
    other.contents.vertices.get? id = some vertex' → vertex = vertex'
  scopes : ∀ part ∈ scope.all, ∀ other ∈ scope.all, part.id = other.id → Alike part other

variable {idOf : Nat → String} (hinj : Function.Injective idOf)

include hinj

theorem toldApart_of_reachable {stage : Stage} (h : Reachable idOf stage) :
    ToldApart stage.frame.scope := by
  have hlinked := Stage.linked_of_reachable hinj h
  have hregistered := Stage.registered_of_reachable hinj h
  have hroot := Stage.frame_mem_roots stage
  have hscope : ∀ part ∈ stage.frame.scope.all,
      (part.id, none) ∈ stage.collect Contents.holdings := by
    intro part hpart
    refine Stage.collect_of_root hroot (Scope.mem_gather.mpr ⟨part, hpart, ?_⟩)
    exact Contents.mem_holdings.mpr (Or.inl rfl)
  have hvertex : ∀ part ∈ stage.frame.scope.all, ∀ entry ∈ part.contents.vertices.entries,
      (entry.1, some entry.2) ∈ stage.collect Contents.holdings := by
    rintro part hpart ⟨id, vertex⟩ hentry
    have hid : vertex.id = id := (hlinked.sound _ hroot part hpart).keyed _ hentry
    refine Stage.collect_of_root hroot (Scope.mem_gather.mpr ⟨part, hpart, ?_⟩)
    refine Contents.mem_holdings.mpr (Or.inr ⟨vertex, OrderedMap.mem_values.mpr ⟨id, hentry⟩, ?_⟩)
    rw [hid]
  constructor
  case kinds =>
    intro part hpart other hother hkey
    obtain ⟨vertex, hentry⟩ := OrderedMap.mem_keys.mp hkey
    have hsame := hregistered.single _ (hscope other hother) _ (hvertex part hpart _ hentry) rfl
    cases hsame
  case vertices =>
    intro part hpart other hother id vertex vertex' hfound hfound'
    have hsame := hregistered.single _ (hvertex part hpart _ (OrderedMap.mem_of_get? hfound)) _
      (hvertex other hother _ (OrderedMap.mem_of_get? hfound')) rfl
    exact Option.some.inj hsame
  case scopes =>
    -- the root is alone with its id, and all others are known
    intro part hpart other hother hid
    rcases Scope.mem_all.mp hpart with rfl | hin
    · rcases Scope.mem_all.mp hother with rfl | hin'
      · exact .refl _
      · have hknown := Stage.inner_known hroot (Scope.mem_inner.mpr hin')
        exact absurd (hid ▸ List.mem_map_of_mem hroot) (hlinked.inner other hknown).2
    · have hknown := Stage.inner_known hroot (Scope.mem_inner.mpr hin)
      rcases Scope.mem_all.mp hother with rfl | hin'
      · exact absurd (hid ▸ List.mem_map_of_mem hroot) (hlinked.inner part hknown).2
      · exact hlinked.alike part hknown other
          (Stage.inner_known hroot (Scope.mem_inner.mpr hin')) hid

/-- An id in what is compiled stands for a scope or for a vertex, and never for two different
ones. With an empty cache, and if no package comes in twice, it stands in one place only. -/
theorem ids_told_apart (hne : ∀ n, idOf n ≠ "") {world : World} (hworld : Session idOf world)
    (library : Library) (source filename : String) (chain : List String) :
    let scope := ((Compiler.mk idOf library).compile source filename chain world).1.scope
    ToldApart scope ∧ (world.cache = {} →
      (library.arrivals library.depth chain (Node.locationsOfAll
        (Recipe.ofText source filename).recipe.statements)).Nodup → scope.elements.Nodup) := by
  intro scope
  constructor
  · obtain ⟨stage, hreachable, -, -, hscope⟩ := hworld.compiled hne library source filename chain
    have happart := toldApart_of_reachable hinj hreachable
    rwa [hscope] at happart
  · intro hempty honce
    have hnothing : ∀ location, world.cache.get? location = none := by
      intro location
      rw [hempty]
      rfl
    have hclear : Clear library library.depth chain [] (Node.locationsOfAll
        (Recipe.ofText source filename).recipe.statements) world := by
      constructor
      case once =>
        rw [List.append_nil]
        exact honce
      case absent =>
        intro location _ package hpackage
        rw [hnothing] at hpackage
        cases hpackage
      case loading =>
        intro location hlocation
        rw [hnothing] at hlocation
        cases hlocation
      case faithful =>
        intro location result hresult
        rw [hnothing] at hresult
        cases hresult
    have hunique := (lowerRecipe_unique hinj hne (loadsOnce hinj hne library.depth) hclear).2
    have hnodup := hunique.nodup
    rw [List.flatMap_singleton] at hnodup
    exact hnodup

omit hinj

/-- A package that asks for another one. -/
def outerAndInner : Library :=
  .ofStored ⟨[("outer.fiz", .text "@\"inner.fiz\"\nn[g()]"), ("inner.fiz", .text "f()")]⟩

theorem ids_told_apart_nested :
    let scope := ((Compiler.mk tally outerAndInner).compile "a @ \"outer.fiz\"\nh(a.n)" "main.fiz"
      [] {}).1.scope
    scope.elements.length = 6 ∧ ToldApart scope ∧ scope.elements.Nodup := by
  have hboth := ids_told_apart tally_injective tally_ne_empty .begin outerAndInner
    "a @ \"outer.fiz\"\nh(a.n)" "main.fiz" []
  have honce : (outerAndInner.arrivals outerAndInner.depth [] (Node.locationsOfAll
      (Recipe.ofText "a @ \"outer.fiz\"\nh(a.n)" "main.fiz").recipe.statements)).Nodup := by
    decide +kernel
  exact ⟨by decide +kernel, hboth.1, hboth.2 rfl honce⟩

/-- A package that comes in twice brings its vertex twice. -/
theorem ids_repeated :
    ¬ ((Compiler.mk tally (.ofStored ⟨[("lib.fiz", .text "f()")]⟩)).compile
      "a @ \"lib.fiz\"\nb @ \"lib.fiz\"" "main.fiz" [] {}).1.scope.elements.Nodup := by
  decide +kernel

end Compiled

end Compile

end RecipeGraph
