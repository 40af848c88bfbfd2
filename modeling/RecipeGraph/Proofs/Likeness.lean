import RecipeGraph.Proofs.Seclusion
import RecipeGraph.Proofs.Standpoint

/-!
A job that is done in place is like work on scopes. The member that is filled depicts the scope that
is worked on, those above it depict the scopes around, and what is remembered of packages is the same.
Each single step keeps this up, since names lead to the same and only the one member changes.
-/
namespace RecipeGraph.Compile

open RecipeGraph.Graph Recipe Package

/-- The same ids and the same chain of packages, which come from a supplier if they come at all. -/
abbrev Setting.outfit (setting : Setting) (supplier : Option InPlace.Supplier) : InPlace.Outfit :=
  ⟨setting.idOf, setting.chain, supplier⟩

namespace InPlace

/-- What came of asking for a package is the same, apart from those members that are at work. -/
inductive Fits (h : Hierarchy) (busy : List Nat) : Except Fault Nat → Except Fault Scope → Prop
  | error (fault : Fault) : Fits h busy (.error fault) (.error fault)
  | ok {package : Nat} {scope : Scope} (hclear : h.Clear busy package scope) :
      Fits h busy (.ok package) (.ok scope)

/-- What is remembered of a package is the same. -/
inductive Recalls (h : Hierarchy) (busy : List Nat) : Parcel → Entry → Prop
  | loading : Recalls h busy .loading .loading
  | loaded {result : Except Fault Nat} {result' : Except Fault Scope}
      (hfits : Fits h busy result result') : Recalls h busy (.loaded result) (.loaded result')

/-- What outlasts a compilation is the same, while some members are at work. -/
structure Yard.Shows (yard : Yard) (busy : List Nat) (world : World) : Prop where
  forest : yard.hierarchy.Forest
  bound : ∀ n ∈ busy, n < yard.size
  issued : yard.issued = world.issued
  fetched : yard.fetched = world.fetched
  cache : List.Forall₂ (Hierarchy.Entrywise (Recalls yard.hierarchy busy)) yard.cache.entries
    world.cache.entries

/-- The job in member `n` is the work on a scope inside the scopes around. -/
structure Agrees (n : Nat) (busy : List Nat) (outer : List Scope) (job : Job) (work : Work) :
    Prop where
  diagnostics : job.diagnostics = work.diagnostics
  depicts : job.yard.hierarchy.Depicts n work.scope
  around : job.yard.hierarchy.Around n n work.scope.id work.scope.name outer
  shows : job.yard.Shows (n :: busy) work.world

/-- The same value comes of both, and they go on alike. -/
structure Alike {α : Type} (n : Nat) (busy : List Nat) (outer : List Scope) (first : α × Job)
    (second : α × Work) : Prop where
  value : first.1 = second.1
  rest : Agrees n busy outer first.2 second.2

variable {n : Nat} {busy later : List Nat} {outer : List Scope} {job after : Job} {work : Work}
  {h h' : Hierarchy}

section Shows

variable {yard made : Yard} {world : World}

theorem Fits.kept {result : Except Fault Nat} {result' : Except Fault Scope}
    (hfits : Fits h busy result result')
    (hkept : ∀ k < h.members.length, k ∉ busy → h'.get? k = h.get? k)
    (hlater : ∀ k ∈ later, k ∈ busy ∨ h.members.length ≤ k) : Fits h' later result result' := by
  cases hfits with
  | error fault => exact .error fault
  | ok hclear => exact .ok (hclear.kept hkept hlater)

theorem Recalls.kept {parcel : Parcel} {entry : Entry} (hrecalls : Recalls h busy parcel entry)
    (hkept : ∀ k < h.members.length, k ∉ busy → h'.get? k = h.get? k)
    (hlater : ∀ k ∈ later, k ∈ busy ∨ h.members.length ≤ k) : Recalls h' later parcel entry := by
  cases hrecalls with
  | loading => exact .loading
  | loaded hfits => exact .loaded (hfits.kept hkept hlater)

/-- Packages stay as they are while those at work change and others come. -/
theorem Yard.Shows.kept (hshows : yard.Shows busy world) (hforest : h.Forest)
    (hkept : ∀ k < yard.size, k ∉ busy → h.get? k = yard.hierarchy.get? k)
    (hlater : ∀ k ∈ later, k ∈ busy ∨ yard.size ≤ k) (hbound : ∀ k ∈ later, k < h.members.length) :
    Yard.Shows { yard with hierarchy := h } later world where
  forest := hforest
  bound := hbound
  issued := hshows.issued
  fetched := hshows.fetched
  cache := hshows.cache.imp fun _ _ hentry => ⟨hentry.1, hentry.2.kept hkept hlater⟩

/-- What has happened to one of those at work is of no concern to packages. -/
theorem Yard.Shows.annexed (hshows : yard.Shows busy world) (hforest : h.Forest) (hn : n ∈ busy)
    (hannexed : yard.hierarchy.Annexed h n) : Yard.Shows { yard with hierarchy := h } busy world :=
  hshows.kept hforest (hannexed.kept_off hn) (fun _ hk => Or.inl hk)
    fun k hk => Nat.lt_of_lt_of_le (hshows.bound k hk) hannexed.size

/-- Fewer are at work. -/
theorem Yard.Shows.subset (hshows : yard.Shows busy world) (hsub : later ⊆ busy) :
    yard.Shows later world :=
  hshows.kept hshows.forest (fun _ _ _ => rfl) (fun _ hk => Or.inl (hsub hk))
    fun k hk => hshows.bound k (hsub hk)

theorem Yard.Shows.recall (hshows : yard.Shows busy world) (location : String) :
    Option.Rel (Recalls yard.hierarchy busy) (yard.cache.get? location)
      (world.cache.get? location) := by
  unfold OrderedMap.get?
  have hcache := hshows.cache
  generalize yard.cache.entries = entries, world.cache.entries = entries' at hcache ⊢
  induction hcache with
  | nil => exact .none
  | @cons first second _ _ hfirst _ ih =>
    obtain ⟨key, parcel⟩ := first
    obtain ⟨key', entry⟩ := second
    obtain rfl : key = key' := hfirst.1
    by_cases hkey : key = location
    · simpa [OrderedMap.lookup, hkey] using Option.Rel.some hfirst.2
    · simpa [OrderedMap.lookup, hkey] using ih

theorem Yard.Shows.record (hshows : yard.Shows busy world) (location : String) {parcel : Parcel}
    {entry : Entry} (hrecalls : Recalls yard.hierarchy busy parcel entry) :
    (yard.record location parcel).Shows busy (world.record location entry) where
  forest := hshows.forest
  bound := hshows.bound
  issued := hshows.issued
  fetched := hshows.fetched
  cache := Hierarchy.forall₂_write hshows.cache hrecalls

theorem Yard.Shows.noteFetch (hshows : yard.Shows busy world) (location : String) :
    (yard.noteFetch location).Shows busy (world.noteFetch location) where
  forest := hshows.forest
  bound := hshows.bound
  issued := hshows.issued
  fetched := congrArg (· ++ [location]) hshows.fetched
  cache := hshows.cache

theorem Yard.Shows.issue (hshows : yard.Shows busy world) :
    Yard.Shows { yard with issued := yard.issued + 1 } busy
      { world with issued := world.issued + 1 } where
  forest := hshows.forest
  bound := hshows.bound
  issued := congrArg (· + 1) hshows.issued
  fetched := hshows.fetched
  cache := hshows.cache

end Shows

namespace Alike

variable {α β : Type}

theorem map {first : α × Job} {second : α × Work} (f : α → β)
    (halike : Alike n busy outer first second) :
    Alike n busy outer (f first.1, first.2) (f second.1, second.2) :=
  ⟨congrArg f halike.value, halike.rest⟩

theorem foldl {step : β × Job → α → β × Job} {step' : β × Work → α → β × Work}
    (hstep : ∀ {first second} item, Alike n busy outer first second →
      Alike n busy outer (step first item) (step' second item))
    {first : β × Job} {second : β × Work} (halike : Alike n busy outer first second)
    (items : List α) : Alike n busy outer (items.foldl step first) (items.foldl step' second) :=
  List.foldl_rel halike fun item _ _ _ halike => hstep item halike

end Alike

namespace Agrees

variable (hagrees : Agrees n busy outer job work)

include hagrees

theorem there : n < job.yard.size :=
  hagrees.shows.bound n (List.mem_cons_self ..)

/-- The member has changed, and the scope with it. -/
theorem change {f : Hierarchy → Hierarchy} {scope : Scope}
    (hannexed : job.yard.hierarchy.Annexed (f job.yard.hierarchy) n)
    (hforest : (f job.yard.hierarchy).Forest) (hdepicts : (f job.yard.hierarchy).Depicts n scope)
    (hlabel : scope.contents.label = work.scope.contents.label) :
    Agrees n busy outer (job.change f) { work with scope := scope } where
  diagnostics := hagrees.diagnostics
  depicts := hdepicts
  around := by
    obtain ⟨hid, hname⟩ := Prod.mk.inj hlabel
    unfold Scope.id Scope.name
    rw [hid, hname]
    exact hagrees.around.annexed hannexed (Or.inl rfl)
  shows := hagrees.shows.annexed hforest (List.mem_cons_self ..) hannexed

theorem update {f : Contents → Contents}
    (hlabel : ∀ contents, (f contents).label = contents.label) :
    Agrees n busy outer (job.update n f) (work.update f) := by
  have hsame : (work.scope.mapContents f).contents.label = work.scope.contents.label := by
    rw [Scope.contents_mapContents, hlabel]
  refine hagrees.change (Annexes.update hagrees.there hlabel)
    (hagrees.shows.forest.edit n fun contents => congrArg Prod.fst (hlabel contents))
    (hagrees.depicts.edit f) hsame

theorem freshId (setting : Setting) (supplier : Option Supplier) :
    Alike n busy outer (job.freshId (setting.outfit supplier))
      (work.freshId setting) where
  value := congrArg setting.idOf hagrees.shows.issued
  rest := {
    diagnostics := hagrees.diagnostics
    depicts := hagrees.depicts
    around := hagrees.around
    shows := hagrees.shows.issue }

theorem report (extent : Span) (problem : Problem) :
    Agrees n busy outer (job.report extent problem) (work.report extent problem) where
  diagnostics := congrArg (· ++ [(⟨extent, problem⟩ : Diagnostic)]) hagrees.diagnostics
  depicts := hagrees.depicts
  around := hagrees.around
  shows := hagrees.shows

theorem elementOf? (path : Path) : job.elementOf? n path = work.elementOf? outer path := by
  unfold Job.elementOf? Work.elementOf?
  rw [hagrees.around.resolve hagrees.shows.forest.linked hagrees.depicts]

theorem variableLook? (path : Path) :
    job.variableLook? n path = work.variableLook? outer path := by
  unfold Job.variableLook? Work.variableLook?
  rw [hagrees.around.resolve hagrees.shows.forest.linked hagrees.depicts]

theorem style? (path : Path) : job.style? n path = work.style? outer path :=
  hagrees.around.resolve hagrees.shows.forest.linked hagrees.depicts _ path

omit hagrees in
theorem foldl {α : Type} {step : Job → α → Job} {step' : Work → α → Work}
    (hstep : ∀ {job work} item, Agrees n busy outer job work →
      Agrees n busy outer (step job item) (step' work item))
    (hagrees : Agrees n busy outer job work) (items : List α) :
    Agrees n busy outer (items.foldl step job) (items.foldl step' work) :=
  List.foldl_rel hagrees fun item _ _ _ hagrees => hstep item hagrees

theorem checkTags (styling : Option Node) :
    Agrees n busy outer (job.checkTags n styling) (work.checkTags outer styling) := by
  cases styling with
  | none => exact hagrees
  | some style =>
    refine foldl (fun {job work} tag hagrees => ?_) hagrees style.tags
    unfold Job.checkTag Work.checkTag
    rw [hagrees.style?]
    split
    · exact hagrees
    · exact hagrees.report _ _

theorem addInflows (setting : Setting) (supplier : Option Supplier) (target : String)
    (inflows : List Inflow) :
    Agrees n busy outer
      (job.addInflows (setting.outfit supplier) n target inflows)
      (work.addInflows setting target inflows) := by
  refine foldl (fun {job work} inflow hagrees => ?_) hagrees inflows
  obtain ⟨hid, hrest⟩ := hagrees.freshId setting supplier
  unfold Job.addInflow Work.addInflow
  dsimp only
  rw [hid]
  exact hrest.update fun _ => rfl

theorem bindTarget (id : String) (look : Node → Option Look) (target : Node) :
    Agrees n busy outer (Job.bindTarget n id look job target)
      (Work.bindTarget id look work target) :=
  hagrees.update fun _ => rfl

theorem bindTargets (targets : List Node) (value : Option String) :
    Agrees n busy outer (bindTargets n targets value job)
      (Compile.bindTargets targets value work) := by
  cases value with
  | none => exact hagrees
  | some id => exact foldl (fun target hagrees => hagrees.bindTarget id _ target) hagrees targets

theorem lowerAlias (targets : List Node) (path : Path) (extent : Option Span) :
    Agrees n busy outer (lowerAlias n targets path extent job)
      (Compile.lowerAlias outer targets path extent work) := by
  unfold InPlace.lowerAlias Compile.lowerAlias
  rw [hagrees.elementOf?]
  cases work.elementOf? outer path with
  | none => exact hagrees.report _ _
  | some id =>
    dsimp only
    rw [hagrees.variableLook?]
    exact foldl (fun target hagrees => hagrees.bindTarget id _ target) hagrees targets

theorem flatten (style : Node) :
    Alike n busy outer (flatten n style job) (Compile.flatten outer style work) := by
  refine Alike.map (fun flat : Properties => flat.merge style.properties)
    (Alike.foldl (fun {state state'} tag hstate => ?_) ⟨rfl, hagrees⟩ style.tags)
  obtain ⟨hflat, hrest⟩ := hstate
  rw [hflat, hrest.style?]
  cases state'.2.style? outer tag.path with
  | some referred => exact ⟨rfl, hrest⟩
  | none => exact ⟨rfl, hrest.report _ _⟩

theorem lowerNamedStyle (name : String) (style : Node) :
    Agrees n busy outer (lowerNamedStyle n name style job)
      (Compile.lowerNamedStyle outer name style work) := by
  obtain ⟨hflat, hrest⟩ := hagrees.flatten style
  unfold InPlace.lowerNamedStyle Compile.lowerNamedStyle
  dsimp only
  rw [hflat]
  exact hrest.update fun _ => rfl

theorem checkLeft (targets : List Node) (extent : Option Span) :
    Agrees n busy outer (checkLeft targets extent job)
      (Compile.checkLeft targets extent work) := by
  unfold InPlace.checkLeft Compile.checkLeft
  split
  · exact hagrees.report _ _
  · exact hagrees

theorem prepareTargets (targets : List Node) (extent : Option Span) :
    Agrees n busy outer (prepareTargets n targets extent job)
      (Compile.prepareTargets outer targets extent work) :=
  foldl (fun target hagrees => hagrees.checkTags target.styling)
    (hagrees.checkLeft targets extent) targets

theorem placeCall (setting : Setting) (supplier : Option Supplier) (name : String)
    (styling : Option Node) :
    Agrees n busy outer (placeCall (setting.outfit supplier) n name styling job)
      (Compile.placeCall setting outer name styling work) := by
  obtain ⟨-, hrest⟩ := hagrees.freshId setting supplier
  unfold InPlace.placeCall Compile.placeCall
  dsimp only
  rw [hagrees.shows.issued]
  exact (hrest.checkTags styling).update fun _ => rfl

section Nested

/-- A new member below is the scope inside. -/
theorem enter (setting : Setting) (supplier : Option Supplier) (given : Option String)
    (name : String) (styling : Option Node) :
    Agrees job.yard.size (n :: busy) (work.scope :: outer)
      (enter (setting.outfit supplier) (some n) given name styling job)
      (Compile.enter setting (work.scope :: outer) given name styling work) := by
  have hmade : ∀ {id id' : String} {job : Job} {work : Work}, id = id' →
      Agrees n busy outer job work → Agrees job.yard.size (n :: busy) (work.scope :: outer)
        (job.change (·.add (freshContents id name styling) (some n)))
        { work with
          scope := .ofContents (freshContents id' name styling) } := by
    rintro id - job work rfl hagrees
    have hannexed := Hierarchy.annexed_add (freshContents id name styling) hagrees.there
    obtain ⟨hdepicts, haround⟩ := hagrees.around.enter (freshContents id name styling)
      hagrees.shows.forest.linked hagrees.depicts
    have hbound := fun k hk => Nat.lt_of_lt_of_le (hagrees.shows.bound k hk) hannexed.size
    obtain ⟨member, hmember, -⟩ := hdepicts.find
    exact {
      diagnostics := hagrees.diagnostics
      depicts := hdepicts
      around := haround
      shows := hagrees.shows.kept (hagrees.shows.forest.add _ (some n))
        (hannexed.kept_off (List.mem_cons_self ..)) (by simp +contextual [Yard.size])
        (List.forall_mem_cons.mpr ⟨Hierarchy.lt_of_get? hmember, hbound⟩) }
  unfold InPlace.enter Compile.enter
  cases given.filter (· ≠ "") with
  | some id => exact (hmade rfl hagrees).checkTags styling
  | none =>
    obtain ⟨hid, hrest⟩ := hagrees.freshId setting supplier
    exact (hmade hid hrest).checkTags styling

omit hagrees in
/-- The scope inside is done and put into the one around. -/
theorem leave {inside : Job} {done : Work} {inner : Nat} (hagrees : Agrees n busy outer job work)
    (hinside : Agrees inner (n :: busy) (work.scope :: outer) inside done)
    (hannexes : Annexes n job inside)
    (hparent : (inside.yard.hierarchy.get? inner).map Member.parent = some (some n)) :
    Agrees n busy outer inside { done with scope := work.scope.attach done.scope } where
  diagnostics := hinside.diagnostics
  depicts := hinside.around.leave hinside.depicts hparent
  around := hagrees.around.annexed hannexes (Or.inl rfl)
  shows := hinside.shows.subset (List.subset_cons_self _ _)

end Nested

end Agrees

/-- A new member that nobody holds is a scope with nothing around it. -/
theorem Yard.Shows.enter {yard : Yard} {world : World} (hshows : yard.Shows busy world)
    (setting : Setting) (supplier : Option Supplier) (given : Option String) (name : String)
    (styling : Option Node) :
    Agrees yard.size busy []
      (enter (setting.outfit supplier) none given name styling ⟨yard, []⟩)
      (Compile.enter setting [] given name styling ⟨world, [], .ofContents { id := "" }⟩) := by
  have hmade : ∀ {id id' : String} {yard : Yard} {world : World}, id = id' →
      yard.Shows busy world → Agrees yard.size busy []
        (Job.change ⟨yard, []⟩ (·.add (freshContents id name styling) none))
        ⟨world, [], .ofContents (freshContents id' name styling)⟩ := by
    rintro id - yard world rfl hshows
    have hgrown := Hierarchy.grown_add yard.hierarchy (freshContents id name styling)
    have hget := Hierarchy.get?_add_self yard.hierarchy (freshContents id name styling)
    have hbound := fun k hk => Nat.lt_of_lt_of_le (hshows.bound k hk) hgrown.size
    exact {
      diagnostics := rfl
      depicts := .intro hget .nil
      around := .top (congrArg (Option.map Member.parent) hget)
      shows := hshows.kept (hshows.forest.add _ none) (fun k hk _ => hgrown.kept k hk)
        (by simp +contextual [Yard.size])
        (List.forall_mem_cons.mpr ⟨Hierarchy.lt_of_get? hget, hbound⟩) }
  unfold InPlace.enter Compile.enter
  cases given.filter (· ≠ "") with
  | some id => exact (hmade rfl hshows).checkTags styling
  | none =>
    exact (hmade (congrArg setting.idOf hshows.issued) hshows.issue).checkTags styling

end InPlace

end RecipeGraph.Compile
