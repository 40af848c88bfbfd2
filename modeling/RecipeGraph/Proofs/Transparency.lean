import RecipeGraph.Proofs.Bookkeeping
import RecipeGraph.Proofs.RequestOrder

/-!
The cache is transparent as long as packages that go in a circle are asked for in the same order.
Whatever was compiled before, a text gives what it gives at first, up to the ids, if the tangled
packages that it leads to have not been asked for yet, or not in any other order. They are then
what they would be at first, each with ids of its own, and all others are there as they are meant.
-/
namespace RecipeGraph.Compile

open RecipeGraph.Graph Recipe Package

section Elsewhere

variable {idOf : Nat → String} {library : Library} {location other : String} {chain : List String}
  {world : World}

/-- Loading leaves alone what the package does not lead to. -/
theorem loadWithin_elsewhere (depth : Nat) (h : ¬ library.Leads location other) :
    (loadWithin idOf library depth location chain world).2.cache.get? other =
      world.cache.get? other := by
  induction depth generalizing location chain world with
  | zero => rfl
  | succ depth ih =>
    have hother : location ≠ other := by
      rintro rfl
      exact h .refl
    cases hrefusal : refusal? location chain with
    | some fault => rw [loadWithin_refused hrefusal]
    | none =>
      obtain ⟨-, hextension⟩ := package_of_not_refused hrefusal
      rw [loadWithin_admitted hrefusal]
      refine remember_elsewhere hother fun text hfetch =>
        packageScope_elsewhere fun asked hasked world => ?_
      rw [← Library.asks_eq hextension hfetch] at hasked
      exact ih fun hleads => h ((Relation.ReflTransGen.single hasked).trans hleads)

end Elsewhere

section Followed

/-- Of the tangled packages in view the cache has what another one has. -/
def Agrees (idOf : Nat → String) (packages : OrderedMap Stored) (view : String → Prop)
    (ledger : Ledger) (world : World) (cache : OrderedMap Entry) : Prop :=
  ∀ location, view location → ¬ (Library.ofStored packages).Untangled location →
    ReadsEntry idOf ledger world.issued (world.cache.get? location) (cache.get? location)

structure Followed (idOf : Nat → String) (packages : OrderedMap Stored) (view : String → Prop)
    (chain : List String) (ledger : Ledger) (world : World) (cache : OrderedMap Entry) :
    Prop where
  booked : Booked idOf packages chain ledger world
  agrees : Agrees idOf packages view ledger world cache

/-- A text whose packages are loaded on both sides, with ids of their own on the second one. -/
noncomputable def asLoaded (idOf : Nat → String) (packages : OrderedMap Stored)
    (view : String → Prop) (chain : List String) (owner : Owner) (depth : Nat) : Comparison where
  setting := ⟨idOf, chain, some (loadWithin idOf (.ofStored packages) depth)⟩
  owner := owner
  second := ⟨fun n => ownId (owner, n), chain, some (loadOwn packages depth)⟩
  current ledger world world' := Followed idOf packages view chain ledger world world'.cache

variable {idOf : Nat → String} {packages : OrderedMap Stored} {view : String → Prop}
  {chain : List String} {owner : Owner} {depth : Nat} {ledger ledger' : Ledger}
  {world after : World} {cache cache' : OrderedMap Entry} {location : String}

theorem Agrees.kept (hinj : Function.Injective idOf)
    (h : Agrees idOf packages view ledger world cache) (hissued : world.issued ≤ after.issued)
    (hkept : ∀ n < world.issued, ledger' n = ledger n)
    (hcache : ∀ location, ¬ (Library.ofStored packages).Untangled location →
      after.cache.get? location = world.cache.get? location) :
    Agrees idOf packages view ledger' after cache := by
  intro location hview htangled
  rw [hcache location htangled]
  exact (h location hview htangled).kept hinj hissued hkept

theorem Agrees.record (h : Agrees idOf packages view ledger world cache) {entry entry' : Entry}
    (hentry : ReadsEntry idOf ledger world.issued (some entry) (some entry')) :
    Agrees idOf packages view ledger (world.record location entry)
      (cache.insert location entry') := by
  intro other hview htangled
  by_cases hsame : location = other
  · subst hsame
    unfold World.record
    rw [OrderedMap.get?_insert_self, OrderedMap.get?_insert_self]
    exact hentry
  · rw [get?_record_of_ne hsame, OrderedMap.get?_insert_of_ne _ _ hsame]
    exact h other hview htangled

variable (hinj : Function.Injective idOf) (hgiven : ∀ n, idOf n ≠ "")

include hinj hgiven

theorem lawful_asLoaded : (asLoaded idOf packages view chain owner depth).Lawful where
  injective := hinj
  given := hgiven
  own _ := rfl
  one h := h.booked.injective
  assign h hpresent _ _ hplaces _ _ hissued hcache hcache' := by
    obtain ⟨hbooked, hextends⟩ := UpToDate.assign hinj h.booked hpresent hplaces hissued hcache
    refine ⟨⟨hbooked, ?_⟩, hextends⟩
    rw [hcache']
    exact h.agrees.kept hinj hextends.issued hextends.kept
      fun location _ => congrArg (OrderedMap.get? · location) hcache

/-- A tangled package in view, from the caches or else from its text. -/
theorem remember_follows (htangled : ¬ (Library.ofStored packages).Untangled location)
    (hview : view location) (hrefusal : refusal? location chain = none)
    (hsupplies : ∀ asked ∈ (Library.ofStored packages).asks location,
      (asLoaded idOf packages view (location :: chain) (.package location) depth).Supplies
        (loadWithin idOf (.ofStored packages) depth) (loadOwn packages depth) asked)
    (hfollowed : Followed idOf packages view chain ledger world cache) :
    let remembered := remember location
      (fetchWith (Library.ofStored packages)
        (fun text => packageScope idOf (loadWithin idOf (.ofStored packages) depth) location text
          (location :: chain)) location) world
    let remembered' := remember location
      (fetchWith (Library.ofStored packages)
        (fun text => packageScope (fun n => ownId (.package location, n)) (loadOwn packages depth)
          location text (location :: chain)) location) { cache := cache }
    ∃ ledger', Followed idOf packages view chain ledger' remembered.2 remembered'.2.cache ∧
      Extends .nobody ledger ledger' world remembered.2 ∧
      Reads idOf ledger' remembered.2.issued remembered.1 remembered'.1 := by
  obtain ⟨-, hextension⟩ := package_of_not_refused hrefusal
  have hentry := hfollowed.agrees location hview htangled
  generalize hfound : world.cache.get? location = found at hentry
  generalize hfound' : cache.get? location = found' at hentry
  cases hentry with
  | loading =>
    rw [remember_loading hfound, remember_loading hfound']
    exact ⟨ledger, hfollowed, .refl _ _ _, reads_error _ _ _ _⟩
  | loaded hreads =>
    rw [remember_loaded hfound, remember_loaded hfound']
    exact ⟨ledger, hfollowed, .refl _ _ _, hreads⟩
  | none =>
    have hopened : Followed idOf packages view (location :: chain) ledger
        (beginLoading location world) (cache.insert location .loading) :=
      ⟨(UpToDate.open hfollowed.booked).issue hinj (Nat.le_refl _) rfl,
        hfollowed.agrees.record .loading⟩
    have hbefore : Extends .nobody ledger ledger world (beginLoading location world) :=
      .same _ _ (Nat.le_refl _) fun _ => cached_record
    cases hfetch : (Library.ofStored packages).fetch location with
    | error fault =>
      rw [remember_unfetched hfound hfetch, remember_unfetched hfound' hfetch]
      exact ⟨ledger, ⟨hopened.booked.close fun h => absurd h htangled,
        hopened.agrees.record (.loaded (reads_error _ _ _ _))⟩,
        hbefore.trans (.same _ _ (Nat.le_refl _) fun _ => cached_record),
        reads_error _ _ _ _⟩
    | ok text =>
      rw [remember_compiled hfound hfetch, remember_compiled hfound' hfetch]
      rw [Library.asks_eq hextension hfetch] at hsupplies
      have hpresent : Present (beginLoading location world) (.package location) :=
        (present_record world location .loading).mono fun _ h => h
      have hcurrent : (asLoaded idOf packages view (location :: chain) (.package location)
          depth).current ledger (beginLoading location world)
            (beginLoading location { cache := cache }) := hopened
      obtain ⟨ledger', hextends, htracks⟩ := Comparison.tracks_recipe (lawful_asLoaded hinj hgiven)
        rfl rfl hsupplies hcurrent rfl hpresent
        fun n j hown => hfollowed.booked.cached n location j hown hfound
      have hreads : Reads idOf ledger' _ (.ok _) (.ok _) :=
        ⟨congrArg Except.ok htracks.scope.symm, fun package hpackage =>
          Except.ok.inj hpackage ▸ htracks.placed.here⟩
      exact ⟨ledger', ⟨htracks.current.booked.close fun h => absurd h htangled,
        htracks.current.agrees.record (.loaded hreads)⟩,
        (hextends.absent hbefore (not_present_of_none hfound)).trans
          (.same _ _ (Nat.le_refl _) fun _ => cached_record), hreads⟩

/-- Whoever asks for a package in view is told the same on both sides. -/
theorem loadWithin_follows
    (hclosed : ∀ other, view other → ∀ asked ∈ (Library.ofStored packages).asks other, view asked)
    (hview : view location) (hnodup : chain.Nodup)
    (hstored : ∀ other ∈ chain, other ∈ packages.keys)
    (hleads : ∀ other ∈ chain, (Library.ofStored packages).Leads other location)
    (hdepth : packages.size + 1 ≤ depth + chain.length) :
    (asLoaded idOf packages view chain owner depth).Supplies
      (loadWithin idOf (.ofStored packages) depth) (loadOwn packages depth) location := by
  induction depth generalizing chain location owner with
  | zero =>
    have hlength := length_le_size hnodup hstored
    omega
  | succ depth ih =>
    intro ledger world world' hfollowed
    change ∃ ledger', Followed idOf packages view chain ledger'
      (loadWithin idOf (.ofStored packages) (depth + 1) location chain world).2
      (loadOwn packages (depth + 1) location chain world').2.cache ∧
      Extends .nobody ledger ledger' world
        (loadWithin idOf (.ofStored packages) (depth + 1) location chain world).2 ∧
      (loadOwn packages (depth + 1) location chain world').2.issued = world'.issued ∧
      Reads idOf ledger'
        (loadWithin idOf (.ofStored packages) (depth + 1) location chain world).2.issued
        (loadWithin idOf (.ofStored packages) (depth + 1) location chain world).1
        (loadOwn packages (depth + 1) location chain world').1
    by_cases hclear : (Library.ofStored packages).Untangled location
    · obtain ⟨ledger', hbooked, hextends, hreads⟩ :=
        loadWithin_loads hinj hgiven hnodup hstored hleads hdepth ledger world hfollowed.booked
      rw [loadOwn_untangled hclear]
      refine ⟨ledger', ⟨hbooked, ?_⟩, hextends, rfl, hreads hclear⟩
      refine hfollowed.agrees.kept hinj hextends.issued hextends.kept ?_
      intro other hother
      exact loadWithin_elsewhere _ fun hled => hother (hclear.of_leads hled)
    · rw [loadOwn_tangled hclear]
      cases hrefusal : refusal? location chain with
      | some fault =>
        rw [loadWithin_refused hrefusal]
        exact ⟨ledger, hfollowed, .refl _ _ _, rfl, reads_error _ _ _ _⟩
      | none =>
        rw [loadWithin_admitted hrefusal]
        have hinside := (package_of_not_refused hrefusal).1
        have hsupplies : ∀ asked ∈ (Library.ofStored packages).asks location,
            (asLoaded idOf packages view (location :: chain) (.package location) depth).Supplies
              (loadWithin idOf (.ofStored packages) depth) (loadOwn packages depth) asked := by
          intro asked hasked
          refine ih (hclosed _ hview _ hasked) (List.nodup_cons.mpr ⟨hinside, hnodup⟩)
            (List.forall_mem_cons.mpr ⟨mem_keys_of_asked hasked, hstored⟩)
            (List.forall_mem_cons.mpr ⟨.single hasked, fun other hother =>
              (hleads other hother).tail hasked⟩) ?_
          rw [List.length_cons]
          omega
        obtain ⟨ledger', hafter, hextends, hreads⟩ :=
          remember_follows hinj hgiven hclear hview hrefusal hsupplies hfollowed
        exact ⟨ledger', hafter, hextends, rfl, hreads⟩

end Followed

section Reused

/-- The worlds that one compiler leads to when it compiles texts one after the other, none of them
for a package. The cache may be cleared in between. -/
inductive Compiler.Reused (compiler : Compiler) : World → Prop
  | begin : compiler.Reused {}
  | compile {world : World} (h : compiler.Reused world) (source filename : String) :
      compiler.Reused (compiler.compile source filename [] world).2
  | clear {world : World} (h : compiler.Reused world) : compiler.Reused world.clear

/-- A compiler whose packages are in memory. -/
def Compiler.ofStored (idOf : Nat → String) (packages : OrderedMap Stored) : Compiler :=
  ⟨idOf, .ofStored packages⟩

def Compilation.rename (f : String → String) (compilation : Compilation) : Compilation :=
  { compilation with scope := compilation.scope.rename f }

/-- The packages that a text asks for, in order. -/
def requests (source filename : String) : List String :=
  Node.locationsOfAll (Recipe.ofText source filename).recipe.statements

/-- The packages that texts ask for one after the other. Each text has the name of its file. -/
def requestsOfAll (sources : List (String × String)) : List String :=
  sources.flatMap fun source => requests source.1 source.2

/-- The world when the compiler has compiled some texts. -/
def Compiler.after (compiler : Compiler) (sources : List (String × String)) (world : World) :
    World :=
  sources.foldl (fun world source => (compiler.compile source.1 source.2 [] world).2) world

/-- What is tangled and comes in with some packages has not been asked for yet. -/
def Untouched (packages : OrderedMap Stored) (locations : List String) (world : World) : Prop :=
  ∀ location, (Library.ofStored packages).Needs locations location →
    ¬ (Library.ofStored packages).Untangled location → world.cache.get? location = none

variable {idOf idOf' : Nat → String} {packages : OrderedMap Stored} {world : World}
  {view : String → Prop} {ledger : Ledger} {cache : OrderedMap Entry} {statements : List Node}

theorem loads_reused (hinj : Function.Injective idOf) (hgiven : ∀ n, idOf n ≠ "")
    (location : String) :
    Loads idOf packages [] (Compiler.ofStored idOf packages).loader location :=
  loadWithin_loads hinj hgiven List.nodup_nil (fun _ hnone => nomatch hnone)
    (fun _ hnone => nomatch hnone) (Nat.le_refl _)

/-- Between the texts the books are in order, and nothing in them is for a text to come. -/
theorem Compiler.Reused.booked (h : (Compiler.ofStored idOf packages).Reused world)
    (hinj : Function.Injective idOf) (hgiven : ∀ n, idOf n ≠ "") :
    ∃ ledger, Booked idOf packages [] ledger world ∧ ∀ n j, ledger n ≠ (.text, j) := by
  induction h with
  | begin => exact ⟨_, upToDate_clear _ _ _ _ {}, fun n j hentry => nomatch hentry⟩
  | compile h source filename ih =>
    obtain ⟨ledger, hbooked, hnone⟩ := ih
    obtain ⟨ledger', hafter, hextends⟩ := booked_recipe hinj
      (fun asked _ => loads_reused hinj hgiven asked) hbooked
    refine ⟨ledger', hafter, fun n j hentry => hnone n j ?_⟩
    exact hextends.others .text .text (fun heq => nomatch heq) n j hentry
  | clear h ih => exact ⟨_, upToDate_clear _ _ _ _ _, fun n j hentry => nomatch hentry⟩

/-- It does no harm to ask for what is not tangled. -/
theorem untouched_of_untangled {locations : List String}
    (h : ∀ location ∈ world.cache.keys, (Library.ofStored packages).Untangled location) :
    Untouched packages locations world :=
  fun location _ htangled =>
    OrderedMap.get?_of_not_mem_keys fun hkey => htangled (h location hkey)

section InView

variable (hinj : Function.Injective idOf) (hgiven : ∀ n, idOf n ≠ "")
  (hclosed : ∀ other, view other → ∀ asked ∈ (Library.ofStored packages).asks other, view asked)

include hinj

/-- As texts ask for packages, they are followed by a cache of packages with ids of their own. -/
theorem tour_followed : Tour fun asked work after =>
    ∀ cache ledger, Followed idOf packages view [] ledger work.world cache →
      ∃ ledger', Followed idOf packages view [] ledger' after.world
          (bringAll packages (packages.size + 1) [] cache asked) ∧
        Extends .nobody ledger ledger' work.world after.world where
  still := growth_all fun cache => growth_ledger (Followed idOf packages view [] · · cache)
    fun h hissued hcache =>
      ⟨h.booked.issue hinj hissued hcache, h.agrees.kept hinj hissued (fun _ _ => rfl)
        fun location _ => congrArg (OrderedMap.get? · location) hcache⟩
  join h h' cache ledger hfollowed := by
    obtain ⟨middle, hmiddle, hextends⟩ := h cache ledger hfollowed
    obtain ⟨ledger', hafter, hextends'⟩ := h' _ middle hmiddle
    rw [bringAll_append]
    exact ⟨ledger', hafter, hextends.trans hextends'⟩

include hgiven hclosed

theorem supplies_asLoaded (owner : Owner) {location : String} (hview : view location) :
    (asLoaded idOf packages view [] owner (packages.size + 1)).Supplies
      (Compiler.ofStored idOf packages).loader (loadOwn packages (packages.size + 1)) location :=
  loadWithin_follows hinj hgiven hclosed hview List.nodup_nil (fun _ hnone => nomatch hnone)
    (fun _ hnone => nomatch hnone) (Nat.le_refl _)

theorem Followed.recipe (h : Followed idOf packages view [] ledger world cache)
    (hview : ∀ location ∈ Node.locationsOfAll statements, view location) :
    ∃ ledger', Followed idOf packages view [] ledger'
        (lowerRecipe ((Compiler.ofStored idOf packages).setting []) statements world).world
        (bringAll packages (packages.size + 1) [] cache (Node.locationsOfAll statements)) ∧
      Extends .nobody ledger ledger' world
        (lowerRecipe ((Compiler.ofStored idOf packages).setting []) statements world).world := by
  refine (tour_followed hinj).recipe ((Compiler.ofStored idOf packages).setting []) statements ?_
    world cache ledger h
  intro location hlocation work cache ledger hfollowed
  obtain ⟨ledger', hafter, hextends, -⟩ :=
    supplies_asLoaded hinj hgiven hclosed .text (hview location hlocation) ledger work.world
      { cache := cache } hfollowed
  exact ⟨ledger', hafter, hextends⟩

theorem Followed.after (h : Followed idOf packages view [] ledger world cache)
    {sources : List (String × String)}
    (hview : ∀ location ∈ requestsOfAll sources, view location) :
    ∃ ledger', Followed idOf packages view [] ledger'
        ((Compiler.ofStored idOf packages).after sources world)
        (bringAll packages (packages.size + 1) [] cache (requestsOfAll sources)) ∧
      Extends .nobody ledger ledger' world
        ((Compiler.ofStored idOf packages).after sources world) := by
  induction sources generalizing ledger world cache with
  | nil => exact ⟨ledger, h, .refl _ _ _⟩
  | cons source rest ih =>
    obtain ⟨middle, hmiddle, hextends⟩ := h.recipe hinj hgiven hclosed
      fun location hin => hview location (List.mem_append_left _ hin)
    obtain ⟨ledger', hafter, hextends'⟩ :=
      ih hmiddle fun location hin => hview location (List.mem_append_right _ hin)
    rw [← bringAll_append] at hafter
    exact ⟨ledger', hafter, hextends.trans hextends'⟩

/-- A text reads as it does by itself with the packages that the cache follows. -/
theorem Followed.reads (h : Followed idOf packages view [] ledger world cache)
    (hview : ∀ location ∈ Node.locationsOfAll statements, view location)
    (hnone : ∀ n j, ledger n ≠ (.text, j)) :
    let work := lowerRecipe ((Compiler.ofStored idOf packages).setting []) statements world
    let work' := lowerRecipe (ownSetting packages .text (packages.size + 1) []) statements
      { cache := cache }
    ∃ reading : String → String, Function.Injective reading ∧
      work.scope.rename reading = work'.scope ∧ work.diagnostics = work'.diagnostics ∧
      work.scope.Within (Since idOf 0 work.world.issued) := by
  have hcurrent : (asLoaded idOf packages view [] .text (packages.size + 1)).current ledger world
      { cache := cache } := h
  obtain ⟨ledger', -, htracks⟩ := Comparison.tracks_recipe (lawful_asLoaded hinj hgiven) rfl rfl
    (fun location hin => supplies_asLoaded hinj hgiven hclosed .text (hview location hin))
    hcurrent rfl .text hnone
  exact ⟨_, Ledger.rename_injective hinj htracks.current.booked.injective, htracks.scope.symm,
    htracks.diagnostics, htracks.placed.here⟩

end InView

/-- Scopes that read the same are the same under other ids. -/
theorem rename_of_readings {reading reading' : String → String} {scope scope' : Scope}
    {issued : Nat} (hinj' : Function.Injective idOf') (hreading : Function.Injective reading)
    (hreading' : Function.Injective reading') (hwithin : scope'.Within (Since idOf' 0 issued))
    (hsame : scope.rename reading = scope'.rename reading') :
    ∃ f : String → String, Function.Injective f ∧ scope.rename f = scope' := by
  have hread : (scope.rename reading).Within fun id => ∃ n < issued, reading' (idOf' n) = id := by
    rw [hsame]
    refine Scope.within_rename.mpr (hwithin.mono ?_)
    rintro id ⟨n, -, hn, rfl⟩
    exact ⟨n, hn, rfl⟩
  refine ⟨exchange idOf' issued reading reading', exchange_injective hinj' hreading, ?_⟩
  refine Scope.rename_inj hreading' ?_
  rw [← hsame, Scope.rename_rename]
  exact ((Scope.within_rename.mp hread).mono fun id hid => target_exchange hid).rename_congr

/-- A text gives the same on a compiler that was used as on a new one, up to the ids, which may
come from another supply there, if there was a time when its tangled packages had not been asked
for, and since then they were asked for in the same order as far as both go. It is enough if this
holds of each sort of packages that lead to no tangled one in common with those of other sorts. -/
theorem reused_as_new (hinj : Function.Injective idOf) (hgiven : ∀ n, idOf n ≠ "")
    (hinj' : Function.Injective idOf') (hgiven' : ∀ n, idOf' n ≠ "")
    (h : (Compiler.ofStored idOf packages).Reused world) (since : List (String × String))
    (source filename : String) (sort : String → Nat)
    (huntouched : Untouched packages (requests source filename ++ requestsOfAll since) world)
    (hsorted : Sorted packages sort (requests source filename ++ requestsOfAll since))
    (horder : ∀ n, InOrder packages ((requests source filename).filter (sort · = n))
      ((requestsOfAll since).filter (sort · = n))) :
    ∃ f : String → String, Function.Injective f ∧
      ((Compiler.ofStored idOf packages).compile source filename []
          ((Compiler.ofStored idOf packages).after since world)).1.rename f =
        ((Compiler.ofStored idOf' packages).compile source filename [] {}).1 := by
  let view := (Library.ofStored packages).Needs (requests source filename ++ requestsOfAll since)
  have hclosed : ∀ other, view other → ∀ asked ∈ (Library.ofStored packages).asks other,
      view asked :=
    fun _ ⟨direct, hdirect, hleads⟩ _ hasked => ⟨direct, hdirect, hleads.tail hasked⟩
  have hsource : ∀ location ∈ requests source filename, view location :=
    fun location hin => ⟨location, List.mem_append_left _ hin, .refl⟩
  have hsince : ∀ location ∈ requestsOfAll since, view location :=
    fun location hin => ⟨location, List.mem_append_right _ hin, .refl⟩
  obtain ⟨ledger, hbooked, hnone⟩ := h.booked hinj hgiven
  have hbegun : Followed idOf packages view [] ledger world {} := by
    refine ⟨hbooked, fun location hneeded htangled => ?_⟩
    rw [huntouched location hneeded htangled]
    exact .none
  obtain ⟨middle, hfollowed, hextends⟩ := hbegun.after hinj hgiven hclosed hsince
  obtain ⟨reading, hreading, hscope, hdiagnostics, -⟩ :=
    hfollowed.reads hinj hgiven hclosed hsource fun n j hentry =>
      hnone n j (hextends.others .text .text (fun heq => nomatch heq) n j hentry)
  obtain ⟨ledger', hbooked', hnone'⟩ := Compiler.Reused.begin.booked hinj' hgiven'
  have hfresh : Followed idOf' packages view [] ledger' {} {} := ⟨hbooked', fun _ _ _ => .none⟩
  obtain ⟨reading', hreading', hscope', hdiagnostics', hwithin⟩ :=
    hfresh.reads hinj' hgiven' hclosed hsource hnone'
  obtain ⟨hown, hreports⟩ := own_sorted hsorted horder
  obtain ⟨f, hf, hsame⟩ := rename_of_readings hinj' hreading hreading' hwithin
    ((hscope.trans hown).trans hscope'.symm)
  refine ⟨f, hf, ?_⟩
  unfold Compilation.rename Compiler.compile
  dsimp only
  rw [hsame, (hdiagnostics.trans hreports).trans hdiagnostics'.symm]

/-- Two packages that ask for each other, and one that asks for itself. -/
def roundAbout : OrderedMap Stored :=
  ⟨[("a.fiz", .text "@\"b.fiz\"\nfa()"), ("b.fiz", .text "@\"a.fiz\"\nfb()"),
    ("self.fiz", .text "@\"self.fiz\"\nx = f()")]⟩

theorem untangled_roundAbout : (Library.ofStored roundAbout).Untangled "self.fiz" := by
  refine untangled_of_only_itself fun asked hasked => ?_
  have hasks : (Library.ofStored roundAbout).asks "self.fiz" = ["self.fiz"] := by decide +kernel
  rw [hasks] at hasked
  exact List.mem_singleton.mp hasked

theorem reused_as_new_nested :
    let compiler := Compiler.ofStored tally roundAbout
    let used := (compiler.compile "m @ \"self.fiz\"\nh(m.x)" "first.fiz" [] {}).2
    let since := [("@\"b.fiz\"\nm @ \"self.fiz\"\nk()", "second.fiz")]
    let later := compiler.after since used
    let source := "@\"b.fiz\"\nm @ \"self.fiz\"\nh(m.x)"
    (compiler.compile source "main.fiz" [] later).1.scope.contents.vertices.size = 3 ∧
      ∃ f : String → String, Function.Injective f ∧
        (compiler.compile source "main.fiz" [] later).1.rename f =
          ((Compiler.ofStored (fun n => tally (2 * n)) roundAbout).compile source "main.fiz"
            [] {}).1 := by
  intro compiler used since later source
  have hdouble : Function.Injective fun n => tally (2 * n) :=
    fun _ _ heq => Nat.eq_of_mul_eq_mul_left Nat.two_pos (tally_injective heq)
  have hkeys : used.cache.keys = ["self.fiz"] := by decide +kernel
  have huntouched : Untouched roundAbout (requests source "main.fiz" ++ requestsOfAll since)
      used := by
    refine untouched_of_untangled ?_
    rw [hkeys]
    exact List.forall_mem_singleton.mpr untangled_roundAbout
  have hsame : requestsOfAll since = requests source "main.fiz" := by decide +kernel
  have horder : ∀ n, InOrder roundAbout ((requests source "main.fiz").filter fun _ => 0 = n)
      ((requestsOfAll since).filter fun _ => 0 = n) := by
    intro n
    rw [hsame]
    exact .refl _ _
  exact ⟨by decide +kernel, reused_as_new tally_injective tally_ne_empty hdouble
    (fun _ => tally_ne_empty _) (.compile .begin _ _) since source "main.fiz" (fun _ => 0)
    huntouched (fun _ _ _ _ hne => absurd rfl hne) horder⟩

/-- Of two packages that ask for each other, the one asked for later was compiled inside the first
one, where it could not have it. -/
theorem entries_differ :
    let compiler := Compiler.ofStored tally roundAbout
    let used := (compiler.compile "@\"a.fiz\"" "main.fiz" [] {}).2
    compiler.Reused used ∧ ¬ ∃ f : String → String, Function.Injective f ∧
      (compiler.compile "@\"b.fiz\"" "main.fiz" [] used).1.rename f =
        (compiler.compile "@\"b.fiz\"" "main.fiz" [] {}).1 := by
  intro compiler used
  refine ⟨.compile .begin _ _, ?_⟩
  rintro ⟨f, -, hsame⟩
  have hcount := congrArg (fun compilation : Compilation =>
    compilation.scope.contents.vertices.values.length) hsame
  have hone : (compiler.compile "@\"b.fiz\"" "main.fiz" []
      used).1.scope.contents.vertices.values.length = 1 := by
    decide +kernel
  have htwo : (compiler.compile "@\"b.fiz\"" "main.fiz" []
      {}).1.scope.contents.vertices.values.length = 2 := by
    decide +kernel
  dsimp only [Compilation.rename] at hcount
  rw [Scope.contents_rename, Contents.rename, OrderedMap.values_transfer, List.length_map, hone,
    htwo] at hcount
  cases hcount

end Reused

end RecipeGraph.Compile
