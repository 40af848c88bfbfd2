import RecipeGraph.Proofs.OwnLoading

/-!
In which order packages were asked for. What comes of a package depends on the cache only as far as
the package leads. So it only matters for packages that lead to a tangled one in common in which
order they are asked for, and each of them only where it comes first. Whoever asks for them in the
same order finds the same.
-/
namespace RecipeGraph.Compile

open RecipeGraph.Graph Recipe Package

/-- The caches have the same of a group of packages. -/
def AlikeOn (group : String → Prop) (cache cache' : OrderedMap Entry) : Prop :=
  ∀ location, group location → cache.get? location = cache'.get? location

section Groups

variable {packages : OrderedMap Stored} {depth : Nat} {chain : List String} {location : String}
  {locations : List String} {cache cache' : OrderedMap Entry} {world world' : World}
  {group : String → Prop}

theorem AlikeOn.refl (group : String → Prop) (cache : OrderedMap Entry) :
    AlikeOn group cache cache :=
  fun _ _ => rfl

theorem AlikeOn.insert (h : AlikeOn group cache cache') (location : String)
    {entry entry' : Entry} (hentry : entry = entry') :
    AlikeOn group (cache.insert location entry) (cache'.insert location entry') := by
  intro other hother
  rw [hentry, OrderedMap.get?_insert, OrderedMap.get?_insert, h other hother]

/-- All tangled packages that come in with this one are in the group. -/
def Covered (packages : OrderedMap Stored) (group : String → Prop) (location : String) : Prop :=
  ∀ other, (Library.ofStored packages).Leads location other →
    ¬ (Library.ofStored packages).Untangled other → group other

/-- A loader that makes no difference between caches that are alike on a group, nor does
away with it. -/
def Congruent (packages : OrderedMap Stored) (depth : Nat) (chain : List String)
    (group : String → Prop) (location : String) : Prop :=
  ∀ cache cache', AlikeOn group cache cache' →
    (loadOwn packages depth location chain { cache := cache }).1 =
        (loadOwn packages depth location chain { cache := cache' }).1 ∧
      AlikeOn group (bring packages depth chain cache location)
        (bring packages depth chain cache' location)

theorem bringAll_congr (h : ∀ location ∈ locations, Congruent packages depth chain group location)
    (halike : AlikeOn group cache cache') :
    AlikeOn group (bringAll packages depth chain cache locations)
      (bringAll packages depth chain cache' locations) := by
  induction locations generalizing cache cache' with
  | nil => exact halike
  | cons first rest ih =>
    obtain ⟨hfirst, hrest⟩ := List.forall_mem_cons.mp h
    exact ih hrest (hfirst cache cache' halike).2

theorem text_congr (owner : Owner) {statements : List Node} (world world' : World)
    (h : ∀ location ∈ Node.locationsOfAll statements,
      Congruent packages depth chain group location)
    (hissued : world.issued = 0) (hissued' : world'.issued = 0)
    (halike : AlikeOn group world.cache world'.cache) :
    let work := lowerRecipe (ownSetting packages owner depth chain) statements world
    let work' := lowerRecipe (ownSetting packages owner depth chain) statements world'
    work.scope = work'.scope ∧ AlikeOn group work.world.cache work'.world.cache := by
  intro work work'
  have hend := bringAll_congr h halike
  have hcache : work.world.cache = _ := cache_own packages owner depth chain statements world
  have hcache' : work'.world.cache = _ := cache_own packages owner depth chain statements world'
  rw [hcache, hcache']
  exact ⟨(own_alike hissued hissued' fun location hin => (h location hin _ _ hend).1).1, hend⟩

/-- What comes of a package depends on the cache only as far as the package leads. -/
theorem loadOwn_congr (hcovered : Covered packages group location) :
    Congruent packages depth chain group location := by
  induction depth generalizing location chain with
  | zero => exact fun _ _ halike => ⟨rfl, halike⟩
  | succ depth ih =>
    intro cache cache' halike
    unfold bring
    by_cases hclear : (Library.ofStored packages).Untangled location
    · rw [loadOwn_untangled hclear, loadOwn_untangled hclear]
      exact ⟨rfl, halike⟩
    · rw [loadOwn_tangled hclear, loadOwn_tangled hclear]
      cases hrefusal : refusal? location chain with
      | some fault => exact ⟨rfl, halike⟩
      | none =>
        obtain ⟨-, hextension⟩ := package_of_not_refused hrefusal
        have hsame := halike location (hcovered location .refl hclear)
        dsimp only
        cases hfound : cache.get? location with
        | some entry =>
          have hfound' := hsame.symm.trans hfound
          cases entry with
          | loading =>
            rw [remember_loading hfound, remember_loading hfound']
            exact ⟨rfl, halike⟩
          | loaded result =>
            rw [remember_loaded hfound, remember_loaded hfound']
            exact ⟨rfl, halike⟩
        | none =>
          have hfound' := hsame.symm.trans hfound
          cases hfetch : (Library.ofStored packages).fetch location with
          | error fault =>
            rw [remember_unfetched hfound hfetch, remember_unfetched hfound' hfetch]
            exact ⟨rfl, (halike.insert location rfl).insert location rfl⟩
          | ok text =>
            rw [remember_compiled hfound hfetch, remember_compiled hfound' hfetch]
            have hinside : ∀ asked ∈
                Node.locationsOfAll (Recipe.ofText text location).recipe.statements,
                Congruent packages depth (location :: chain) group asked := by
              intro asked hasked
              rw [← Library.asks_eq hextension hfetch] at hasked
              exact ih fun other hleads =>
                hcovered other ((Relation.ReflTransGen.single hasked).trans hleads)
            obtain ⟨hscope, hend⟩ := text_congr (.package location)
              (beginLoading location { cache := cache })
              (beginLoading location { cache := cache' })
              hinside rfl rfl (halike.insert location rfl)
            exact ⟨congrArg Except.ok hscope,
              hend.insert location (congrArg (fun scope => Entry.loaded (.ok scope)) hscope)⟩

theorem bringAll_filter (keep : String → Bool)
    (hkept : ∀ location ∈ locations, keep location = true → Covered packages group location)
    (hleft : ∀ location ∈ locations, keep location = false →
      ∀ other, (Library.ofStored packages).Leads location other → ¬ group other)
    (halike : AlikeOn group cache cache') :
    AlikeOn group (bringAll packages depth chain cache locations)
      (bringAll packages depth chain cache' (locations.filter keep)) := by
  induction locations generalizing cache cache' with
  | nil => exact halike
  | cons location rest ih =>
    obtain ⟨hkept, hkeptRest⟩ := List.forall_mem_cons.mp hkept
    obtain ⟨hleft, hleftRest⟩ := List.forall_mem_cons.mp hleft
    cases hkeep : keep location with
    | true =>
      rw [List.filter_cons_of_pos hkeep]
      exact ih hkeptRest hleftRest (loadOwn_congr (hkept hkeep) cache cache' halike).2
    | false =>
      rw [List.filter_cons_of_neg (by rw [hkeep]; exact Bool.false_ne_true)]
      refine ih hkeptRest hleftRest fun other hother => .trans ?_ (halike other hother)
      exact loadOwn_elsewhere fun hleads => hleft hkeep other hleads hother

end Groups

open Classical in
/-- The tangled ones among some packages, each where it comes first. -/
noncomputable def tangled (packages : OrderedMap Stored) (locations : List String) : List String :=
  (locations.filter fun location => ¬ (Library.ofStored packages).Untangled location).eraseDups

/-- The tangled packages of one list and of another one, in order, as far as both go. -/
def InOrder (packages : OrderedMap Stored) (asked before : List String) : Prop :=
  tangled packages asked <+: tangled packages before ∨
    tangled packages before <+: tangled packages asked

theorem InOrder.refl (packages : OrderedMap Stored) (locations : List String) :
    InOrder packages locations locations :=
  .inl (List.prefix_refl _)

section Order

variable {packages : OrderedMap Stored} {depth : Nat} {chain : List String} {location : String}
  {asked before : List String}

theorem bring_settled {cache whole : OrderedMap Entry}
    (h : Part (bring packages (depth + 1) chain cache location) whole) :
    bring packages (depth + 1) chain whole location = whole := by
  refine bring_again fun htangled hrefusal => ?_
  have hpresent : (bring packages (depth + 1) chain cache location).get? location ≠ none :=
    loadOwn_absent htangled hrefusal
  exact h location hpresent ▸ hpresent

/-- What was asked for once need not be asked for again. -/
theorem bringAll_settled {cache whole : OrderedMap Entry}
    (h : Part (bring packages (depth + 1) chain cache location) whole) (locations : List String) :
    bringAll packages (depth + 1) chain whole (locations.filter fun other => !other == location) =
      bringAll packages (depth + 1) chain whole locations := by
  induction locations generalizing whole with
  | nil => rfl
  | cons first rest ih =>
    by_cases hsame : first = location
    · rw [List.filter_cons_of_neg (by simpa using hsame), ih h, hsame]
      exact congrArg (bringAll packages (depth + 1) chain · rest) (bring_settled h).symm
    · rw [List.filter_cons_of_pos (by simpa using hsame)]
      exact ih (h.trans (loadOwn_part packages (depth + 1) first chain { cache := whole }))

theorem bringAll_eraseDups (packages : OrderedMap Stored) (depth : Nat) (chain : List String) :
    ∀ (cache : OrderedMap Entry) (locations : List String),
      bringAll packages (depth + 1) chain cache locations.eraseDups =
        bringAll packages (depth + 1) chain cache locations
  | _, [] => by rw [List.eraseDups_nil]
  | cache, location :: rest => by
      have hle := List.length_filter_le (fun other => !other == location) rest
      rw [List.eraseDups_cons]
      exact (bringAll_eraseDups packages depth chain _ _).trans
        (bringAll_settled (.refl _) rest)
termination_by _ locations => locations.length
decreasing_by simp only [List.length_cons]; omega

theorem bringAll_tangled (packages : OrderedMap Stored) (depth : Nat) (chain : List String)
    (cache : OrderedMap Entry) (locations : List String) :
    bringAll packages (depth + 1) chain cache (tangled packages locations) =
      bringAll packages (depth + 1) chain cache locations := by
  unfold tangled
  rw [bringAll_eraseDups]
  induction locations generalizing cache with
  | nil => rfl
  | cons location rest ih =>
    by_cases hclear : (Library.ofStored packages).Untangled location
    · rw [List.filter_cons_of_neg (by simpa using hclear), ih]
      exact congrArg (bringAll packages (depth + 1) chain · rest)
        (bring_again fun htangled => absurd hclear htangled).symm
    · rw [List.filter_cons_of_pos (by simpa using hclear)]
      exact ih _

theorem get?_bringAll_inOrder (h : InOrder packages asked before)
    (htangled : ¬ (Library.ofStored packages).Untangled location)
    (hrefusal : refusal? location chain = none) (hin : location ∈ asked) :
    (bringAll packages (depth + 1) chain (bringAll packages (depth + 1) chain {} before)
        asked).get? location =
      (bringAll packages (depth + 1) chain {} asked).get? location := by
  rcases h with ⟨rest, hrest⟩ | ⟨rest, hrest⟩
  · have hpresent : (bringAll packages (depth + 1) chain {} asked).get? location ≠ none :=
      bringAll_present htangled hrefusal hin
    have hpart : Part (bringAll packages (depth + 1) chain {} asked)
        (bringAll packages (depth + 1) chain (bringAll packages (depth + 1) chain {} before)
          asked) := by
      refine Part.trans ?_ (bringAll_part packages (depth + 1) chain _ asked)
      rw [← bringAll_tangled packages depth chain {} before, ← hrest, bringAll_append,
        bringAll_tangled packages depth chain {} asked]
      exact bringAll_part packages (depth + 1) chain _ rest
    exact (hpart location hpresent).symm
  · rw [← bringAll_tangled packages depth chain _ asked,
      ← bringAll_tangled packages depth chain {} asked,
      ← bringAll_tangled packages depth chain {} before, ← hrest, bringAll_append, bringAll_append,
      bringAll_again]

/-- The packages can be sorted so that those of different sorts lead to no tangled package in
common. -/
def Sorted (packages : OrderedMap Stored) (sort : String → Nat) (locations : List String) : Prop :=
  ∀ first ∈ locations, ∀ second ∈ locations, sort first ≠ sort second →
    ∀ other, (Library.ofStored packages).Leads first other →
      (Library.ofStored packages).Leads second other → (Library.ofStored packages).Untangled other

/-- What was asked for before makes no difference, if of each sort it was asked for in the same
order as far as both go. -/
theorem get?_bringAll_sorted {sort : String → Nat}
    (hsorted : Sorted packages sort (asked ++ before))
    (horder : ∀ n, InOrder packages (asked.filter (sort · = n)) (before.filter (sort · = n)))
    (htangled : ¬ (Library.ofStored packages).Untangled location)
    (hrefusal : refusal? location chain = none) (hin : location ∈ asked) :
    (bringAll packages (depth + 1) chain (bringAll packages (depth + 1) chain {} before)
        asked).get? location =
      (bringAll packages (depth + 1) chain {} asked).get? location := by
  let group := fun other => ¬ (Library.ofStored packages).Untangled other ∧
    ∃ first ∈ asked ++ before, sort first = sort location ∧
      (Library.ofStored packages).Leads first other
  have hkept : ∀ first ∈ asked ++ before, decide (sort first = sort location) = true →
      Covered packages group first :=
    fun first hfirst hsame other hleads htangled =>
      ⟨htangled, first, hfirst, of_decide_eq_true hsame, hleads⟩
  have hleft : ∀ first ∈ asked ++ before, decide (sort first = sort location) = false →
      ∀ other, (Library.ofStored packages).Leads first other → ¬ group other := by
    rintro first hfirst hother other hleads ⟨htangled, second, hsecond, hsame, hleads'⟩
    have hne : sort first ≠ sort second := by
      rw [hsame]
      exact of_decide_eq_false hother
    exact htangled (hsorted first hfirst second hsecond hne other hleads hleads')
  have hfilter : ∀ locations, (∀ first ∈ locations, first ∈ asked ++ before) →
      ∀ {cache cache'}, AlikeOn group cache cache' →
        AlikeOn group (bringAll packages (depth + 1) chain cache locations)
          (bringAll packages (depth + 1) chain cache'
            (locations.filter (sort · = sort location))) :=
    fun locations hsub _ _ => bringAll_filter _
      (fun first hfirst => hkept first (hsub first hfirst))
      (fun first hfirst => hleft first (hsub first hfirst))
  have hgroup : group location := ⟨htangled, location, List.mem_append_left _ hin, rfl, .refl⟩
  have hasked : ∀ first ∈ asked, first ∈ asked ++ before := fun _ => List.mem_append_left _
  have hbefore : ∀ first ∈ before, first ∈ asked ++ before := fun _ => List.mem_append_right _
  have hused := hfilter asked hasked (hfilter before hbefore (.refl group {})) location hgroup
  have hfresh := hfilter asked hasked (.refl group {}) location hgroup
  have hkeep : location ∈ asked.filter (sort · = sort location) :=
    List.mem_filter.mpr ⟨hin, decide_eq_true rfl⟩
  rw [hused, hfresh]
  exact get?_bringAll_inOrder (horder (sort location)) htangled hrefusal hkeep

/-- So a text gives the same then. -/
theorem own_sorted {owner : Owner} {statements : List Node} {sort : String → Nat}
    (hsorted : Sorted packages sort (Node.locationsOfAll statements ++ before))
    (horder : ∀ n, InOrder packages
      ((Node.locationsOfAll statements).filter (sort · = n)) (before.filter (sort · = n))) :
    let work := lowerRecipe (ownSetting packages owner (depth + 1) chain) statements
      { cache := bringAll packages (depth + 1) chain {} before }
    let work' := lowerRecipe (ownSetting packages owner (depth + 1) chain) statements {}
    work.scope = work'.scope ∧ work.diagnostics = work'.diagnostics := by
  refine own_alike rfl rfl fun location hin => (loadOwn_foreseen fun htangled hrefusal _ => ?_)
  have hpresent : (bringAll packages (depth + 1) chain {}
      (Node.locationsOfAll statements)).get? location ≠ none :=
    bringAll_present htangled hrefusal hin
  rw [loadOwn_present hpresent]
  exact (get?_bringAll_sorted hsorted horder htangled hrefusal hin).symm

end Order

end RecipeGraph.Compile
