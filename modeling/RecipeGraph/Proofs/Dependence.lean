import RecipeGraph.Compile.Load
import RecipeGraph.Proofs.Maps
import RecipeGraph.Recipe.Packages
import Mathlib.Data.Finset.Card
import Mathlib.Data.Finset.Filter
import Mathlib.Logic.Relation

/-!
Which packages come in with which. A package may ask for itself, which is refused and does no
harm. Packages that ask for one another in a circle are tangled: what comes of one of them depends
on which of them is asked for first. Among packages in memory, those that are not tangled can be
put in an order.
-/
namespace RecipeGraph.Package

open Recipe

/-- What the text of a package asks for. What is no package has no text. -/
def Library.asks (library : Library) (location : String) : List String :=
  match location.endsWith fileExtension, library.fetch location with
  | true, .ok text => Node.locationsOfAll (Recipe.ofText text location).recipe.statements
  | _, _ => []

/-- A package leads to those it asks for, and on to those that they ask for. -/
def Library.Leads (library : Library) : String → String → Prop :=
  Relation.ReflTransGen fun location asked => asked ∈ library.asks location

/-- No package that this one leads to comes back to itself by way of another one. -/
def Library.Untangled (library : Library) (location : String) : Prop :=
  ∀ first, library.Leads location first →
    ∀ second, library.Leads first second → library.Leads second first → second = first

/-- Whoever asks for some packages needs all that come in with them. -/
def Library.Needs (library : Library) (locations : List String) (location : String) : Prop :=
  ∃ asked ∈ locations, library.Leads asked location

section Leads

variable {library : Library} {location asked text : String}

theorem Library.asks_eq (hextension : location.endsWith fileExtension = true)
    (hfetch : library.fetch location = .ok text) :
    library.asks location =
      Node.locationsOfAll (Recipe.ofText text location).recipe.statements := by
  unfold Library.asks
  rw [hextension, hfetch]

theorem Library.Untangled.of_leads (h : library.Untangled location)
    (hleads : library.Leads location asked) : library.Untangled asked :=
  fun first hfirst => h first (hleads.trans hfirst)

theorem Library.Untangled.only_itself (h : library.Untangled location)
    (hasked : library.Leads location asked) (hback : library.Leads asked location) :
    asked = location :=
  h location .refl asked hasked hback

/-- A package that asks for nothing but itself is not tangled. -/
theorem untangled_of_only_itself (h : ∀ asked ∈ library.asks location, asked = location) :
    library.Untangled location := by
  have hleads : ∀ {other}, library.Leads location other → other = location := by
    intro other hother
    induction hother with
    | refl => rfl
    | tail _ hasked ih =>
      subst ih
      exact h _ hasked
  intro first hfirst second hsecond _
  rw [hleads hfirst] at hsecond ⊢
  exact hleads hsecond

end Leads

section Stored

variable {packages : OrderedMap Stored} {location asked text : String}

theorem mem_keys_of_fetch (hfetch : (Library.ofStored packages).fetch location = .ok text) :
    location ∈ packages.keys := by
  unfold Library.ofStored at hfetch
  dsimp only at hfetch
  cases hfound : packages.get? location with
  | none =>
    rw [hfound] at hfetch
    cases hfetch
  | some stored => exact OrderedMap.mem_keys.mpr ⟨stored, OrderedMap.mem_of_get? hfound⟩

theorem mem_keys_of_asked (h : asked ∈ (Library.ofStored packages).asks location) :
    location ∈ packages.keys := by
  unfold Library.asks at h
  split at h
  · rename_i hfetch
    exact mem_keys_of_fetch hfetch
  · cases h

/-- Packages one inside another are no more than there are. -/
theorem length_le_size {chain : List String} (hnodup : chain.Nodup)
    (hstored : ∀ location ∈ chain, location ∈ packages.keys) : chain.length ≤ packages.size := by
  have hle := (List.subperm_of_subset hnodup hstored).length_le
  unfold OrderedMap.keys at hle
  rwa [List.length_map] at hle

open Classical in
/-- The packages in memory that one leads to. -/
noncomputable def reach (packages : OrderedMap Stored) (location : String) : Finset String :=
  packages.keys.toFinset.filter ((Library.ofStored packages).Leads location)

open Classical in
theorem mem_reach : asked ∈ reach packages location ↔
    asked ∈ packages.keys ∧ (Library.ofStored packages).Leads location asked := by
  unfold reach
  rw [Finset.mem_filter, List.mem_toFinset]

noncomputable def rank (packages : OrderedMap Stored) (location : String) : Nat :=
  (reach packages location).card

theorem rank_lt (h : (Library.ofStored packages).Untangled location)
    (hasked : asked ∈ (Library.ofStored packages).asks location) (hother : asked ≠ location) :
    rank packages asked < rank packages location := by
  have hleads : (Library.ofStored packages).Leads location asked := .single hasked
  refine Finset.card_lt_card (Finset.ssubset_iff_of_subset ?_ |>.mpr ?_)
  · intro further hfurther
    obtain ⟨hstored, hon⟩ := mem_reach.mp hfurther
    exact mem_reach.mpr ⟨hstored, hleads.trans hon⟩
  · refine ⟨location, mem_reach.mpr ⟨mem_keys_of_asked hasked, .refl⟩, fun hback => ?_⟩
    exact hother (h.only_itself hleads (mem_reach.mp hback).2)

end Stored

end RecipeGraph.Package
