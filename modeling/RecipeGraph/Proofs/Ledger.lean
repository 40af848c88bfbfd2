import RecipeGraph.Proofs.Bonds
import RecipeGraph.Proofs.Renumbering
import Mathlib.Data.Nat.Pairing

/-!
Who the ids were given out for. A ledger has for every number its owner, which is a package or
the text at hand, and the place among the owner's own. So it tells what the ids would be if each
package had a supply of its own, however the packages came in. It is only ever written on, at the
numbers that come next.
-/
namespace RecipeGraph.Compile

open RecipeGraph.Graph Recipe Package

inductive Owner
  /-- Of what nobody will ask after. -/
  | nobody
  /-- The text that is compiled. -/
  | text
  | package (location : String)

def Owner.code : Owner → Nat
  | nobody => 0
  | text => 1
  | package location => textCode location + 2

theorem Owner.code_injective : Function.Injective Owner.code := by
  intro first second heq
  cases first <;> cases second <;> simp only [code] at heq <;> first | rfl | skip
  case package.package location other =>
    rw [textCode_injective (Nat.add_right_cancel heq)]
  all_goals omega

/-- The ids that an owner has in a supply of its own, one for each place. -/
def ownId (entry : Owner × Nat) : String :=
  tally (2 * Nat.pair entry.1.code entry.2)

/-- What stands for a text that is no id. -/
def spareId (text : String) : String :=
  if text = "" then "" else tally (2 * textCode text + 1)

theorem ownId_injective : Function.Injective ownId := by
  rintro ⟨owner, place⟩ ⟨owner', place'⟩ heq
  have hdouble := tally_injective heq
  obtain ⟨hcode, hplace⟩ := Nat.pair_eq_pair.mp (Nat.eq_of_mul_eq_mul_left Nat.two_pos hdouble)
  exact Prod.ext (Owner.code_injective hcode) hplace

theorem ownId_ne_empty (entry : Owner × Nat) : ownId entry ≠ "" :=
  tally_ne_empty _

theorem spareId_injective : Function.Injective spareId := by
  intro first second heq
  unfold spareId at heq
  split_ifs at heq with hfirst hsecond hsecond
  · rw [hfirst, hsecond]
  · exact absurd heq.symm (tally_ne_empty _)
  · exact absurd heq (tally_ne_empty _)
  · have hcode := tally_injective heq
    exact textCode_injective (by omega)

theorem ownId_ne_spareId (entry : Owner × Nat) (text : String) : ownId entry ≠ spareId text := by
  intro heq
  unfold ownId spareId at heq
  split_ifs at heq
  · exact tally_ne_empty _ heq
  · have hnumber := tally_injective heq
    omega

abbrev Ledger := Nat → Owner × Nat

namespace Ledger

/-- Every id becomes the one that it would be in the owner's own supply. -/
noncomputable def rename (ledger : Ledger) (idOf : Nat → String) : String → String :=
  Function.extend idOf (ownId ∘ ledger) spareId

section Rename

variable {idOf : Nat → String} {ledger : Ledger}

theorem rename_idOf (hinj : Function.Injective idOf) (n : Nat) :
    ledger.rename idOf (idOf n) = ownId (ledger n) :=
  hinj.extend_apply _ _ n

theorem rename_other {id : String} (h : ∀ n, idOf n ≠ id) : ledger.rename idOf id = spareId id :=
  Function.extend_apply' _ _ _ fun ⟨n, hn⟩ => h n hn

theorem rename_empty (hgiven : ∀ n, idOf n ≠ "") : ledger.rename idOf "" = "" :=
  rename_other hgiven

theorem rename_injective (hinj : Function.Injective idOf) (h : Function.Injective ledger) :
    Function.Injective (ledger.rename idOf) := by
  intro first second heq
  rcases idOf_or idOf first with ⟨m, rfl⟩ | hfirst <;>
    rcases idOf_or idOf second with ⟨n, rfl⟩ | hsecond
  · rw [rename_idOf hinj, rename_idOf hinj] at heq
    rw [h (ownId_injective heq)]
  · rw [rename_idOf hinj, rename_other hsecond] at heq
    exact absurd heq (ownId_ne_spareId _ _)
  · rw [rename_other hfirst, rename_idOf hinj] at heq
    exact absurd heq.symm (ownId_ne_spareId _ _)
  · rw [rename_other hfirst, rename_other hsecond] at heq
    exact spareId_injective heq

end Rename

/-- The ledger with as many numbers as counted, from the start on, written to one owner. -/
def assign (ledger : Ledger) (owner : Owner) (start place count : Nat) : Ledger := fun n =>
  if start ≤ n ∧ n < start + count then (owner, place + (n - start)) else ledger n

section Assign

variable {ledger : Ledger} {owner other : Owner} {start place count n j : Nat}

theorem assign_of_lt (hn : n < start) : ledger.assign owner start place count n = ledger n :=
  if_neg fun h => Nat.not_le_of_lt hn h.1

theorem assign_of_le (hn : start + count ≤ n) :
    ledger.assign owner start place count n = ledger n :=
  if_neg fun h => Nat.not_le_of_lt h.2 hn

theorem assign_at (hn : n < count) :
    ledger.assign owner start place count (start + n) = (owner, place + n) := by
  unfold assign
  rw [if_pos (by omega), Nat.add_sub_cancel_left]

theorem assign_other (hother : other ≠ owner)
    (h : ledger.assign owner start place count n = (other, j)) : ledger n = (other, j) := by
  unfold assign at h
  split at h
  · exact absurd (congrArg Prod.fst h).symm hother
  · exact h

variable (hplaces : ∀ n j, ledger n = (owner, j) → j < place)

include hplaces

theorem assign_places (h : ledger.assign owner start place count n = (owner, j)) :
    j < place + count := by
  unfold assign at h
  split at h
  · have hplace : place + (n - start) = j := congrArg Prod.snd h
    omega
  · have hplace := hplaces n j h
    omega

theorem assign_injective (hinj : Function.Injective ledger) :
    Function.Injective (ledger.assign owner start place count) := by
  intro m n heq
  unfold assign at heq
  split_ifs at heq with hm hn hn
  · have hplace : place + (m - start) = place + (n - start) := congrArg Prod.snd heq
    omega
  · have hplace := hplaces n _ heq.symm
    omega
  · have hplace := hplaces m _ heq
    omega
  · exact hinj heq

end Assign

section Kept

variable {idOf : Nat → String} {ledger ledger' : Ledger} {issued : Nat}

/-- Ledgers that agree on the numbers given out are as good as each other. -/
theorem rename_kept_id (hinj : Function.Injective idOf)
    (hkept : ∀ n < issued, ledger' n = ledger n) {id : String} (hid : Since idOf 0 issued id) :
    ledger'.rename idOf id = ledger.rename idOf id := by
  obtain ⟨n, -, hn, rfl⟩ := hid
  rw [rename_idOf hinj, rename_idOf hinj, hkept n hn]

theorem rename_kept (hinj : Function.Injective idOf) (hkept : ∀ n < issued, ledger' n = ledger n)
    {scope : Scope} (hwithin : scope.Within (Since idOf 0 issued)) :
    scope.rename (ledger'.rename idOf) = scope.rename (ledger.rename idOf) :=
  (hwithin.mono fun _ hid => rename_kept_id hinj hkept hid).rename_congr

theorem rename_all_kept (hinj : Function.Injective idOf)
    (hkept : ∀ n < issued, ledger' n = ledger n) {scopes : List Scope}
    (hwithin : ∀ scope ∈ scopes, scope.Within (Since idOf 0 issued)) :
    scopes.map (Scope.rename (ledger'.rename idOf)) =
      scopes.map (Scope.rename (ledger.rename idOf)) :=
  List.map_congr_left fun scope hscope => rename_kept hinj hkept (hwithin scope hscope)

end Kept

end Ledger

/-- One result is the other one if the ids are read by the ledger. -/
structure Reads (idOf : Nat → String) (ledger : Ledger) (issued : Nat)
    (result result' : Except Fault Scope) : Prop where
  same : result.map (Scope.rename (ledger.rename idOf)) = result'
  within : ∀ package, result = .ok package → package.Within (Since idOf 0 issued)

/-- One cache has for a location what the other one has. -/
inductive ReadsEntry (idOf : Nat → String) (ledger : Ledger) (issued : Nat) :
    Option Entry → Option Entry → Prop
  | none : ReadsEntry idOf ledger issued none none
  | loading : ReadsEntry idOf ledger issued (some .loading) (some .loading)
  | loaded {result result' : Except Fault Scope} (h : Reads idOf ledger issued result result') :
      ReadsEntry idOf ledger issued (some (.loaded result)) (some (.loaded result'))

section Reads

variable {idOf : Nat → String} {ledger ledger' : Ledger} {issued later : Nat}

theorem reads_error (idOf : Nat → String) (ledger : Ledger) (issued : Nat) (fault : Fault) :
    Reads idOf ledger issued (.error fault) (.error fault) :=
  ⟨rfl, fun _ hok => nomatch hok⟩

variable (hinj : Function.Injective idOf) (hle : issued ≤ later)
  (hkept : ∀ n < issued, ledger' n = ledger n)

include hinj hle hkept

theorem Reads.kept {result result' : Except Fault Scope}
    (h : Reads idOf ledger issued result result') : Reads idOf ledger' later result result' := by
  constructor
  case same =>
    rw [← h.same]
    cases result with
    | error fault => rfl
    | ok package => exact congrArg Except.ok (Ledger.rename_kept hinj hkept (h.within package rfl))
  case within =>
    intro package hpackage
    exact (h.within package hpackage).mono fun _ hid => hid.mono hle

theorem ReadsEntry.kept {entry entry' : Option Entry}
    (h : ReadsEntry idOf ledger issued entry entry') :
    ReadsEntry idOf ledger' later entry entry' := by
  cases h with
  | none => exact .none
  | loading => exact .loading
  | loaded h => exact .loaded (h.kept hinj hle hkept)

end Reads

/-- A ledger is up to date: all numbers given out are in it, and all packages that mean something
definite are in the cache as they are meant. Those inside the chain are still in the making. -/
structure UpToDate (idOf : Nat → String) (mean : String → Except Fault Scope)
    (definite : String → Prop) (chain : List String) (ledger : Ledger) (world : World) : Prop where
  injective : Function.Injective ledger
  unused : ∀ n, world.issued ≤ n → ledger n = (.nobody, n)
  cached : ∀ n location j, ledger n = (.package location, j) → world.cache.get? location ≠ none
  loading : ∀ location, world.cache.get? location = some .loading → location ∈ chain
  meant : ∀ location result, definite location →
    world.cache.get? location = some (.loaded result) →
    Reads idOf ledger world.issued result (mean location)

/-- Who may own numbers in a world: the text, and the packages asked for so far. -/
inductive Present (world : World) : Owner → Prop
  | text : Present world .text
  | package {location : String} (h : world.cache.get? location ≠ none) :
      Present world (.package location)

/-- The ledger was written on while the world went on, and nothing was written to those present,
the owner apart. -/
structure Extends (owner : Owner) (ledger ledger' : Ledger) (world after : World) : Prop where
  issued : world.issued ≤ after.issued
  kept : ∀ n < world.issued, ledger' n = ledger n
  cached : ∀ location, world.cache.get? location ≠ none → after.cache.get? location ≠ none
  others : ∀ other, Present world other → other ≠ owner →
    ∀ n j, ledger' n = (other, j) → ledger n = (other, j)

section Extends

variable {owner : Owner} {first second third : Ledger} {world middle after : World}

theorem Present.mono {other : Owner} (h : Present world other)
    (hcached : ∀ location, world.cache.get? location ≠ none → after.cache.get? location ≠ none) :
    Present after other := by
  cases h with
  | text => exact .text
  | package hfound => exact .package (hcached _ hfound)

theorem Extends.same (owner : Owner) (ledger : Ledger) (hissued : world.issued ≤ after.issued)
    (hcached : ∀ location, world.cache.get? location ≠ none →
      after.cache.get? location ≠ none) : Extends owner ledger ledger world after :=
  ⟨hissued, fun _ _ => rfl, hcached, fun _ _ _ _ _ h => h⟩

theorem Extends.refl (owner : Owner) (ledger : Ledger) (world : World) :
    Extends owner ledger ledger world world :=
  .same owner ledger (Nat.le_refl _) fun _ h => h

theorem cached_record {location other : String} {entry : Entry}
    (h : world.cache.get? other ≠ none) :
    (world.record location entry).cache.get? other ≠ none := by
  unfold World.record
  by_cases hsame : location = other
  · subst hsame
    rw [OrderedMap.get?_insert_self]
    exact Option.some_ne_none entry
  · rw [OrderedMap.get?_insert_of_ne _ _ hsame]
    exact h

theorem present_record (world : World) (location : String) (entry : Entry) :
    Present (world.record location entry) (.package location) := by
  refine .package ?_
  unfold World.record
  rw [OrderedMap.get?_insert_self]
  exact Option.some_ne_none _

theorem not_present_of_none {location : String} (h : world.cache.get? location = none) :
    ¬ Present world (.package location) := by
  rintro ⟨⟩
  contradiction

theorem Extends.trans (h : Extends owner first second world middle)
    (h' : Extends owner second third middle after) :
    Extends owner first third world after where
  issued := Nat.le_trans h.issued h'.issued
  kept n hn := (h'.kept n (Nat.lt_of_lt_of_le hn h.issued)).trans (h.kept n hn)
  cached location hfound := h'.cached location (h.cached location hfound)
  others other hpresent hother n j hentry :=
    h.others other hpresent hother n j
      (h'.others other (hpresent.mono h.cached) hother n j hentry)

/-- What was written to someone who had not been there was written to no one present. -/
theorem Extends.absent (h : Extends owner first second middle after)
    (hbefore : Extends .nobody first first world middle) (habsent : ¬ Present world owner) :
    Extends .nobody first second world after where
  issued := Nat.le_trans hbefore.issued h.issued
  kept n hn := h.kept n (Nat.lt_of_lt_of_le hn hbefore.issued)
  cached location hfound := h.cached location (hbefore.cached location hfound)
  others other hpresent _ := by
    refine h.others other (hpresent.mono hbefore.cached) ?_
    rintro rfl
    exact habsent hpresent

/-- What was written to nobody in particular was written to no one present. -/
theorem Extends.weaken (h : Extends .nobody first second world after) (owner : Owner) :
    Extends owner first second world after where
  issued := h.issued
  kept := h.kept
  cached := h.cached
  others other hpresent _ := h.others other hpresent (by rintro rfl; cases hpresent)

end Extends

section UpToDate

variable {idOf : Nat → String} {mean : String → Except Fault Scope} {definite : String → Prop}
  {chain : List String} {ledger ledger' : Ledger} {world after : World}

/-- With an empty cache there is nothing that anyone would ask after. -/
theorem upToDate_clear (idOf : Nat → String) (mean : String → Except Fault Scope)
    (definite : String → Prop) (chain : List String) (world : World) :
    UpToDate idOf mean definite chain (fun n => (.nobody, n)) world.clear where
  injective _ _ heq := congrArg Prod.snd heq
  unused _ _ := rfl
  cached _ _ _ heq := nomatch heq
  loading _ hnone := nomatch hnone
  meant _ _ _ hnone := nomatch hnone

/-- Numbers that are given out to nobody need not be written down. -/
theorem UpToDate.issue (hinj : Function.Injective idOf)
    (h : UpToDate idOf mean definite chain ledger world) (hissued : world.issued ≤ after.issued)
    (hcache : after.cache = world.cache) : UpToDate idOf mean definite chain ledger after where
  injective := h.injective
  unused n hn := h.unused n (Nat.le_trans hissued hn)
  cached := by
    rw [hcache]
    exact h.cached
  loading := by
    rw [hcache]
    exact h.loading
  meant := by
    rw [hcache]
    exact fun location result hdefinite hfound =>
      (h.meant location result hdefinite hfound).kept hinj hissued fun _ _ => rfl

/-- The numbers that are given out next are written to an owner who is present. -/
theorem UpToDate.assign (hinj : Function.Injective idOf)
    (h : UpToDate idOf mean definite chain ledger world) {owner : Owner}
    (hpresent : Present world owner) {place count : Nat}
    (hplaces : ∀ n j, ledger n = (owner, j) → j < place)
    (hissued : after.issued = world.issued + count) (hcache : after.cache = world.cache) :
    UpToDate idOf mean definite chain (ledger.assign owner world.issued place count) after ∧
      Extends owner ledger (ledger.assign owner world.issued place count) world after := by
  have hle : world.issued ≤ after.issued := hissued ▸ Nat.le_add_right _ _
  refine ⟨⟨Ledger.assign_injective hplaces h.injective, ?_, ?_, ?_, ?_⟩, ⟨hle, ?_, ?_, ?_⟩⟩
  · intro n hn
    rw [hissued] at hn
    rw [Ledger.assign_of_le hn]
    exact h.unused n (Nat.le_trans (Nat.le_add_right _ _) hn)
  · intro n location j hentry
    rw [hcache]
    by_cases howner : Owner.package location = owner
    · subst howner
      cases hpresent with
      | package hfound => exact hfound
    · exact h.cached n location j (Ledger.assign_other howner hentry)
  · rw [hcache]
    exact h.loading
  · rw [hcache]
    exact fun location result hdefinite hfound =>
      (h.meant location result hdefinite hfound).kept hinj hle fun _ => Ledger.assign_of_lt
  · exact fun _ => Ledger.assign_of_lt
  · rw [hcache]
    exact fun _ hfound => hfound
  · exact fun other _ hother n j => Ledger.assign_other hother

section Record

variable {location : String}

theorem UpToDate.open (h : UpToDate idOf mean definite chain ledger world) :
    UpToDate idOf mean definite (location :: chain) ledger (world.record location .loading) where
  injective := h.injective
  unused := h.unused
  cached n other j hentry := cached_record (h.cached n other j hentry)
  loading other hloading := by
    by_cases hsame : location = other
    · exact hsame ▸ List.mem_cons_self
    · unfold World.record at hloading
      rw [OrderedMap.get?_insert_of_ne _ _ hsame] at hloading
      exact List.mem_cons_of_mem _ (h.loading other hloading)
  meant other result hdefinite hloaded := by
    unfold World.record at hloaded
    by_cases hsame : location = other
    · subst hsame
      rw [OrderedMap.get?_insert_self] at hloaded
      cases hloaded
    · rw [OrderedMap.get?_insert_of_ne _ _ hsame] at hloaded
      exact h.meant other result hdefinite hloaded

/-- A package that was in the making is finished. -/
theorem UpToDate.close (h : UpToDate idOf mean definite (location :: chain) ledger world)
    {result : Except Fault Scope}
    (hresult : definite location → Reads idOf ledger world.issued result (mean location)) :
    UpToDate idOf mean definite chain ledger (world.record location (.loaded result)) where
  injective := h.injective
  unused := h.unused
  cached n other j hentry := cached_record (h.cached n other j hentry)
  loading other hloading := by
    unfold World.record at hloading
    by_cases hsame : location = other
    · subst hsame
      rw [OrderedMap.get?_insert_self] at hloading
      cases hloading
    · rw [OrderedMap.get?_insert_of_ne _ _ hsame] at hloading
      rcases List.mem_cons.mp (h.loading other hloading) with heq | hin
      · exact absurd heq.symm hsame
      · exact hin
  meant other found hdefinite hloaded := by
    unfold World.record at hloaded
    by_cases hsame : location = other
    · subst hsame
      rw [OrderedMap.get?_insert_self] at hloaded
      cases hloaded
      exact hresult hdefinite
    · rw [OrderedMap.get?_insert_of_ne _ _ hsame] at hloaded
      exact h.meant other found hdefinite hloaded

end Record

end UpToDate

end RecipeGraph.Compile
