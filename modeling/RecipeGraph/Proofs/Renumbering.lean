import Mathlib.Logic.Encodable.Basic
import Mathlib.Logic.Equiv.List
import Mathlib.Logic.Function.Basic
import Mathlib.Tactic.SplitIfs

/-!
Ids under other numbers. Two compilations may give the ids of a package at different times, one
of them where the package stands and the other long before, and all other ids in the same order.
What the one numbers is moved to what the other does, without two ids becoming one.
-/
namespace RecipeGraph.Compile

/-- What is no id at all stays as it is. -/
noncomputable def renumber (idOf : Nat → String) (move : Nat → Nat) : String → String :=
  Function.extend idOf (idOf ∘ move) id

section Renumber

variable {idOf : Nat → String} {move : Nat → Nat}

theorem renumber_idOf (hinj : Function.Injective idOf) (n : Nat) :
    renumber idOf move (idOf n) = idOf (move n) :=
  hinj.extend_apply _ _ n

theorem renumber_other {id : String} (h : ∀ n, idOf n ≠ id) : renumber idOf move id = id :=
  Function.extend_apply' _ _ _ fun ⟨n, hn⟩ => h n hn

theorem idOf_or (idOf : Nat → String) (id : String) : (∃ n, idOf n = id) ∨ ∀ n, idOf n ≠ id :=
  (Classical.em _).imp_right not_exists.mp

theorem renumber_injective (hinj : Function.Injective idOf) (hmove : Function.Injective move) :
    Function.Injective (renumber idOf move) := by
  intro first second heq
  rcases idOf_or idOf first with ⟨m, rfl⟩ | hfirst
  · rw [renumber_idOf hinj] at heq
    rcases idOf_or idOf second with ⟨n, rfl⟩ | hsecond
    · rw [renumber_idOf hinj] at heq
      rw [hmove (hinj heq)]
    · rw [renumber_other hsecond] at heq
      exact absurd heq (hsecond _)
  · rw [renumber_other hfirst] at heq
    rcases idOf_or idOf second with ⟨n, rfl⟩ | hsecond
    · rw [renumber_idOf hinj] at heq
      exact absurd heq.symm (hfirst _)
    · rw [renumber_other hsecond] at heq
      exact heq

/-- A number that nothing is moved to is passed over. -/
theorem renumber_avoids (hinj : Function.Injective idOf) {number : Nat}
    (hmove : ∀ n, move n ≠ number) (id : String) : renumber idOf move id ≠ idOf number := by
  intro heq
  rcases idOf_or idOf id with ⟨n, rfl⟩ | hid
  · rw [renumber_idOf hinj] at heq
    exact hmove n (hinj heq)
  · rw [renumber_other hid] at heq
    exact hid number heq.symm

end Renumber

def textCode (text : String) : Nat :=
  Encodable.encode (text.toList.map Char.toNat)

theorem textCode_injective : Function.Injective textCode := by
  intro first second heq
  have hchars : Function.Injective Char.toNat := fun _ _ h => Char.toNat_inj.mp h
  exact String.toList_inj.mp (List.map_injective_iff.mpr hchars (Encodable.encode_injective heq))

open Classical in
/-- The id from one supply that reads as another id does from elsewhere. What reads like none of
those given out becomes one that was not. -/
noncomputable def exchange (idOf : Nat → String) (issued : Nat) (reading target : String → String)
    (id : String) : String :=
  if h : ∃ n < issued, target (idOf n) = reading id then idOf h.choose
  else idOf (issued + textCode id)

section Exchange

variable {idOf : Nat → String} {issued : Nat} {reading target : String → String}

theorem target_exchange {id : String} (h : ∃ n < issued, target (idOf n) = reading id) :
    target (exchange idOf issued reading target id) = reading id := by
  unfold exchange
  rw [dif_pos h]
  exact h.choose_spec.2

theorem exchange_injective (hinj : Function.Injective idOf)
    (hreading : Function.Injective reading) :
    Function.Injective (exchange idOf issued reading target) := by
  intro first second heq
  unfold exchange at heq
  split_ifs at heq with hfirst hsecond hsecond
  · refine hreading (hfirst.choose_spec.2.symm.trans ?_)
    rw [hinj heq]
    exact hsecond.choose_spec.2
  · have hnumber := hinj heq
    have hissued := hfirst.choose_spec.1
    omega
  · have hnumber := hinj heq
    have hissued := hsecond.choose_spec.1
    omega
  · have hnumber := hinj heq
    exact textCode_injective (by omega)

end Exchange

/-- The numbers from the base to the start stay. The ones that come next, as many as counted,
are those after the root, and all further ones go on with the next number up to the bound. What
is left over is out of the way. -/
def resettle (base start count root next bound n : Nat) : Nat :=
  if base ≤ n ∧ n < start then n
  else if start ≤ n ∧ n < start + count then root + 1 + (n - start)
  else if start + count ≤ n ∧ next + (n - (start + count)) < bound then
    next + (n - (start + count))
  else n + (start + root + 1 + count + next + bound)

section Resettle

variable {base start count root next bound n : Nat}

theorem resettle_below (hbase : base ≤ n) (hn : n < start) :
    resettle base start count root next bound n = n :=
  if_pos ⟨hbase, hn⟩

theorem resettle_counted (hn : n < count) :
    resettle base start count root next bound (start + n) = root + 1 + n := by
  unfold resettle
  rw [if_neg (by omega), if_pos (by omega)]
  omega

theorem resettle_further (hn : next + n < bound) :
    resettle base start count root next bound (start + count + n) = next + n := by
  unfold resettle
  rw [if_neg (by omega), if_neg (by omega), if_pos (by omega)]
  omega

/-- The counted numbers either lie where nothing else is, below the base, or they are made room
for at the start. -/
def Vacant (base start count root next : Nat) : Prop :=
  root + 1 + count ≤ base ∧ next = start ∨ root = start ∧ next = start + 1 + count

theorem resettle_injective (hbase : base ≤ start) (h : Vacant base start count root next) :
    Function.Injective (resettle base start count root next bound) := by
  intro m n heq
  unfold Vacant at h
  unfold resettle at heq
  split_ifs at heq <;> omega

theorem resettle_avoids (hbase : base ≤ start) (h : Vacant base start count root next) (n : Nat) :
    resettle base start count root next bound n ≠ root := by
  unfold Vacant at h
  unfold resettle
  split_ifs <;> omega

end Resettle

/-- Two sides that have given out the same ids from a base on, and others since. The ones that come
now belong together, up to the bound of the second side. -/
structure Matches (move : Nat → Nat) (base issued start start' bound : Nat) : Prop where
  injective : Function.Injective move
  kept : ∀ n, base ≤ n → n < issued → move n = n
  supply : ∀ n, start' + n < bound → move (start + n) = start' + n

section Matches

variable {move : Nat → Nat} {base issued start start' bound : Nat}

theorem Matches.mono (h : Matches move base issued start start' bound) {earlier : Nat}
    (hle : earlier ≤ issued) : Matches move base earlier start start' bound :=
  ⟨h.injective, fun n hbase hn => h.kept n hbase (Nat.lt_of_lt_of_le hn hle), h.supply⟩

theorem Matches.renumber_kept (h : Matches move base issued start start' bound)
    {idOf : Nat → String} (hinj : Function.Injective idOf) {n : Nat} (hbase : base ≤ n)
    (hn : n < issued) : renumber idOf move (idOf n) = idOf n := by
  rw [renumber_idOf hinj, h.kept n hbase hn]

end Matches

theorem matches_resettle {base start count root next bound : Nat} (hbase : base ≤ start)
    (h : Vacant base start count root next) :
    Matches (resettle base start count root next bound) base start (start + count) next bound :=
  ⟨resettle_injective hbase h, fun _ => resettle_below, fun _ => resettle_further⟩

/-- The first number goes behind the counted ones that follow it. -/
def rotate (start count n : Nat) : Nat :=
  if n = start then start + count
  else if start < n ∧ n ≤ start + count then n - 1
  else n

theorem rotate_injective (start count : Nat) : Function.Injective (rotate start count) := by
  intro m n heq
  unfold rotate at heq
  split_ifs at heq <;> omega

/-- The root of a nested scope comes before what is in it, and that of a package after it. -/
def rearrange (base start count root next bound : Nat) : Nat → Nat :=
  resettle base start count root next bound ∘ rotate start count

section Rearrange

variable {base start count root next bound : Nat}

theorem rearrange_start (hnext : next < bound) :
    rearrange base start count root next bound start = next := by
  have hrotate : rotate start count start = start + count + 0 := if_pos rfl
  unfold rearrange
  rw [Function.comp_apply, hrotate, resettle_further hnext, Nat.add_zero]

theorem rearrange_counted {n : Nat} (hn : n < count) :
    rearrange base start count root next bound (start + 1 + n) = root + 1 + n := by
  have hrotate : rotate start count (start + 1 + n) = start + n := by
    unfold rotate
    split_ifs <;> omega
  unfold rearrange
  rw [Function.comp_apply, hrotate, resettle_counted hn]

theorem matches_rearrange (hbase : base ≤ start) (h : Vacant base start count root next) :
    Matches (rearrange base start count root next bound) base start (start + 1 + count)
      (next + 1) bound where
  injective := (resettle_injective hbase h).comp (rotate_injective start count)
  kept n hfrom hn := by
    have hrotate : rotate start count n = n := by
      unfold rotate
      split_ifs <;> omega
    unfold rearrange
    rw [Function.comp_apply, hrotate, resettle_below hfrom hn]
  supply n hn := by
    have hrotate : rotate start count (start + 1 + count + n) = start + count + (1 + n) := by
      unfold rotate
      split_ifs <;> omega
    unfold rearrange
    rw [Function.comp_apply, hrotate, resettle_further (by omega), Nat.add_assoc]

theorem rearrange_avoids (hbase : base ≤ start) (h : Vacant base start count root next)
    (n : Nat) : rearrange base start count root next bound n ≠ root :=
  resettle_avoids hbase h (rotate start count n)

end Rearrange

end RecipeGraph.Compile
