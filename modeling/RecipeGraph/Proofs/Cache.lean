import RecipeGraph.Proofs.LoadingCases
import RecipeGraph.Proofs.Progress

/-!
What the cache remembers of a package that asks for no packages itself. Whatever is compiled with
one compiler, an entry for the location holds the scope that comes of the text, made out of ids
that were given out before.
-/
namespace RecipeGraph.Compile

open RecipeGraph.Graph Recipe Package

/-- The setting in which a package is compiled for someone inside the given chain. -/
def Compiler.inside (compiler : Compiler) (location : String) (chain : List String)
    (depth : Nat) : Setting :=
  ⟨compiler.idOf, location :: chain, some (loadWithin compiler.idOf compiler.library depth)⟩

/-- The work on a package by itself. -/
def Compiler.alone (compiler : Compiler) (location text : String) (chain : List String)
    (depth : Nat) (world : World) : Work :=
  lowerRecipe (compiler.inside location chain depth)
    (Recipe.ofText text location).recipe.statements world

/-- What a cache has for a location, if anything, was made of the text, and of no more ids than
the given number. -/
def Compiler.Sound (compiler : Compiler) (location text : String) (issued : Nat)
    (cache : OrderedMap Entry) : Prop :=
  ∀ entry, cache.get? location = some entry → ∃ chain depth world,
    entry = .loaded (.ok (compiler.alone location text chain depth world).scope) ∧
      (compiler.alone location text chain depth world).world.issued ≤ issued

/-- The worlds that compiling texts one after the other can lead to. Each text has a chain of its
own, and the cache may be cleared in between. -/
inductive Compiler.Session (compiler : Compiler) : World → Prop
  | begin : compiler.Session {}
  | compile {world : World} (h : compiler.Session world) (source filename : String)
      (chain : List String) :
      compiler.Session (compiler.compile source filename chain world).2
  | clear {world : World} (h : compiler.Session world) : compiler.Session world.clear

section Sound

variable {compiler : Compiler} {location text : String} {issued : Nat} {cache : OrderedMap Entry}

theorem sound_empty : compiler.Sound location text issued {} := by
  intro entry hentry
  cases hentry

theorem Compiler.Sound.mono (h : compiler.Sound location text issued cache) {later : Nat}
    (hle : issued ≤ later) : compiler.Sound location text later cache := by
  intro entry hentry
  obtain ⟨chain, depth, world, heq, hissued⟩ := h entry hentry
  exact ⟨chain, depth, world, heq, Nat.le_trans hissued hle⟩

theorem Compiler.Sound.insert_other (h : compiler.Sound location text issued cache)
    {other : String} (hne : other ≠ location) (entry : Entry) :
    compiler.Sound location text issued (cache.insert other entry) := by
  intro found hfound
  rw [OrderedMap.get?_insert_of_ne _ _ hne] at hfound
  exact h found hfound

theorem sound_insert (cache : OrderedMap Entry) (chain : List String) (depth : Nat)
    (world : World) :
    compiler.Sound location text (compiler.alone location text chain depth world).world.issued
      (cache.insert location
        (.loaded (.ok (compiler.alone location text chain depth world).scope))) := by
  intro found hfound
  rw [OrderedMap.get?_insert_self] at hfound
  exact ⟨chain, depth, world, (Option.some.inj hfound).symm, Nat.le_refl _⟩

/-- A world with a sound cache. -/
def Compiler.Reliable (compiler : Compiler) (location text : String) (world : World) : Prop :=
  compiler.Sound location text world.issued world.cache

theorem growth_reliable : Growth fun work after =>
    compiler.Reliable location text work.world → compiler.Reliable location text after.world where
  trans h h' := h' ∘ h
  quiet h := by
    rw [h.world]
    exact id
  report _ _ _ := id
  scope _ _ := id
  freshId _ work h := Compiler.Sound.mono h (Nat.le_succ work.world.issued)

theorem reliable_lowered {setting : Setting}
    (hloads : ∀ loader, setting.loader = some loader → ∀ there (world : World),
      compiler.Reliable location text world →
        compiler.Reliable location text (loader there setting.chain world).2)
    (statements : List Node) {world : World} (h : compiler.Reliable location text world) :
    compiler.Reliable location text (lowerRecipe setting statements world).world := by
  refine growth_reliable.recipe setting statements ?_ world h
  exact fun there _ loader hloader work hwork => hloads loader hloader there work.world hwork

section Loading

variable (hfetch : compiler.library.fetch location = .ok text)

include hfetch

/-- While the package itself is being made, the cache has no scope for it yet. Then it has the
one that was made. -/
theorem remember_reliable {there : String} {chain : List String} {depth : Nat}
    (hloads : ∀ other chain (world : World), compiler.Reliable location text world →
      compiler.Reliable location text
        (loadWithin compiler.idOf compiler.library depth other chain world).2)
    {world : World} (h : compiler.Reliable location text world) :
    compiler.Reliable location text
      (remember there
        (fetchWith compiler.library
          (fun text => packageScope compiler.idOf
            (loadWithin compiler.idOf compiler.library depth) there text (there :: chain)) there)
        world).2 := by
  have hbegun : there ≠ location → compiler.Reliable location text (beginLoading there world) :=
    fun hother => Compiler.Sound.insert_other h hother .loading
  generalize hrecalled : remember there _ world = recalled
  cases recalled_of_eq hrecalled with
  | loaded | loading => exact h
  | unfetched _ hmissing =>
    have hother : there ≠ location := by
      rintro rfl
      cases hfetch.symm.trans hmissing
    exact Compiler.Sound.insert_other (hbegun hother) hother _
  | @compiled other _ hfound =>
    by_cases hsame : there = location
    · subst hsame
      obtain rfl := Except.ok.inj (hfetch.symm.trans hfound)
      exact sound_insert _ chain depth (beginLoading there world)
    · have hmade : compiler.Reliable location text
          (packageScope compiler.idOf (loadWithin compiler.idOf compiler.library depth) there
            other (there :: chain) (beginLoading there world)).2 := by
        refine reliable_lowered ?_ (Recipe.ofText other there).recipe.statements (hbegun hsame)
        intro loader hloader place inside hinside
        cases hloader
        exact hloads place _ inside hinside
      exact Compiler.Sound.insert_other hmade hsame _

theorem loadWithin_reliable (depth : Nat) (there : String) (chain : List String) {world : World}
    (h : compiler.Reliable location text world) :
    compiler.Reliable location text
      (loadWithin compiler.idOf compiler.library depth there chain world).2 := by
  induction depth generalizing there chain world with
  | zero => exact h
  | succ depth ih =>
    cases hrefusal : refusal? there chain with
    | some fault => rwa [loadWithin_refused hrefusal]
    | none =>
      rw [loadWithin_admitted hrefusal]
      exact remember_reliable hfetch (fun other chain _ h => ih other chain h) h

/-- A package that was compiled before is there as it was made. -/
theorem Compiler.Session.reliable {world : World} (h : compiler.Session world) :
    compiler.Reliable location text world := by
  induction h with
  | begin => exact sound_empty
  | compile _ source filename chain ih =>
    refine reliable_lowered ?_ (Recipe.ofText source filename).recipe.statements ih
    intro loader hloader there inside hinside
    cases hloader
    exact loadWithin_reliable hfetch _ there chain hinside
  | clear _ _ => exact sound_empty

end Loading

end Sound

end RecipeGraph.Compile
