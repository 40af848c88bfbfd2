import RecipeGraph.Proofs.LoadingCases
import RecipeGraph.Proofs.LoweringMoves

/-!
Packages and sessions. Compiling a package suspends the text that asks for it, and the finished
package stays on the shelf for whoever asks again. So the stages that can be reached cover all
that a compiler makes of texts one after the other, with whatever is in its cache.
-/
namespace RecipeGraph.Compile

open RecipeGraph.Graph Recipe Package

section Loading

theorem packageScope_eq (idOf : Nat → String) (loader : Loader) (location text : String)
    (chain : List String) (world : World) :
    packageScope idOf loader location text chain world =
      let lowered := lowerRecipe ⟨idOf, chain, some loader⟩
        (Recipe.ofText text location).recipe.statements world
      (lowered.scope, lowered.world) :=
  rfl

theorem Stocked.record_loading {shelf : List Scope} {world : World} (h : Stocked shelf world)
    (location : String) : Stocked shelf (world.record location .loading) := by
  intro there package hpackage
  obtain ⟨-, hnone⟩ | ⟨-, hkept⟩ := OrderedMap.get?_insert_eq_some.mp hpackage
  · cases hnone
  · exact h there package hkept

theorem Stocked.record_loaded {shelf : List Scope} {world : World} (h : Stocked shelf world)
    (location : String) {result : Except Fault Scope}
    (hresult : ∀ package, result = .ok package → package ∈ shelf) :
    Stocked shelf (world.record location (.loaded result)) := by
  intro there package hpackage
  obtain ⟨-, hnew⟩ | ⟨-, hkept⟩ := OrderedMap.get?_insert_eq_some.mp hpackage
  · exact hresult package (Entry.loaded.inj hnew)
  · exact h there package hkept

variable {idOf : Nat → String} (hne : ∀ n, idOf n ≠ "") (library : Library)

include hne

section Inside

variable {loader : Loader} (hloader : LoadsByMoves idOf loader) {stage : Stage} {world : World}
  (hissued : stage.issued = world.issued) (hready : stage.ready = [])
  (hstocked : Stocked stage.shelf world)

include hloader hissued hready hstocked

/-- Compiling a package suspends what is under construction and resumes it afterwards. -/
theorem packageScope_moves (location text : String) (chain : List String) :
    ∃ shelf, Run idOf stage
        { stage with
          issued := (packageScope idOf loader location text chain world).2.issued
          shelf := shelf } ∧
      Stocked shelf (packageScope idOf loader location text chain world).2 ∧
      (packageScope idOf loader location text chain world).1 ∈ shelf := by
  rw [packageScope_eq]
  generalize (Recipe.ofText text location).recipe.statements = statements
  let setting : Setting := ⟨idOf, chain, some loader⟩
  let entered := enter setting [] none "" none ⟨world, [], .ofContents { id := "" }⟩
  let begun : Stage :=
    { Stage.start idOf stage.issued stage.shelf with
      callers := (stage.frame, stage.outer) :: stage.callers }
  have hbegun : begun.showing entered [] = begun := by
    change { begun with
        issued := world.issued + 1
        frame := ⟨Scope.ofContents { id := idOf world.issued }, []⟩ } = begun
    rw [← hissued]
    rfl
  have hinside : ∀ inside, setting.loader = some inside → LoadsByMoves idOf inside := by
    intro inside heq
    cases heq
    exact hloader
  have hstatements := statements_reach hne hinside
  obtain ⟨shelf, hrun, hshelf, -⟩ := hstatements.all statements [] begun entered rfl hstocked
  rw [hbegun] at hrun
  refine ⟨(lowerAll setting [] statements entered).scope :: shelf, ?_, ?_, List.mem_cons_self ..⟩
  · have hresume : Move idOf _ _ := .resume
      ({ begun with shelf := shelf }.showing (lowerAll setting [] statements entered) [])
      rfl rfl rfl
    have hback := ((Relation.ReflTransGen.single (Move.suspend stage)).trans hrun).tail hresume
    rw [← hready] at hback
    exact hback
  · intro there package hpackage
    exact List.mem_cons_of_mem _ (hshelf there package hpackage)

end Inside

/-- A package comes from the cache, where it is on the shelf already, or is compiled. -/
theorem loadWithin_moves (depth : Nat) : LoadsByMoves idOf (loadWithin idOf library depth) := by
  induction depth with
  | zero =>
    intro stage location chain world hissued _ hstocked
    refine ⟨stage.shelf, ?_, hstocked, ?_⟩
    · change Run idOf stage { stage with issued := world.issued }
      rw [← hissued]
    · intro package hpackage
      cases hpackage
  | succ depth ih =>
    intro stage location chain world hissued hready hstocked
    have hstay : Run idOf stage { stage with issued := world.issued } := by
      rw [← hissued]
    have hissued' : stage.issued = (beginLoading location world).issued := hissued
    have hbegun : Stocked stage.shelf (beginLoading location world) :=
      hstocked.record_loading location
    cases hrefusal : refusal? location chain with
    | some fault =>
      rw [loadWithin_refused hrefusal]
      exact ⟨stage.shelf, hstay, hstocked, fun _ hnone => nomatch hnone⟩
    | none =>
      rw [loadWithin_admitted hrefusal]
      generalize hrecalled : remember location _ world = recalled
      cases recalled_of_eq hrecalled with
      | loading => exact ⟨stage.shelf, hstay, hstocked, fun _ hnone => nomatch hnone⟩
      | loaded hcached =>
        refine ⟨stage.shelf, hstay, hstocked, ?_⟩
        rintro package rfl
        exact hstocked location package hcached
      | @unfetched fault =>
        have hnone : ∀ package, Except.error fault = .ok package → package ∈ stage.shelf :=
          fun _ hnone => nomatch hnone
        exact ⟨stage.shelf, hstay, hbegun.record_loaded location hnone, hnone⟩
      | @compiled text =>
        obtain ⟨shelf, hrun, hshelf, hmem⟩ :=
          packageScope_moves hne ih hissued' hready hbegun location text (location :: chain)
        refine ⟨shelf, hrun, hshelf.record_loaded location ?_, ?_⟩
        · rintro package ⟨⟩
          exact hmem
        · rintro package ⟨⟩
          exact hmem

theorem setting_moves (chain : List String) :
    ∀ loader, ((Compiler.mk idOf library).setting chain).loader = some loader →
      LoadsByMoves idOf loader := by
  intro loader heq
  cases heq
  exact loadWithin_moves hne library library.depth

end Loading

/-- The worlds that a supply of ids can come to. Recipes are lowered one after the other, each
with a library and inside a chain of its own, and the cache may be cleared in between. -/
inductive History (idOf : Nat → String) : World → Prop
  | begin : History idOf {}
  | lower {world : World} (h : History idOf world) (library : Library) (chain : List String)
      (statements : List Recipe.Node) :
      History idOf (lowerRecipe ((Compiler.mk idOf library).setting chain) statements world).world
  | clear {world : World} (h : History idOf world) : History idOf world.clear

/-- The worlds that come of texts. Texts are compiled one after the other, each with a library
and inside a chain of its own, and the cache may be cleared in between. -/
inductive Session (idOf : Nat → String) : World → Prop
  | begin : Session idOf {}
  | compile {world : World} (h : Session idOf world) (library : Library)
      (source filename : String) (chain : List String) :
      Session idOf ((Compiler.mk idOf library).compile source filename chain world).2
  | clear {world : World} (h : Session idOf world) : Session idOf world.clear

/-- A text is compiled by lowering the recipe that it contains. -/
theorem Session.history {idOf : Nat → String} {world : World} (h : Session idOf world) :
    History idOf world := by
  induction h with
  | begin => exact .begin
  | compile _ library source filename chain ih =>
    exact ih.lower library chain (Recipe.ofText source filename).recipe.statements
  | clear _ ih => exact ih.clear

section Sessions

variable {idOf : Nat → String} (hne : ∀ n, idOf n ≠ "") {world : World}

include hne

theorem recipe_moves (library : Library) (chain : List String) (statements : List Recipe.Node)
    (shelf : List Scope) (hstocked : Stocked shelf world) :
    ∃ shelf', Run idOf (.start idOf world.issued shelf)
        { issued := (lowerRecipe ((Compiler.mk idOf library).setting chain) statements
            world).world.issued
          shelf := shelf'
          frame := ⟨(lowerRecipe ((Compiler.mk idOf library).setting chain) statements
            world).scope, []⟩ } ∧
      Stocked shelf' (lowerRecipe ((Compiler.mk idOf library).setting chain) statements
        world).world := by
  have hloader := setting_moves hne library chain
  exact lowerRecipe_reaches hne hloader statements world shelf hstocked

theorem compile_moves (library : Library) (source filename : String) (chain : List String)
    (shelf : List Scope) (hstocked : Stocked shelf world) :
    ∃ shelf', Run idOf (.start idOf world.issued shelf)
        { issued := ((Compiler.mk idOf library).compile source filename chain world).2.issued
          shelf := shelf'
          frame := ⟨((Compiler.mk idOf library).compile source filename chain world).1.scope,
            []⟩ } ∧
      Stocked shelf' ((Compiler.mk idOf library).compile source filename chain world).2 :=
  recipe_moves hne library chain (Recipe.ofText source filename).recipe.statements shelf hstocked

/-- Whatever was lowered before, the next recipe begins at a stage that can be reached. -/
theorem History.opens (h : History idOf world) :
    ∃ shelf, Stocked shelf world ∧ Reachable idOf (.start idOf world.issued shelf) := by
  induction h with
  | begin =>
    refine ⟨[], ?_, .first 0⟩
    intro location package hpackage
    cases hpackage
  | lower _ library chain statements ih =>
    obtain ⟨shelf, hstocked, hreachable⟩ := ih
    obtain ⟨shelf', hrun, hstocked'⟩ :=
      recipe_moves hne library chain statements shelf hstocked
    exact ⟨shelf', hstocked', (hreachable.run hrun).next⟩
  | clear _ ih =>
    obtain ⟨shelf, -, hreachable⟩ := ih
    refine ⟨shelf, ?_, hreachable⟩
    intro location package hpackage
    cases hpackage

/-- Whatever was compiled before, the next text begins at a stage that can be reached. -/
theorem Session.opens (h : Session idOf world) :
    ∃ shelf, Stocked shelf world ∧ Reachable idOf (.start idOf world.issued shelf) :=
  h.history.opens hne

/-- What is compiled in a session is the scope of a stage that can be reached, with nothing
around it. -/
theorem Session.compiled (h : Session idOf world) (library : Library) (source filename : String)
    (chain : List String) :
    ∃ stage, Reachable idOf stage ∧ stage.outer = [] ∧ stage.callers = [] ∧ stage.frame.scope =
      ((Compiler.mk idOf library).compile source filename chain world).1.scope := by
  obtain ⟨shelf, hstocked, hreachable⟩ := h.opens hne
  obtain ⟨shelf', hrun, -⟩ := compile_moves hne library source filename chain shelf hstocked
  exact ⟨_, hreachable.run hrun, rfl, rfl, rfl⟩

end Sessions

end RecipeGraph.Compile
