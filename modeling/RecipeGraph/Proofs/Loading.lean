import RecipeGraph.Proofs.Meaning
import RecipeGraph.Proofs.Requests

/-!
What comes of asking for a package, told without any limit to how deep packages nest. Each way in
which a request can go is a case, and the text of a package is lowered with a loader that answers
all of its requests as they are answered in turn. An answer is thus reached in finitely many steps
or not at all, and there is at most one. The loader that follows packages to a depth above their
number reaches it.
-/
namespace RecipeGraph.Compile

open RecipeGraph.Graph Recipe Package

/-- The statements of a text. -/
def statementsOf (source filename : String) : List Node :=
  (Recipe.ofText source filename).recipe.statements

/-- The answer to a request, and the world it leaves behind. -/
inductive Obtains (idOf : Nat → String) (library : Library) :
    String → List String → World → Except Fault Scope → World → Prop
  | refused {location : String} {chain : List String} {world : World} {fault : Fault}
      (hrefusal : refusal? location chain = some fault) :
      Obtains idOf library location chain world (.error fault) world
  | present {location : String} {chain : List String} {world : World}
      {result : Except Fault Scope} (hrefusal : refusal? location chain = none)
      (hfound : world.cache.get? location = some (.loaded result)) :
      Obtains idOf library location chain world result world
  | pending {location : String} {chain : List String} {world : World}
      (hrefusal : refusal? location chain = none)
      (hfound : world.cache.get? location = some .loading) :
      Obtains idOf library location chain world (.error (.loading location)) world
  | unfetched {location : String} {chain : List String} {world : World} {fault : Fault}
      (hrefusal : refusal? location chain = none) (hfound : world.cache.get? location = none)
      (hfetch : library.fetch location = .error fault) :
      Obtains idOf library location chain world (.error fault)
        ((beginLoading location world).record location (.loaded (.error fault)))
  | compiled {location text : String} {chain : List String} {world : World} {work : Work}
      (hrefusal : refusal? location chain = none) (hfound : world.cache.get? location = none)
      (hfetch : library.fetch location = .ok text) (next : Loader)
      (hnext : ∀ request ∈ askingRecipe ⟨idOf, location :: chain, some next⟩
          (statementsOf text location) (beginLoading location world),
        Obtains idOf library request.1 (location :: chain) request.2
          (next request.1 (location :: chain) request.2).1
          (next request.1 (location :: chain) request.2).2)
      (hwork : work = lowerRecipe ⟨idOf, location :: chain, some next⟩
        (statementsOf text location) (beginLoading location world)) :
      Obtains idOf library location chain world (.ok work.scope)
        (work.world.record location (.loaded (.ok work.scope)))

/-- The loader answers what the statements ask it for as it should be answered. -/
def Answers (idOf : Nat → String) (library : Library) (chain : List String)
    (statements : List Node) (world : World) (next : Loader) : Prop :=
  ∀ request ∈ askingRecipe ⟨idOf, chain, some next⟩ statements world,
    Obtains idOf library request.1 chain request.2 (next request.1 chain request.2).1
      (next request.1 chain request.2).2

section Obtains

variable {idOf : Nat → String} {library : Library} {location : String} {chain : List String}
  {world after after' : World} {result result' : Except Fault Scope}

/-- Answers that are unique are the same for every loader that gives them. -/
theorem lowerRecipe_determined {statements : List Node} {next next' : Loader}
    (h : ∀ request ∈ askingRecipe ⟨idOf, chain, some next⟩ statements world, ∀ {result' after'},
      Obtains idOf library request.1 chain request.2 result' after' →
        (next request.1 chain request.2).1 = result' ∧
          (next request.1 chain request.2).2 = after')
    (h' : Answers idOf library chain statements world next') :
    lowerRecipe ⟨idOf, chain, some next⟩ statements world =
      lowerRecipe ⟨idOf, chain, some next'⟩ statements world := by
  refine recipe_through ⟨idOf, chain, none⟩ ?_
  intro request hin hin'
  obtain ⟨hresult, hafter⟩ := h request hin (h' request hin')
  exact Prod.ext hresult hafter

/-- There is at most one answer. -/
theorem Obtains.unique (h : Obtains idOf library location chain world result after)
    (h' : Obtains idOf library location chain world result' after') :
    result = result' ∧ after = after' := by
  induction h generalizing result' after' with
  | refused hrefusal => cases h' <;> simp_all
  | present hrefusal hfound => cases h' <;> simp_all
  | pending hrefusal hfound => cases h' <;> simp_all
  | unfetched hrefusal hfound hfetch => cases h' <;> simp_all
  | compiled hrefusal hfound hfetch next _ hwork ih =>
    cases h' with
    | compiled _ _ hfetch' next' hnext' hwork' =>
      rw [hfetch] at hfetch'
      cases hfetch'
      have hsame := lowerRecipe_determined (fun request hin => ih request hin) hnext'
      rw [← hwork, ← hwork'] at hsame
      rw [hsame]
      exact ⟨rfl, rfl⟩
    | _ => simp_all

end Obtains

/-- The chain has been extended by packages with a text, each of them once, and there is room for
all the others. -/
def Room (packages : OrderedMap Stored) (depth : Nat) (chain : List String) : Prop :=
  ∃ inner outer, chain = inner ++ outer ∧ inner.Nodup ∧
    (∀ location ∈ inner, location ∈ packages.keys) ∧ packages.size < inner.length + depth

section Room

variable {idOf : Nat → String} {packages : OrderedMap Stored} {depth : Nat} {chain : List String}
  {location text : String}

theorem room_begin (packages : OrderedMap Stored) (chain : List String) :
    Room packages (Library.ofStored packages).depth chain := by
  refine ⟨[], chain, rfl, List.nodup_nil, by simp, ?_⟩
  show packages.size < 0 + (packages.size + 1)
  omega

theorem Room.pos (h : Room packages depth chain) : 0 < depth := by
  obtain ⟨inner, outer, -, hnodup, hstored, hroom⟩ := h
  have hle := length_le_size hnodup hstored
  omega

/-- A package with a text takes up some of the room. -/
theorem Room.inside (h : Room packages (depth + 1) chain)
    (hrefusal : refusal? location chain = none)
    (hfetch : (Library.ofStored packages).fetch location = .ok text) :
    Room packages depth (location :: chain) := by
  obtain ⟨inner, outer, rfl, hnodup, hstored, hroom⟩ := h
  obtain ⟨hnew, -⟩ := package_of_not_refused hrefusal
  have hother : location ∉ inner := fun hin => hnew (List.mem_append_left outer hin)
  refine ⟨location :: inner, outer, rfl, List.nodup_cons.mpr ⟨hother, hnodup⟩, ?_, ?_⟩
  · intro other hin
    rcases List.mem_cons.mp hin with rfl | hin
    · exact mem_keys_of_fetch hfetch
    · exact hstored other hin
  · rw [List.length_cons]
    omega

/-- With room enough the loader gives the answer, and never gives up. -/
theorem loadWithin_obtains (h : Room packages depth chain) (location : String) (world : World) :
    Obtains idOf (Library.ofStored packages) location chain world
      (loadWithin idOf (Library.ofStored packages) depth location chain world).1
      (loadWithin idOf (Library.ofStored packages) depth location chain world).2 := by
  induction depth generalizing location chain world with
  | zero => exact absurd h.pos (Nat.lt_irrefl 0)
  | succ depth ih =>
    cases hrefusal : refusal? location chain with
    | some fault =>
      rw [loadWithin_refused hrefusal]
      exact .refused hrefusal
    | none =>
      rw [loadWithin_admitted hrefusal]
      generalize hrecalled : remember location _ world = recalled
      cases recalled_of_eq hrecalled with
      | loading hfound => exact .pending hrefusal hfound
      | loaded hfound => exact .present hrefusal hfound
      | unfetched hfound hfetch => exact .unfetched hrefusal hfound hfetch
      | compiled hfound hfetch =>
        exact .compiled hrefusal hfound hfetch
          (loadWithin idOf (Library.ofStored packages) depth)
          (fun request _ => ih (h.inside hrefusal hfetch) request.1 request.2) rfl

end Room

/-- Compiling comes to an end, with this compilation and this world. -/
def Compiler.Finishes (compiler : Compiler) (source filename : String) (chain : List String)
    (world : World) (compiled : Compilation × World) : Prop :=
  ∃ next : Loader,
    Answers compiler.idOf compiler.library chain (statementsOf source filename) world next ∧
      let built := Recipe.ofText source filename
      let work := lowerRecipe ⟨compiler.idOf, chain, some next⟩ built.recipe.statements world
      compiled = (⟨source, built.recipe, work.scope, built.diagnostics ++ work.diagnostics⟩,
        work.world)

section Finishes

variable {compiler : Compiler} {source filename : String} {chain : List String} {world : World}
  {compiled compiled' : Compilation × World}

theorem Compiler.Finishes.unique
    (h : compiler.Finishes source filename chain world compiled)
    (h' : compiler.Finishes source filename chain world compiled') : compiled = compiled' := by
  obtain ⟨next, hnext, rfl⟩ := h
  obtain ⟨next', hnext', rfl⟩ := h'
  have hsame := lowerRecipe_determined (fun request hin => (hnext request hin).unique) hnext'
  unfold statementsOf at hsame
  rw [hsame]

/-- With packages in memory compiling comes to an end. -/
theorem compile_finishes (idOf : Nat → String) (packages : OrderedMap Stored)
    (source filename : String) (chain : List String) (world : World) :
    (Compiler.mk idOf (.ofStored packages)).Finishes source filename chain world
      ((Compiler.mk idOf (.ofStored packages)).compile source filename chain world) :=
  ⟨(Compiler.mk idOf (.ofStored packages)).loader,
    fun request _ => loadWithin_obtains (room_begin packages chain) request.1 request.2, rfl⟩

end Finishes

end RecipeGraph.Compile
