import RecipeGraph.Proofs.SingleFlight

/-!
Which packages are fetched for a text, and in which order. They are those that can be reached from
the text by way of what texts ask for, each once, in the order in which they are met when all that a
package asks for is followed up before the next one is looked at.
-/
namespace RecipeGraph

theorem Text.mem_insertSorted {text other : String} {texts : List String} :
    other ∈ insertSorted text texts ↔ other = text ∨ other ∈ texts := by
  induction texts with
  | nil => simp [insertSorted]
  | cons first rest ih =>
    unfold insertSorted
    split_ifs with hsame hless
    · simp [hsame]
    · simp
    · simp only [List.mem_cons, ih]
      tauto

theorem Text.mem_sortedDistinct {text : String} {texts : List String} :
    text ∈ sortedDistinct texts ↔ text ∈ texts := by
  unfold sortedDistinct
  induction texts with
  | nil => simp
  | cons first rest ih => simp [mem_insertSorted, ih]

namespace Compile

open RecipeGraph.Graph Recipe Package

/-- The packages that can be reached from a text. One leads to another if it has the extension of
a package, can be fetched and parses, and the other is among the packages of its recipe. -/
inductive Reached (library : Library) (source filename : String) : String → Prop
  | named {location : String}
      (hnamed : location ∈ Recipe.packages (statementsOf source filename)) :
      Reached library source filename location
  | further {location asked text : String} {tree : Source.Tree}
      (h : Reached library source filename location)
      (hextension : location.endsWith fileExtension = true)
      (hfetch : library.fetch location = .ok text) (hparse : Source.parse text location = .ok tree)
      (hasked : asked ∈ Recipe.packages (statementsOf text location)) :
      Reached library source filename asked

/-- A walk over pending locations in their order, when some were visited before. What has not been
visited and is a package is visited, and all that it asks for, before the walk goes on. -/
inductive Walks (library : Library) : List String → List String → List String → Prop
  | done (visited : List String) : Walks library visited [] visited
  | skip {visited rest after : List String} {location : String}
      (hknown : location ∈ visited ∨ location.endsWith fileExtension = false)
      (hrest : Walks library visited rest after) : Walks library visited (location :: rest) after
  | visit {visited rest inside after : List String} {location : String}
      (hnew : location ∉ visited) (hextension : location.endsWith fileExtension = true)
      (hinside : Walks library (visited ++ [location]) (library.asks location) inside)
      (hrest : Walks library inside rest after) : Walks library visited (location :: rest) after

section Walks

variable {library : Library} {visited pending further middle after after' : List String}
  {location : String}

/-- There is at most one such walk. -/
theorem Walks.unique (h : Walks library visited pending after)
    (h' : Walks library visited pending after') : after = after' := by
  induction h generalizing after' with
  | done visited =>
    cases h'
    rfl
  | skip hknown _ ih =>
    cases h' with
    | skip _ hrest => exact ih hrest
    | visit hnew hextension => simp_all
  | visit hnew hextension _ _ ihinside ihrest =>
    cases h' with
    | skip hknown => simp_all
    | visit _ _ hinside hrest =>
      cases ihinside hinside
      exact ihrest hrest

theorem Walks.append (h : Walks library visited pending middle)
    (h' : Walks library middle further after) :
    Walks library visited (pending ++ further) after := by
  induction h with
  | done => exact h'
  | skip hknown _ ih => exact .skip hknown (ih h')
  | visit hnew hextension hinside _ _ ih => exact .visit hnew hextension hinside (ih h')

theorem Walks.subset (h : Walks library visited pending after) : visited ⊆ after := by
  induction h with
  | done visited => exact List.Subset.refl visited
  | skip _ _ ih => exact ih
  | visit _ _ _ _ ihinside ihrest =>
    exact fun other hin => ihrest (ihinside (List.mem_append_left _ hin))

theorem Walks.nodup (h : Walks library visited pending after) (hnodup : visited.Nodup) :
    after.Nodup := by
  induction h with
  | done => exact hnodup
  | skip _ _ ih => exact ih hnodup
  | visit hnew _ _ _ ihinside ihrest =>
    refine ihrest (ihinside ?_)
    rw [List.nodup_append]
    refine ⟨hnodup, by simp, ?_⟩
    intro a ha b hb hsame
    rw [List.mem_singleton] at hb
    exact hnew (by rwa [← hb, ← hsame])

theorem Walks.covers (h : Walks library visited pending after) (hin : location ∈ pending)
    (hextension : location.endsWith fileExtension = true) : location ∈ after := by
  induction h with
  | done => simp at hin
  | skip hknown hrest ih =>
    rcases List.mem_cons.mp hin with rfl | hin
    · exact hrest.subset (by simpa [hextension] using hknown)
    · exact ih hin
  | visit _ _ hinside hrest _ ih =>
    rcases List.mem_cons.mp hin with rfl | hin
    · exact hrest.subset (hinside.subset (by simp))
    · exact ih hin

/-- Of each package that is new all that it asks for is visited as well. -/
theorem Walks.closed (h : Walks library visited pending after) {other : String}
    (hother : other ∈ after) (hnew : other ∉ visited) (hasked : location ∈ library.asks other)
    (hextension : location.endsWith fileExtension = true) : location ∈ after := by
  induction h with
  | done => exact absurd hother hnew
  | skip _ _ ih => exact ih hother hnew
  | @visit visited rest inside after first _ _ hinside hrest ihinside ihrest =>
    by_cases hin : other ∈ inside
    · by_cases hsame : other = first
      · subst hsame
        exact hrest.subset (hinside.covers hasked hextension)
      · exact hrest.subset (ihinside hin (by simp [hnew, hsame]))
    · exact ihrest hother hin

/-- What is visited was there before, or is a package and has a property that holds of all that is
pending and goes on to what is asked for. -/
theorem Walks.sound (h : Walks library visited pending after) {P : String → Prop}
    (hpending : ∀ location ∈ pending, P location)
    (hasks : ∀ location, P location → ∀ asked ∈ library.asks location, P asked) :
    ∀ location ∈ after, location ∈ visited ∨
      location.endsWith fileExtension = true ∧ P location := by
  induction h with
  | done => exact fun location hin => .inl hin
  | skip _ _ ih => exact ih (List.forall_mem_cons.mp hpending).2
  | visit _ hextension _ _ ihinside ihrest =>
    obtain ⟨hfirst, hothers⟩ := List.forall_mem_cons.mp hpending
    intro location hin
    rcases ihrest hothers location hin with hin | hnew
    · rcases ihinside (hasks _ hfirst) location hin with hin | hnew
      · rcases List.mem_append.mp hin with hin | hin
        · exact .inl hin
        · rw [List.mem_singleton.mp hin]
          exact .inr ⟨hextension, hfirst⟩
      · exact .inr hnew
    · exact .inr hnew

end Walks

section Reached

variable {library : Library} {source filename location : String}

theorem mem_packages {statements : List Node} :
    location ∈ Recipe.packages statements ↔ location ∈ Node.locationsOfAll statements :=
  Text.mem_sortedDistinct

/-- What a package asks for is what its recipe names, if it has one. -/
theorem mem_asks {asked : String} : asked ∈ library.asks location ↔
    location.endsWith fileExtension = true ∧ ∃ text tree, library.fetch location = .ok text ∧
      Source.parse text location = .ok tree ∧
        asked ∈ Recipe.packages (statementsOf text location) := by
  constructor
  · intro hasked
    unfold Library.asks at hasked
    split at hasked
    · rename_i text hextension hfetch
      cases hparse : Source.parse text location with
      | ok tree => exact ⟨hextension, text, tree, hfetch, hparse, mem_packages.mpr hasked⟩
      | error fault =>
        unfold Recipe.ofText at hasked
        rw [hparse] at hasked
        cases hasked
    · cases hasked
  · rintro ⟨hextension, text, tree, hfetch, -, hasked⟩
    rw [Library.asks_eq hextension hfetch]
    exact mem_packages.mp hasked

/-- A walk from what a text asks for visits the packages that can be reached from it. -/
theorem Walks.mem_iff {fetched : List String}
    (h : Walks library [] (Node.locationsOfAll (statementsOf source filename)) fetched) :
    location ∈ fetched ↔
      location.endsWith fileExtension = true ∧ Reached library source filename location := by
  constructor
  · intro hin
    have hsound := h.sound (P := Reached library source filename)
      (fun location hin => .named (mem_packages.mpr hin)) ?_ location hin
    · simpa using hsound
    · intro location hreached asked hasked
      obtain ⟨hextension, text, tree, hfetch, hparse, hnamed⟩ := mem_asks.mp hasked
      exact .further hreached hextension hfetch hparse hnamed
  · rintro ⟨hextension, hreached⟩
    induction hreached with
    | named hnamed => exact h.covers (mem_packages.mp hnamed) hextension
    | further _ hbefore hfetch hparse hasked ih =>
      exact h.closed (ih hbefore) (by simp)
        (mem_asks.mpr ⟨hbefore, _, _, hfetch, hparse, hasked⟩) hextension

end Reached

section Fetched

variable {idOf : Nat → String} {packages : OrderedMap Stored} {library : Library}
  {chain asked : List String} {location : String} {world after last : World}
  {result : Except Fault Scope} {setting : Setting} {requests : List (String × World)}

/-- One request after the other, the walk goes on from where it was. -/
theorem Threaded.walks (h : Threaded setting last world requests)
    (hchain : chain ⊆ world.fetched)
    (hasks : ∀ request ∈ requests, chain ⊆ request.2.fetched →
      Walks library request.2.fetched [request.1]
        (setting.ask request.1 request.2).fetched) :
    Walks library world.fetched (requests.map Prod.fst) last.fetched := by
  induction requests generalizing world with
  | nil =>
    rw [Still.fetched h]
    exact .done _
  | cons first rest ih =>
    obtain ⟨hstill, hafter⟩ := h
    obtain ⟨hfirst, hothers⟩ := List.forall_mem_cons.mp hasks
    rw [← hstill.fetched] at hchain ⊢
    have hwalk := hfirst hchain
    exact hwalk.append (ih hafter (fun other hin => hwalk.subset (hchain hin)) hothers)

theorem Tidy.mem_fetched (h : Tidy [] chain world) :
    location ∈ world.fetched ↔ world.cache.get? location ≠ none := by
  rw [h.fetched, List.nil_append, Ne, OrderedMap.get?_eq_none, not_not]

/-- To ask for a package is to walk there. -/
theorem Obtains.walks (h : Obtains idOf (.ofStored packages) location chain world result after)
    (htidy : Tidy [] chain world) (hchain : chain ⊆ world.fetched) :
    Walks (.ofStored packages) world.fetched [location] after.fetched := by
  induction h with
  | refused hrefusal =>
    refine .skip ?_ (.done _)
    unfold refusal? at hrefusal
    split_ifs at hrefusal with hin hextension
    · exact .inl (hchain hin)
    · exact .inr (by simpa using hextension)
  | present hrefusal hfound =>
    exact .skip (.inl (htidy.mem_fetched.mpr (by simp [hfound]))) (.done _)
  | pending hrefusal hfound =>
    exact .skip (.inl (htidy.mem_fetched.mpr (by simp [hfound]))) (.done _)
  | unfetched hrefusal hfound hfetch =>
    obtain ⟨-, hextension⟩ := package_of_not_refused hrefusal
    have hnew := (not_congr htidy.mem_fetched).mpr (by simpa using hfound)
    refine .visit hnew hextension ?_ (.done _)
    unfold Library.asks
    rw [hextension, hfetch]
    exact .done _
  | @compiled location text chain world work hrefusal hfound hfetch next hnext hwork ih =>
    obtain ⟨-, hextension⟩ := package_of_not_refused hrefusal
    have hnew := (not_congr htidy.mem_fetched).mpr (by simpa using hfound)
    have hbegun := htidy.beginLoading hfound
    obtain ⟨-, -, hrequests⟩ := statements_served hbegun fun request hin =>
      (hnext request hin).served
    -- Only because the chain is among what has been fetched are requests on it passed over.
    have hinside : location :: chain ⊆ (beginLoading location world).fetched := by
      show location :: chain ⊆ world.fetched ++ [location]
      intro other hin
      rcases List.mem_cons.mp hin with rfl | hin
      · simp
      · exact List.mem_append_left _ (hchain hin)
    have hwalk : Walks (.ofStored packages) _ _ _ :=
      (recipe_threaded _ _ _).walks hinside fun request hin =>
        ih request hin (hrequests request hin).1
    rw [askingRecipe_locations, ← hwork] at hwalk
    unfold statementsOf at hwalk
    rw [← Library.asks_eq hextension hfetch] at hwalk
    exact .visit hnew hextension hwalk (.done _)

theorem tidy_empty : Tidy [] [] {} :=
  tidy_cleared {}

/-- A new compiler walks from the packages that the text asks for. -/
theorem compile_walks (idOf : Nat → String) (packages : OrderedMap Stored)
    (source filename : String) :
    Walks (.ofStored packages) [] (Node.locationsOfAll (statementsOf source filename))
      ((Compiler.mk idOf (.ofStored packages)).compile source filename [] {}).2.fetched := by
  let loader := (Compiler.mk idOf (.ofStored packages)).loader
  have hobtains : ∀ request : String × World, Obtains idOf (.ofStored packages) request.1 []
      request.2 (loader request.1 [] request.2).1 (loader request.1 [] request.2).2 :=
    fun request => loadWithin_obtains (room_begin packages []) request.1 request.2
  have hrequests : ∀ request ∈ askingRecipe ⟨idOf, [], some loader⟩
      (statementsOf source filename) {}, Tidy [] [] request.2 := fun request hin =>
    ((statements_served tidy_empty fun request _ => (hobtains request).served).2.2 request hin).1
  have hwalk : Walks (.ofStored packages) _ _ _ :=
    (recipe_threaded ⟨idOf, [], some loader⟩ (statementsOf source filename) {}).walks
      (List.nil_subset _) fun request hin => (hobtains request).walks (hrequests request hin)
  rwa [askingRecipe_locations] at hwalk

/-- A text on a new compiler comes to an end. What is fetched for it is each package that can be
reached from it, once, in the order of a walk along what texts ask for. -/
theorem reachable_fetched (idOf : Nat → String) (packages : OrderedMap Stored)
    (source filename : String) :
    let compiler : Compiler := ⟨idOf, .ofStored packages⟩
    let fetched := (compiler.compile source filename [] {}).2.fetched
    compiler.Finishes source filename [] {} (compiler.compile source filename [] {}) ∧
      fetched.Nodup ∧
      (∀ location, location ∈ fetched ↔ location.endsWith fileExtension = true ∧
        Reached (.ofStored packages) source filename location) ∧
      Walks (.ofStored packages) [] (Node.locationsOfAll (statementsOf source filename))
        fetched := by
  intro compiler fetched
  have hwalk := compile_walks idOf packages source filename
  exact ⟨compile_finishes idOf packages source filename [] {}, hwalk.nodup List.nodup_nil,
    fun location => hwalk.mem_iff, hwalk⟩

/-- Packages that ask for each other or for themselves, one that is no recipe, one that breaks down
and one that is missing are each fetched once. -/
example :
    let packages : OrderedMap Stored :=
      ⟨[("a.fiz", .text "@\"b.fiz\"\n@\"c.fiz\"\n@\"a.fiz\""),
        ("b.fiz", .text "x = @\"a.fiz\"\n@\"d.fiz\"\n@\"e.txt\""),
        ("c.fiz", .text "@\"f.fiz\" ("), ("d.fiz", .broken "no"), ("f.fiz", .text "f()")]⟩
    ((Compiler.mk toString (.ofStored packages)).compile "@\"a.fiz\"\n@\"g.fiz\"" "main.fiz" []
      {}).2.fetched = ["a.fiz", "b.fiz", "d.fiz", "c.fiz", "g.fiz"] := by
  decide +kernel

end Fetched

end Compile

end RecipeGraph
