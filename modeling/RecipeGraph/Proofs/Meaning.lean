import RecipeGraph.Proofs.Dependence
import RecipeGraph.Proofs.Ledger
import RecipeGraph.Proofs.LoadingCases

/-!
What a package means, whoever asks for it and whatever was done before: the scope that comes of
its text when all that the text asks for comes as it is meant, under ids of the package's own.
This is circular for packages that ask for one another. It is settled for those that are not
tangled.
-/
namespace RecipeGraph.Compile

open RecipeGraph.Graph Recipe Package

/-- A text is lowered for its owner alone. Requests are answered and leave no trace. -/
def alone (owner : Owner) (answers : String → Except Fault Scope) : Setting :=
  ⟨fun n => ownId (owner, n), [], some fun location _ world => (answers location, world)⟩

/-- What someone inside the chain is told who asks for a package. -/
def answer (mean : String → Except Fault Scope) (chain : List String) (location : String) :
    Except Fault Scope :=
  match refusal? location chain with
  | some fault => .error fault
  | none => mean location

section Answer

variable {mean : String → Except Fault Scope} {chain : List String} {location : String}

theorem answer_refused {fault : Fault} (h : refusal? location chain = some fault) :
    answer mean chain location = .error fault := by
  unfold answer
  rw [h]

theorem answer_meant (h : refusal? location chain = none) :
    answer mean chain location = mean location := by
  unfold answer
  rw [h]

theorem package_of_not_refused (h : refusal? location chain = none) :
    location ∉ chain ∧ location.endsWith fileExtension = true := by
  unfold refusal? at h
  split_ifs at h with hin hextension
  exact ⟨hin, hextension⟩

end Answer

section Meaning

variable (packages : OrderedMap Stored)

noncomputable def meaning (location : String) : Except Fault Scope :=
  match (Library.ofStored packages).fetch location with
  | .error fault => .error fault
  | .ok text =>
      let inside (asked : String) : Except Fault Scope :=
        if rank packages asked < rank packages location then meaning asked
        else .error (.loading asked)
      .ok (lowerRecipe (alone (.package location) (answer inside [location]))
        (Recipe.ofText text location).recipe.statements {}).scope
termination_by rank packages location

/-- What the text of a package is told when it asks for packages. -/
noncomputable def answerInside (location : String) : String → Except Fault Scope :=
  answer
    (fun asked =>
      if rank packages asked < rank packages location then meaning packages asked
      else .error (.loading asked))
    [location]

variable {packages} {location text : String}

theorem meaning_of_error {fault : Fault}
    (hfetch : (Library.ofStored packages).fetch location = .error fault) :
    meaning packages location = .error fault := by
  rw [meaning, hfetch]

theorem meaning_of_ok (hfetch : (Library.ofStored packages).fetch location = .ok text) :
    meaning packages location =
      .ok (lowerRecipe (alone (.package location) (answerInside packages location))
        (Recipe.ofText text location).recipe.statements {}).scope := by
  rw [meaning, hfetch]
  rfl

/-- Of those further out only the package itself can be asked for, so it makes no difference who
they are. -/
theorem answer_inside (h : (Library.ofStored packages).Untangled location) {chain : List String}
    (hleads : ∀ other ∈ chain, (Library.ofStored packages).Leads other location) {asked : String}
    (hasked : asked ∈ (Library.ofStored packages).asks location) :
    answer (meaning packages) (location :: chain) asked = answerInside packages location asked := by
  have hchain : asked ∈ location :: chain ↔ asked ∈ [location] := by
    rw [List.mem_singleton, List.mem_cons]
    constructor
    · rintro (heq | hin)
      · exact heq
      · exact h.only_itself (.single hasked) (hleads asked hin)
    · exact Or.inl
  have hrefusal : refusal? asked (location :: chain) = refusal? asked [location] := by
    unfold refusal?
    rw [if_congr hchain rfl rfl]
  unfold answerInside
  cases hcase : refusal? asked [location] with
  | some fault => rw [answer_refused (hrefusal.trans hcase), answer_refused hcase]
  | none =>
    have hother : asked ≠ location :=
      fun heq => (package_of_not_refused hcase).1 (List.mem_singleton.mpr heq)
    rw [answer_meant (hrefusal.trans hcase), answer_meant hcase,
      if_pos (rank_lt h hasked hother)]

end Meaning

open Classical in
/-- Brings in packages that nest to a depth below the given one, each of them made out of ids of
its own. What is not tangled is there as it is meant, and only the others are remembered. Of the
world around nothing but the cache is looked at or changed. -/
noncomputable def loadOwn (packages : OrderedMap Stored) : Nat → Loader
  | 0, location, _, world => (.error (.loading location), world)
  | depth + 1, location, chain, world =>
      if (Library.ofStored packages).Untangled location then
        (answer (meaning packages) chain location, world)
      else
        match refusal? location chain with
        | some fault => (.error fault, world)
        | none =>
            let remembered := remember location
              (fetchWith (Library.ofStored packages)
                (fun text => packageScope (fun n => ownId (.package location, n))
                  (loadOwn packages depth) location text (location :: chain))
                location)
              { cache := world.cache }
            (remembered.1, { world with cache := remembered.2.cache })

section LoadOwn

variable {packages : OrderedMap Stored} {location : String}

theorem loadOwn_untangled (h : (Library.ofStored packages).Untangled location) (depth : Nat)
    (chain : List String) (world : World) :
    loadOwn packages (depth + 1) location chain world =
      (answer (meaning packages) chain location, world) :=
  if_pos h

theorem loadOwn_tangled (h : ¬ (Library.ofStored packages).Untangled location) (depth : Nat)
    (chain : List String) (world : World) :
    loadOwn packages (depth + 1) location chain world =
      match refusal? location chain with
      | some fault => (.error fault, world)
      | none =>
          let remembered := remember location
            (fetchWith (Library.ofStored packages)
              (fun text => packageScope (fun n => ownId (.package location, n))
                (loadOwn packages depth) location text (location :: chain))
              location)
            { cache := world.cache }
          (remembered.1, { world with cache := remembered.2.cache }) :=
  if_neg h

end LoadOwn

end RecipeGraph.Compile
