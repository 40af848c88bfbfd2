import RecipeGraph.Proofs.ParallelLowering
import Mathlib.Data.List.Nodup

/-!
Ways in which two scopes under construction belong together. One may be the other under other
ids, up to a difference that no path shows, such as a location noted somewhere. Or one may have
begun with something in it, while the other begins empty and holds what is added: then the first
is always the beginning with the second merged into it.
-/
namespace RecipeGraph

open RecipeGraph.Graph

namespace Graph.Scope

/-- A location is noted in the scope at a place, which is given by the positions of the children
on the way there. Nothing else differs. -/
inductive Noted (location : String) : List Nat → Scope → Scope → Prop
  | here (scope : Scope) : Noted location [] scope (scope.mapContents (·.addPackage location))
  | inside {route : List Nat} {child child' : Scope} (contents : Contents)
      (names : OrderedMap String) (before after : List Scope)
      (h : Noted location route child child') :
      Noted location (before.length :: route) (mk contents names (before ++ child :: after))
        (mk contents names (before ++ child' :: after))

/-- Looking up does not depend on the packages noted. -/
def Blind {α : Type} (member : Contents → OrderedMap α) : Prop :=
  ∀ contents location, member (contents.addPackage location) = member contents

theorem blind_variableIds : Blind Contents.variableIds := by
  intro contents location
  unfold Contents.addPackage
  split <;> rfl

theorem blind_variableLooks : Blind Contents.variableLooks := by
  intro contents location
  unfold Contents.addPackage
  split <;> rfl

theorem blind_styles : Blind Contents.styles := by
  intro contents location
  unfold Contents.addPackage
  split <;> rfl

/-- Differences that are kept by all that is done to a scope and that no path shows. -/
structure Unseen (differ : Scope → Scope → Prop) : Prop where
  id : ∀ {scope scope'}, differ scope scope' → scope'.id = scope.id
  name : ∀ {scope scope'}, differ scope scope' → scope'.name = scope.name
  below : ∀ {scope scope'}, differ scope scope' → ∀ {α : Type} {member : Contents → OrderedMap α},
    Blind member → ∀ path, scope'.findBelow member path = scope.findBelow member path
  edit : ∀ {scope scope'}, differ scope scope' → ∀ edit : Edit,
    differ (scope.mapContents edit.apply) (scope'.mapContents edit.apply)
  attach : ∀ {scope scope'}, differ scope scope' → ∀ {child : Scope},
    child.id ∉ scope.children.map Scope.id → differ (scope.attach child) (scope'.attach child)

theorem unseen_eq : Unseen Eq where
  id h := by rw [h]
  name h := by rw [h]
  below h _ _ _ _ := by rw [h]
  edit h _ := by rw [h]
  attach h _ _ := by rw [h]

/-- The style of a scope itself is given when it is opened. -/
theorem unseen_styled (look : Look) :
    Unseen fun scope scope' => scope' = scope ∧ scope.contents.look = look where
  id h := by rw [h.1]
  name h := by rw [h.1]
  below h _ _ _ _ := by rw [h.1]
  edit h edit := by
    refine ⟨by rw [h.1], ?_⟩
    rw [contents_mapContents, ← h.2]
    cases edit <;> rfl
  attach h _ _ := ⟨by rw [h.1], h.2⟩

section Noted

variable {location : String} {route : List Nat} {scope scope' child child' : Scope}

theorem Noted.id (h : Noted location route scope scope') : scope'.id = scope.id := by
  cases h with
  | here =>
    unfold Scope.id
    rw [contents_mapContents, Contents.addPackage_id]
  | inside contents names before after h => rfl

theorem Noted.name (h : Noted location route scope scope') : scope'.name = scope.name := by
  cases h with
  | here =>
    unfold Scope.name Contents.addPackage
    rw [contents_mapContents]
    split <;> rfl
  | inside contents names before after h => rfl

/-- Children of the same id in the same place. -/
theorem ids_swap {child child' : Scope} (hid : child'.id = child.id) (before after : List Scope) :
    (before ++ child' :: after).map Scope.id = (before ++ child :: after).map Scope.id := by
  rw [List.map_append, List.map_append, List.map_cons, List.map_cons, hid]

theorem Noted.findBelow (h : Noted location route scope scope') {α : Type}
    {member : Contents → OrderedMap α} (hblind : Blind member) (path : Path) :
    scope'.findBelow member path = scope.findBelow member path := by
  induction h generalizing path with
  | here scope =>
    match path with
    | [] => rfl
    | [name] =>
      unfold Scope.findBelow
      rw [contents_mapContents, hblind]
    | name :: next :: rest => exact findBelow_mapContents _ scope name next rest
  | @inside route child child' contents names before after h ih =>
    match path with
    | [] => rfl
    | [name] => rfl
    | name :: next :: rest =>
      simp only [Scope.findBelow, names_mk]
      cases names.get? name with
      | none => rfl
      | some id =>
        simp only [Option.bind_some, child?, children_mk, List.find?_append, List.find?_cons, h.id]
        cases before.find? (fun other => decide (other.id = id)) with
        | some earlier => rfl
        | none =>
          simp only [Option.none_or]
          cases decide (child.id = id) with
          | true => exact ih (next :: rest)
          | false => rfl

theorem Noted.edit (h : Noted location route scope scope') (edit : Edit) :
    Noted location route (scope.mapContents edit.apply) (scope'.mapContents edit.apply) := by
  cases h with
  | here =>
    have hswap : (scope.mapContents (·.addPackage location)).mapContents edit.apply =
        (scope.mapContents edit.apply).mapContents (·.addPackage location) := by
      obtain ⟨contents, names, children⟩ := scope
      exact congrArg (mk · names children) (edit.apply_addPackage contents location)
    rw [hswap]
    exact .here _
  | inside contents names before after h => exact .inside _ names before after h

theorem Noted.attach (h : Noted location route scope scope')
    (hfresh : child.id ∉ scope.children.map Scope.id) :
    Noted location route (scope.attach child) (scope'.attach child) := by
  cases h with
  | here =>
    have hswap : (scope.mapContents (·.addPackage location)).attach child =
        (scope.attach child).mapContents (·.addPackage location) := by
      cases scope
      rfl
    rw [hswap]
    exact .here _
  | @inside route inner inner' contents names before after h =>
    have hfresh' : child.id ∉
        (mk contents names (before ++ inner' :: after)).children.map Scope.id := by
      rw [children_mk, ids_swap h.id]
      exact hfresh
    have hplaced := placeChild_of_not_mem hfresh
    have hplaced' := placeChild_of_not_mem hfresh'
    unfold Scope.attach
    rw [hplaced, hplaced', children_mk, children_mk, List.append_assoc, List.append_assoc]
    exact .inside _ _ before (after ++ [child]) h

theorem unseen_noted (location : String) (route : List Nat) : Unseen (Noted location route) where
  id := Noted.id
  name := Noted.name
  below h _ _ hblind := h.findBelow hblind
  edit h := h.edit
  attach h _ := h.attach

/-- What is noted in a new child is noted in the scope it comes into. -/
theorem Noted.leave (h : Noted location route child child')
    (hfresh : child.id ∉ scope.children.map Scope.id) :
    Noted location (scope.children.length :: route) (scope.attach child) (scope.attach child') := by
  have hfresh' : child'.id ∉ scope.children.map Scope.id := by
    rw [h.id]
    exact hfresh
  unfold Scope.attach
  rw [placeChild_of_not_mem hfresh, placeChild_of_not_mem hfresh', h.id, h.name]
  exact .inside _ _ scope.children [] h

end Noted

theorem search_of_findBelow {α : Type} {member : Contents → OrderedMap α} {path : Path}
    {scope : Scope} {value : α} (h : scope.findBelow member path = some value)
    (outer : List Scope) : scope.search member path outer = some value := by
  cases outer with
  | nil => exact h
  | cons around further =>
    unfold search
    rw [h]
    rfl

end Graph.Scope

namespace Compile

section Mirrored

/-- The second scope is the first under other ids, up to some difference. -/
structure Mirrored (rename : String → String) (differ : Scope → Scope → Prop) (id : String)
    (scope scope' : Scope) : Prop where
  same : differ (scope.rename rename) scope'
  id : scope.id = id

variable {pairing : Pairing} {differ : Scope → Scope → Prop}

theorem bond_mirrored (hinj : Function.Injective pairing.rename) (hunseen : Scope.Unseen differ)
    (outer : List Scope) (id : String) :
    Bond pairing outer (outer.map (Scope.rename pairing.rename))
      (Mirrored pairing.rename differ id) := by
  have hids : ∀ {scope scope'}, Mirrored pairing.rename differ id scope scope' →
      (scope' :: outer.map (Scope.rename pairing.rename)).map Scope.id =
        ((scope :: outer).map Scope.id).map pairing.rename := by
    intro scope scope' h
    rw [List.map_cons, List.map_cons, List.map_cons, Scope.ids_rename, hunseen.id h.same,
      Scope.id_rename]
  have hsearch : ∀ {scope scope'}, Mirrored pairing.rename differ id scope scope' →
      ∀ {α : Type} {member : Contents → OrderedMap α}, Scope.Blind member → ∀ path outer',
      scope'.search member path outer' =
        (scope.rename pairing.rename).search member path outer' := by
    intro scope scope' h α member hblind path outer'
    exact Scope.search_congr (hunseen.id h.same) (hunseen.name h.same)
      (hunseen.below h.same hblind) path outer'
  constructor
  case distinct =>
    intro scope scope' h hnodup
    rw [hids h]
    exact hnodup.map hinj
  case apart =>
    intro scope scope' h x hx
    rw [hids h]
    intro hmem
    obtain ⟨y, hy, heq⟩ := List.mem_map.mp hmem
    exact hx (hinj heq ▸ hy)
  case element =>
    intro scope scope' h path
    left
    rw [hsearch h Scope.blind_variableIds]
    exact Scope.search_rename hinj (fun _ => rfl) path scope outer
  case look =>
    intro scope scope' h path _
    rw [hsearch h Scope.blind_variableLooks]
    exact Scope.search_rename_same hinj (fun _ => rfl) path scope outer
  case style =>
    intro scope scope' h path
    left
    rw [hsearch h Scope.blind_styles]
    exact Scope.search_rename_same hinj (fun _ => rfl) path scope outer
  case edit =>
    intro scope scope' h edit
    constructor
    · rw [Scope.rename_edit hinj]
      exact hunseen.edit h.same _
    · unfold Scope.id
      rw [Scope.contents_mapContents, Edit.id_apply]
      exact h.id
  case attach =>
    intro scope scope' h child hchild _
    refine ⟨?_, h.id⟩
    rw [Scope.rename_attach hinj]
    refine hunseen.attach h.same ?_
    rw [Scope.children_rename, Scope.ids_rename, Scope.id_rename]
    intro hmem
    obtain ⟨other, hother, heq⟩ := List.mem_map.mp hmem
    exact hchild (hinj heq ▸ hother)

end Mirrored

section Hosted

/-- The first scope, under other ids, is the host with the second scope merged into it. -/
structure Hosted (rename : String → String) (host : Scope) (root : String)
    (scope scope' : Scope) : Prop where
  merged : scope.rename rename = host.merge scope'
  regular : scope'.Regular
  apart : ∀ id ∈ scope'.children.map Scope.id, id ∉ host.children.map Scope.id
  root : scope'.id = root

variable {pairing : Pairing} {host : Scope} {root : String}

theorem Hosted.findBelow {scope scope' : Scope} (h : Hosted pairing.rename host root scope scope')
    {α : Type} {member : Contents → OrderedMap α}
    (hdistinct : ∀ contents, contents.Orderly → (member contents).Distinct)
    (hmerge : ∀ contents other : Contents,
      member (contents.merge other) = (member contents).merge (member other))
    {path : Path} {value : α}
    (hfound : scope'.findBelow member path = some value) :
    (scope.rename pairing.rename).findBelow member path = some value := by
  rw [h.merged]
  refine Scope.findBelow_merge h.regular h.apart ?_ hfound
  intro key value hvalue
  rw [hmerge, OrderedMap.get?_merge (hdistinct _ h.regular.plain.orderly), hvalue]
  rfl

/-- A scope that stays silent finds all it looks for by itself, and whatever surrounds the host
is never asked. -/
theorem bond_hosted (hinj : Function.Injective pairing.rename) (hsilent : pairing.silent)
    (hroot : ∀ id, pairing.rename id ≠ root) (outer : List Scope) :
    Bond pairing outer [] (Hosted pairing.rename host root) := by
  constructor
  case distinct =>
    intro scope scope' _ _
    exact List.nodup_singleton scope'.id
  case apart =>
    intro scope scope' h id _ hmem
    rw [List.map_cons, List.map_nil, List.mem_singleton, h.root] at hmem
    exact hroot id hmem
  case element =>
    intro scope scope' h path
    unfold Pairing.Found
    cases hfound : scope'.search Contents.variableIds path [] with
    | none => exact Or.inr ⟨hsilent, rfl⟩
    | some id =>
      left
      have hbelow := h.findBelow (fun _ horderly => horderly.distinctIds)
        Contents.variableIds_merge hfound
      rw [Scope.findBelow_rename hinj (fun _ => rfl)] at hbelow
      obtain ⟨original, horiginal, heq⟩ := Option.map_eq_some_iff.mp hbelow
      rw [Scope.search_of_findBelow horiginal, Option.map_some, heq]
  case look =>
    intro scope scope' h path hsome
    have hlook : (scope'.findBelow Contents.variableLooks path).isSome = true := by
      rw [h.regular.looks]
      exact hsome hsilent
    obtain ⟨look, hlook⟩ := Option.isSome_iff_exists.mp hlook
    have hbelow := h.findBelow (fun _ horderly => horderly.distinctLooks)
      Contents.variableLooks_merge hlook
    rw [Scope.findBelow_rename_same hinj (fun _ => rfl)] at hbelow
    rw [Scope.search_of_findBelow hbelow]
    exact hlook
  case style =>
    intro scope scope' h path
    unfold Pairing.Found
    cases hfound : scope'.search Contents.styles path [] with
    | none => exact Or.inr ⟨hsilent, rfl⟩
    | some properties =>
      left
      have hbelow := h.findBelow (fun _ horderly => horderly.distinctStyles)
        Contents.styles_merge hfound
      rw [Scope.findBelow_rename_same hinj (fun _ => rfl)] at hbelow
      exact (Scope.search_of_findBelow hbelow outer).symm
  case edit =>
    intro scope scope' h edit
    refine ⟨?_, h.regular.edit _, ?_, ?_⟩
    · rw [Scope.rename_edit hinj, h.merged, Scope.merge_edit h.regular]
    · rw [Scope.children_mapContents]
      exact h.apart
    · unfold Scope.id
      rw [Scope.contents_mapContents, Edit.id_apply]
      exact h.root
  case attach =>
    intro scope scope' h child hchild hregular
    have hids : ∀ x, x ∈ scope'.children.map Scope.id ∨ x ∈ host.children.map Scope.id →
        x ≠ pairing.rename child.id := by
      rintro x hx rfl
      have hmem : pairing.rename child.id ∈
          ((scope.rename pairing.rename).children.map Scope.id) := by
        rw [h.merged]
        unfold Scope.merge
        rw [Scope.mem_ids_foldl_attach, Scope.children_mapContents]
        exact hx
      rw [Scope.children_rename, Scope.ids_rename] at hmem
      obtain ⟨y, hy, heq⟩ := List.mem_map.mp hmem
      exact hchild (hinj heq ▸ hy)
    have hfresh : (child.rename pairing.rename).id ∉ scope'.children.map Scope.id := by
      rw [Scope.id_rename]
      exact fun hmem => hids _ (Or.inl hmem) rfl
    refine ⟨?_, h.regular.attach hregular hfresh, ?_, h.root⟩
    · rw [Scope.rename_attach hinj, h.merged, Scope.merge_attach hfresh]
    · intro x hx
      rcases Scope.mem_ids_placeChild.mp hx with rfl | hold
      · rw [Scope.id_rename]
        exact fun hmem => hids _ (Or.inr hmem) rfl
      · exact h.apart x hold

end Hosted

end Compile

end RecipeGraph
