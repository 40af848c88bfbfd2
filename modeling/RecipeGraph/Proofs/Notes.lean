import RecipeGraph.Proofs.Extension
import RecipeGraph.Proofs.FetchOrder
import RecipeGraph.Proofs.SideBySide
import Mathlib.Data.List.Sort
import Mathlib.Data.String.Basic

/-!
The locations that are noted in scopes. They are shown in order and each once, so that it makes no
difference when they came in. Two scopes may agree but for a location that is noted in the scope of
one id; no path shows that, and it stays like this whatever is done to both of them.
-/
namespace RecipeGraph

namespace Text

variable {texts others : List String}

theorem pairwise_insertSorted (h : texts.Pairwise (· < ·)) (text : String) :
    (insertSorted text texts).Pairwise (· < ·) := by
  induction texts with
  | nil => exact List.pairwise_singleton _ _
  | cons first rest ih =>
    obtain ⟨hfirst, hrest⟩ := List.pairwise_cons.mp h
    unfold insertSorted
    split_ifs with hsame hless
    · exact h
    · refine List.pairwise_cons.mpr ⟨?_, h⟩
      intro other hother
      rcases List.mem_cons.mp hother with rfl | hin
      · exact hless
      · exact lt_trans hless (hfirst other hin)
    · refine List.pairwise_cons.mpr ⟨?_, ih hrest⟩
      intro other hother
      rcases mem_insertSorted.mp hother with rfl | hin
      · exact lt_of_le_of_ne (not_lt.mp hless) (Ne.symm hsame)
      · exact hfirst other hin

theorem pairwise_sortedDistinct (texts : List String) :
    (sortedDistinct texts).Pairwise (· < ·) := by
  induction texts with
  | nil => exact List.Pairwise.nil
  | cons first rest ih => exact pairwise_insertSorted ih first

theorem sortedDistinct_congr (h : ∀ text, text ∈ texts ↔ text ∈ others) :
    sortedDistinct texts = sortedDistinct others := by
  refine (pairwise_sortedDistinct texts).eq_of_mem_iff (pairwise_sortedDistinct others) ?_
  intro text
  rw [mem_sortedDistinct, mem_sortedDistinct, h]

end Text

namespace Graph

namespace Contents

variable {contents contents' other : Contents} {id location text : String}

/-- The contents with their locations as they are shown. -/
def shown (contents : Contents) : Contents :=
  { contents with packages := Text.sortedDistinct contents.packages }

/-- The contents with the location noted, if the id is theirs. -/
def noting (id location : String) (contents : Contents) : Contents :=
  if contents.id = id then contents.addPackage location else contents

/-- Nothing but the locations that are noted may differ. -/
def LikeBut (contents contents' : Contents) : Prop :=
  contents' = { contents with packages := contents'.packages }

theorem LikeBut.symm (h : contents.LikeBut contents') : contents'.LikeBut contents := by
  unfold LikeBut at h ⊢
  rw [h]

theorem LikeBut.trans (h : contents.LikeBut contents') (h' : contents'.LikeBut other) :
    contents.LikeBut other := by
  unfold LikeBut at h h' ⊢
  rw [h', h]

theorem likeBut_addPackage (contents : Contents) (location : String) :
    contents.LikeBut (contents.addPackage location) := by
  unfold LikeBut addPackage
  split <;> rfl

theorem likeBut_noting (id location : String) (contents : Contents) :
    contents.LikeBut (contents.noting id location) := by
  unfold noting
  split
  · exact likeBut_addPackage contents location
  · rfl

theorem LikeBut.merge (h : contents.LikeBut contents') (other : Contents) :
    (contents.merge other).LikeBut (contents'.merge other) := by
  unfold LikeBut at h ⊢
  rw [merge_eq contents, merge_eq contents', h]

theorem mem_addPackage :
    text ∈ (contents.addPackage location).packages ↔
      text ∈ contents.packages ∨ text = location := by
  unfold addPackage
  split
  · rename_i hin
    refine ⟨Or.inl, ?_⟩
    rintro (h | rfl)
    · exact h
    · exact hin
  · simp

theorem mem_noting : text ∈ (contents.noting id location).packages ↔
    text ∈ contents.packages ∨ contents.id = id ∧ text = location := by
  unfold noting
  split
  · rename_i hid
    rw [mem_addPackage]
    simp [hid]
  · rename_i hid
    simp [hid]

theorem mem_shown : text ∈ contents.shown.packages ↔ text ∈ contents.packages :=
  Text.mem_sortedDistinct

theorem mem_packages_merge :
    text ∈ (contents.merge other).packages ↔ text ∈ contents.packages ∨ text ∈ other.packages := by
  have hfold : ∀ (locations : List String) (contents : Contents),
      text ∈ (locations.foldl addPackage contents).packages ↔
        text ∈ contents.packages ∨ text ∈ locations := by
    intro locations
    induction locations with
    | nil => simp
    | cons first rest ih =>
      intro contents
      rw [List.foldl_cons, ih, mem_addPackage, List.mem_cons, or_assoc]
  have hmerged : (contents.merge other).packages =
      (other.packages.foldl addPackage contents).packages := by
    refine packages_foldl_addPackage other.packages ?_
    rw [foldl_addEdge, foldl_addVertex]
  rw [hmerged, hfold]

theorem shown_congr (h : contents.LikeBut contents')
    (hmem : ∀ text, text ∈ contents'.packages ↔ text ∈ contents.packages) :
    contents'.shown = contents.shown := by
  unfold LikeBut at h
  unfold shown
  rw [Text.sortedDistinct_congr hmem, h]

theorem likeBut_shown (contents : Contents) : contents.LikeBut contents.shown :=
  rfl

/-- What is shown with the location noted. -/
def noted (id location : String) (contents : Contents) : Contents :=
  (contents.noting id location).shown

theorem likeBut_noted (id location : String) (contents : Contents) :
    contents.LikeBut (contents.noted id location) :=
  (likeBut_noting id location contents).trans (likeBut_shown _)

theorem mem_noted : text ∈ (contents.noted id location).packages ↔
    text ∈ contents.packages ∨ contents.id = id ∧ text = location :=
  mem_shown.trans mem_noting

theorem noted_addPackage (id location there : String) (contents : Contents) :
    (contents.addPackage there).noted id location =
      ((contents.noted id location).addPackage there).shown := by
  refine shown_congr ?_ fun text => ?_
  · exact (likeBut_addPackage _ there).symm.trans ((likeBut_noted id location contents).symm.trans
      ((likeBut_addPackage contents there).trans (likeBut_noting id location _)))
  · rw [mem_noting, mem_addPackage, mem_addPackage, mem_noted, addPackage_id]
    tauto

theorem noted_merge (id location : String) (other contents : Contents) :
    (contents.merge other).noted id location =
      ((contents.noted id location).merge other).shown := by
  refine shown_congr ?_ fun text => ?_
  · exact ((likeBut_noted id location contents).symm.merge other).trans
      (likeBut_noting id location _)
  · rw [mem_noting, mem_packages_merge, mem_packages_merge, mem_noted, id_merge]
    tauto

theorem noted_edit (id location : String) (edit : Edit) (contents : Contents) :
    (edit.apply contents).noted id location = edit.apply (contents.noted id location) := by
  have hnoting : (edit.apply contents).noting id location =
      edit.apply (contents.noting id location) := by
    unfold noting
    rw [edit.id_apply]
    split
    · exact (edit.apply_addPackage contents location).symm
    · rfl
  unfold noted
  rw [hnoting]
  unfold shown
  rw [edit.packages_apply]
  cases edit <;> rfl

end Contents

namespace Scope

variable {f g : Contents → Contents} {scope scope' child : Scope}

mutual

/-- What a scope and all scopes in it hold by themselves is changed. -/
def mapAll (f : Contents → Contents) : Scope → Scope
  | mk contents names children => mk (f contents) names (mapEach f children)

def mapEach (f : Contents → Contents) : List Scope → List Scope
  | [] => []
  | scope :: rest => mapAll f scope :: mapEach f rest

end

theorem mapEach_eq_map (f : Contents → Contents) (scopes : List Scope) :
    mapEach f scopes = scopes.map (mapAll f) := by
  induction scopes with
  | nil => rfl
  | cons first rest ih => rw [mapEach, ih, List.map_cons]

theorem mapAll_eq (f : Contents → Contents) (scope : Scope) :
    scope.mapAll f = mk (f scope.contents) scope.names (scope.children.map (mapAll f)) := by
  obtain ⟨contents, names, children⟩ := scope
  rw [mapAll, mapEach_eq_map]
  rfl

theorem mapAll_congr (h : ∀ part ∈ scope.all, f part.contents = g part.contents) :
    scope.mapAll f = scope.mapAll g := by
  induction scope using Scope.induction with
  | step contents names children ih =>
    have hchildren : children.map (mapAll f) = children.map (mapAll g) :=
      List.map_congr_left fun child hchild =>
        ih child hchild fun part hpart => h part (mem_all_of_child hchild hpart)
    rw [mapAll_eq, mapAll_eq, h _ (self_mem_all _), children_mk, hchildren]

theorem mapAll_id (scope : Scope) : scope.mapAll (fun contents => contents) = scope := by
  induction scope using Scope.induction with
  | step contents names children ih =>
    have hchildren : children.map (mapAll fun contents => contents) = children :=
      (List.map_congr_left ih).trans (List.map_id' children)
    rw [mapAll_eq, children_mk, hchildren, names_mk, contents_mk]

theorem mapAll_mapAll (f g : Contents → Contents) (scope : Scope) :
    (scope.mapAll f).mapAll g = scope.mapAll fun contents => g (f contents) := by
  induction scope using Scope.induction with
  | step contents names children ih =>
    have hchildren : (children.map (mapAll f)).map (mapAll g) =
        children.map (mapAll fun contents => g (f contents)) := by
      rw [List.map_map]
      exact List.map_congr_left ih
    rw [mapAll_eq f, mapAll_eq g, mapAll_eq, children_mk, children_mk, hchildren]
    rfl

section Kept

variable (hid : ∀ contents : Contents, (f contents).id = contents.id)

include hid

theorem id_mapAll (scope : Scope) : (scope.mapAll f).id = scope.id := by
  rw [mapAll_eq]
  exact hid scope.contents

theorem find?_mapAll (scopes : List Scope) (x : String) :
    (scopes.map (mapAll f)).find? (·.id = x) = (scopes.find? (·.id = x)).map (mapAll f) := by
  have hsame : ((fun scope : Scope => decide (scope.id = x)) ∘ mapAll f) =
      fun scope => decide (scope.id = x) := by
    funext scope
    rw [Function.comp_apply, id_mapAll hid]
  rw [List.find?_map, hsame]

theorem findBelow_mapAll {α : Type} {member : Contents → OrderedMap α}
    (hmember : ∀ contents, member (f contents) = member contents) (path : Path) (scope : Scope) :
    (scope.mapAll f).findBelow member path = scope.findBelow member path := by
  induction path generalizing scope with
  | nil => rfl
  | cons name rest ih =>
    rw [mapAll_eq]
    cases rest with
    | nil =>
      rw [findBelow, findBelow, contents_mk, hmember]
    | cons next rest =>
      rw [findBelow, findBelow, names_mk]
      cases scope.names.get? name with
      | none => rfl
      | some x =>
        have hchild : (mk (f scope.contents) scope.names
            (scope.children.map (mapAll f))).child? x = (scope.child? x).map (mapAll f) :=
          find?_mapAll hid scope.children x
        rw [Option.bind_some, Option.bind_some, hchild]
        cases scope.child? x with
        | none => rfl
        | some child => exact ih child

theorem mapAll_attach (hname : ∀ contents : Contents, (f contents).name = contents.name)
    (scope child : Scope) : (scope.attach child).mapAll f =
      (scope.mapAll f).attach (child.mapAll f) := by
  have hplaced : ∀ scopes : List Scope, (placeChild child scopes).map (mapAll f) =
      placeChild (child.mapAll f) (scopes.map (mapAll f)) := by
    intro scopes
    induction scopes with
    | nil => rfl
    | cons first rest ih =>
      rw [List.map_cons, placeChild, placeChild, id_mapAll hid, id_mapAll hid]
      split
      · rfl
      · rw [List.map_cons, ih]
  have hchild : (child.mapAll f).name = child.name := by
    rw [mapAll_eq]
    exact hname child.contents
  unfold attach
  rw [mapAll_eq f (mk _ _ _), hchild, id_mapAll hid, children_mk, hplaced, mapAll_eq f scope]
  rfl

end Kept

/-- The scope with all locations as they are shown. -/
def shown (scope : Scope) : Scope :=
  scope.mapAll Contents.shown

/-- A document shows no more of the locations than that. -/
theorem jsonAt_shown (scope : Scope) (lineage : List String) :
    scope.shown.jsonAt lineage = scope.jsonAt lineage := by
  have hids : ∀ scope : Scope, scope.shown.id = scope.id := id_mapAll fun _ => rfl
  induction scope using Scope.induction generalizing lineage with
  | step contents names children ih =>
    have hchildren : jsonsAt lineage (children.map shown) = jsonsAt lineage children := by
      rw [jsonsAt_eq_map, jsonsAt_eq_map, List.map_map]
      refine List.map_congr_left fun child hchild => ?_
      rw [Function.comp_apply, hids, ih child hchild]
    have hpackages : Text.sortedDistinct (Text.sortedDistinct contents.packages) =
        Text.sortedDistinct contents.packages :=
      Text.sortedDistinct_congr fun _ => Text.mem_sortedDistinct
    have hshown : (mk contents names children).shown =
        mk contents.shown names (children.map shown) := mapAll_eq _ _
    rw [hshown, jsonAt, jsonAt, hchildren]
    unfold Contents.toJson Contents.shown
    rw [hpackages]

/-- The scope with the location noted in the scopes of the id. -/
def noting (id location : String) (scope : Scope) : Scope :=
  scope.mapAll (Contents.noting id location)

/-- There are scopes of the id, and the location is noted in all of them. -/
structure NotedIn (id location : String) (scope : Scope) : Prop where
  somewhere : ∃ part ∈ scope.all, part.id = id ∧ location ∈ part.contents.packages
  everywhere : ∀ part ∈ scope.all, part.id = id → location ∈ part.contents.packages

/-- The two scopes are the same when they are shown, once the location is noted in the scopes of
the id in both of them. -/
def SameNoting (id location : String) (scope scope' : Scope) : Prop :=
  (scope.noting id location).shown = (scope'.noting id location).shown

section Noting

variable {x location : String}

theorem shown_noting (x location : String) (scope : Scope) :
    (scope.noting x location).shown = scope.mapAll (Contents.noted x location) :=
  mapAll_mapAll _ _ scope

theorem sameNoting_iff : SameNoting x location scope scope' ↔
    scope.mapAll (Contents.noted x location) = scope'.mapAll (Contents.noted x location) := by
  unfold SameNoting
  rw [shown_noting, shown_noting]

/-- Where it is noted already, nothing changes. -/
theorem NotedIn.noting_eq (h : scope.NotedIn x location) : scope.noting x location = scope := by
  refine (mapAll_congr fun part hpart => ?_).trans (mapAll_id scope)
  unfold Contents.noting Contents.addPackage
  split_ifs with hid hin
  · rfl
  · exact absurd (h.everywhere part hpart hid) hin
  · rfl

theorem id_noted (contents : Contents) : (contents.noted x location).id = contents.id := by
  rw [Contents.likeBut_noted x location contents]

theorem name_noted (contents : Contents) : (contents.noted x location).name = contents.name := by
  rw [Contents.likeBut_noted x location contents]

theorem noted_unaware {α : Type} {member : Contents → OrderedMap α} (hunaware : Unaware member)
    (contents : Contents) : member (contents.noted x location) = member contents := by
  rw [Contents.likeBut_noted x location contents, hunaware]

/-- What is done to the scopes by themselves can be told from what is shown. -/
theorem SameNoting.mapContents (h : SameNoting x location scope scope')
    {edit : Contents → Contents} (after : Contents → Contents) (hedit : ∀ contents : Contents,
      (edit contents).noted x location = after (contents.noted x location)) :
    SameNoting x location (scope.mapContents edit) (scope'.mapContents edit) := by
  rw [sameNoting_iff, mapAll_eq _ scope, mapAll_eq _ scope', mk.injEq] at h
  obtain ⟨hcontents, hnames, hchildren⟩ := h
  rw [sameNoting_iff, mapAll_eq _ (scope.mapContents edit), mapAll_eq _ (scope'.mapContents edit)]
  simp only [contents_mapContents, names_mapContents, children_mapContents]
  rw [hedit, hedit, hcontents, hnames, hchildren]

theorem SameNoting.attach {child' : Scope} (h : SameNoting x location scope scope')
    (hchild : SameNoting x location child child') :
    SameNoting x location (scope.attach child) (scope'.attach child') := by
  rw [sameNoting_iff] at h hchild ⊢
  rw [mapAll_attach id_noted name_noted, mapAll_attach id_noted name_noted, h, hchild]

theorem SameNoting.attachAll (h : SameNoting x location scope scope') (children : List Scope) :
    SameNoting x location (children.foldl Scope.attach scope)
      (children.foldl Scope.attach scope') :=
  List.foldl_rel h fun _ _ _ _ hsame => hsame.attach rfl

theorem sameNoting_note (location : String) (scope : Scope) :
    SameNoting scope.id location (scope.mapContents (·.addPackage location)) scope := by
  have hnoted : (scope.contents.addPackage location).noted scope.id location =
      scope.contents.noted scope.id location := by
    refine Contents.shown_congr ?_ fun text => ?_
    · exact (Contents.likeBut_noting _ _ _).symm.trans
        ((Contents.likeBut_addPackage _ location).trans (Contents.likeBut_noting _ _ _))
    · rw [Contents.mem_noting, Contents.mem_noting, Contents.mem_addPackage,
        Contents.addPackage_id]
      have hid : scope.contents.id = scope.id := rfl
      tauto
  rw [sameNoting_iff, mapAll_eq _ (scope.mapContents _), mapAll_eq _ scope]
  simp only [contents_mapContents, names_mapContents, children_mapContents]
  rw [hnoted]

theorem harmless_noting (x location : String) : Harmless (SameNoting x location) where
  same _ := rfl
  id h := by
    have hid := congrArg Scope.id (sameNoting_iff.mp h)
    rwa [id_mapAll id_noted, id_mapAll id_noted, eq_comm] at hid
  below {scope scope'} h _ member hunaware path := by
    have hbelow := congrArg (findBelow member path) (sameNoting_iff.mp h)
    rwa [findBelow_mapAll id_noted (noted_unaware hunaware),
      findBelow_mapAll id_noted (noted_unaware hunaware), eq_comm] at hbelow
  edit h edit := h.mapContents edit.apply (Contents.noted_edit x location edit)
  note h there := h.mapContents (fun contents => (contents.addPackage there).shown)
    (Contents.noted_addPackage x location there)
  attach := SameNoting.attach
  merge h other :=
    (h.mapContents (fun contents => (contents.merge other.contents).shown)
      (Contents.noted_merge x location other.contents)).attachAll other.children

end Noting

end Scope

end Graph

end RecipeGraph
