import RecipeGraph.Proofs.Belongings
import RecipeGraph.Proofs.Notes

/-!
Merging a copy. The member that merges holds afterwards what either of the two held, where the copy
comes first, and the children of the copy become its own. All that is found below the copy is found
from it, and it finds what it found before wherever the copy has no say. Nobody else notices.
-/
namespace RecipeGraph

namespace OrderedMap

variable {α : Type}

/-- All that either map has, and the value that is added where both have a key. -/
def United (kept added united : OrderedMap α) : Prop :=
  ∀ key, united.get? key = (added.get? key).or (kept.get? key)

theorem united_merge {added : OrderedMap α} (h : added.Distinct) (kept : OrderedMap α) :
    kept.United added (kept.merge added) :=
  get?_merge h kept

theorem lookup_writeAll_or (key : String) (added entries : List (String × α)) :
    lookup key (writeAll added entries) =
      (lookup key (writeAll added [])).or (lookup key entries) := by
  induction added generalizing entries with
  | nil => rfl
  | cons first rest ih =>
    change lookup key (writeAll rest (write first.1 first.2 entries)) =
      (lookup key (writeAll rest (write first.1 first.2 []))).or (lookup key entries)
    rw [ih, ih (write first.1 first.2 []), lookup_write, lookup_write]
    by_cases hk : first.1 = key
    · simp [hk]
    · simp [hk, lookup]

/-- Writing over another map what had been written to an empty one. -/
theorem united_writeAll {kept added united : OrderedMap α} {entries : List (String × α)}
    (hadded : added.entries = writeAll entries [])
    (hunited : united.entries = writeAll entries kept.entries) : kept.United added united := by
  intro key
  unfold get?
  rw [hunited, hadded, lookup_writeAll_or]

end OrderedMap

namespace Graph

open OrderedMap

/-- The tables in which a path is looked up. -/
inductive Sought : {α : Type} → (Contents → OrderedMap α) → Prop
  | variableIds : Sought Contents.variableIds
  | variableLooks : Sought Contents.variableLooks
  | styles : Sought Contents.styles

theorem Sought.united {α : Type} {field : Contents → OrderedMap α} (hfield : Sought field)
    {other : Contents} (hother : other.Shelved) (contents : Contents) :
    (field contents).United (field other) (field (contents.merge other)) := by
  rw [hother.merge_eq]
  cases hfield with
  | variableIds => exact united_merge hother.distinctIds _
  | variableLooks => exact united_merge hother.distinctLooks _
  | styles => exact united_merge hother.distinctStyles _

/-- A member that has taken over all that another one held, and is otherwise as it was. -/
structure Member.Joint (taker given joint : Member) : Prop where
  vertices : taker.contents.vertices.United given.contents.vertices joint.contents.vertices
  edges : taker.contents.edges.United given.contents.edges joint.contents.edges
  variableIds :
    taker.contents.variableIds.United given.contents.variableIds joint.contents.variableIds
  variableLooks :
    taker.contents.variableLooks.United given.contents.variableLooks joint.contents.variableLooks
  styles : taker.contents.styles.United given.contents.styles joint.contents.styles
  bindings : taker.contents.bindings.United given.contents.bindings joint.contents.bindings
  children : taker.children.United given.children joint.children
  names : taker.names.United given.names joint.names
  packages : ∀ location, location ∈ joint.contents.packages ↔
    location ∈ taker.contents.packages ∨ location ∈ given.contents.packages
  id : joint.id = taker.id
  name : joint.name = taker.name
  look : joint.contents.look = taker.contents.look
  parent : joint.parent = taker.parent
  lineage : joint.lineage = taker.lineage

namespace Hierarchy

variable {h h' : Hierarchy} {n k p t : Nat} {member taker given : Member}

section Loose

/-- A member without a parent that does not lead to `t`. The name map of it has come of its
children. -/
structure Loose (h : Hierarchy) (p t : Nat) (given : Member) : Prop where
  linked : h.Linked
  find : h.get? p = some given
  top : given.parent = none
  names : given.names.entries = writeAll (h.borne given.children.values) []
  off : ∀ way, ¬ h.Descends p way t

theorem Linked.eq_of_descends_top (hlinked : h.Linked) (htop : h.IsTop p) {way : List Nat}
    (hway : h.Descends k way p) : k = p := by
  cases hway with
  | here => rfl
  | down _ hholds => exact absurd htop (hlinked.not_top_of_holds hholds)

/-- Below a member that nothing has changed below, everything is found as before. -/
theorem findBelow_congr {α : Type} (field : Contents → OrderedMap α) (path : Path)
    (hsame : ∀ way j, h.Descends k way j →
      (h'.get? j).map Member.body = (h.get? j).map Member.body) :
    h'.findBelow field path k = h.findBelow field path k := by
  have hfield : ∀ name, ((h'.get? k).bind fun member => (field member.contents).get? name) =
      (h.get? k).bind fun member => (field member.contents).get? name := by
    intro name
    have hself := congrArg (Option.bind · fun body => (field body.1).get? name)
      (hsame [] k .here)
    rwa [Option.bind_map, Option.bind_map] at hself
  induction path generalizing k with
  | nil => rfl
  | cons name rest ih =>
    cases rest with
    | nil => exact hfield name
    | cons next rest =>
      have hself := congrArg (Option.bind · fun body : Contents × OrderedMap Nat × OrderedMap String =>
        (body.2.2.get? name).bind body.2.1.get?) (hsame [] k .here)
      rw [Option.bind_map, Option.bind_map] at hself
      have hstep : ((h'.get? k).bind fun member =>
          (member.names.get? name).bind member.children.get?) =
            (h.get? k).bind fun member => (member.names.get? name).bind member.children.get? := hself
      unfold findBelow
      rw [hstep]
      cases hchild : (h.get? k).bind fun member =>
          (member.names.get? name).bind member.children.get? with
      | none => rfl
      | some child =>
        obtain ⟨member, hk, hnamed⟩ := Option.bind_eq_some_iff.mp hchild
        obtain ⟨id, -, hheld⟩ := Option.bind_eq_some_iff.mp hnamed
        have hholds : h.Holds k id child := ⟨member, hk, mem_of_get? hheld⟩
        have hbelow : ∀ way j, h.Descends child way j →
            (h'.get? j).map Member.body = (h.get? j).map Member.body :=
          fun way j hway => hsame _ j (hway.from_child hholds)
        refine ih hbelow fun name => ?_
        have hself := congrArg (Option.bind · fun body => (field body.1).get? name)
          (hbelow [] child .here)
        rwa [Option.bind_map, Option.bind_map] at hself

namespace Loose

variable (hloose : h.Loose p t given)

include hloose

theorem ne : t ≠ p := by
  rintro rfl
  exact hloose.off [] .here

theorem coming :
    (h.edit t (·.merge given.contents)).Coming t (some p) given.children.values :=
  coming_merge hloose.linked hloose.find hloose.ne hloose.off fun _ hholds =>
    hloose.linked.not_top_of_holds hholds ⟨given, hloose.find, hloose.top⟩

theorem ne_child (hk : k ∈ given.children.values) : t ≠ k := by
  rintro rfl
  obtain ⟨id, hholds⟩ := holds_of_mem_values hloose.find hk
  exact hloose.off _ (Descends.here.down hholds)

theorem filed_eq : h.filed given.children.values = given.children.entries := by
  have hentries : ∀ entry ∈ given.children.entries,
      (h.get? entry.2).map (fun member => (member.id, entry.2)) = some entry := by
    intro entry hentry
    obtain ⟨child, hchild, hid, -⟩ :=
      hloose.linked.held p entry.1 entry.2 ⟨given, hloose.find, hentry⟩
    rw [hchild, Option.map_some, hid]
  unfold filed OrderedMap.values
  rw [List.filterMap_map]
  calc given.children.entries.filterMap _ = given.children.entries.filterMap some :=
        List.filterMap_congr hentries
    _ = given.children.entries := List.filterMap_some ..

/-- The member that merges, afterwards. -/
theorem get?_taker (ht : h.get? t = some taker) : (h.merge t p).get? t = some
    { taker with
      contents := taker.contents.merge given.contents
      children := ⟨writeAll given.children.entries taker.children.entries⟩
      names := ⟨writeAll (h.borne given.children.values) taker.names.entries⟩ } := by
  have hsame : ∀ k ∈ given.children.values,
      (h.edit t (·.merge given.contents)).contentsAt k = h.contentsAt k := by
    intro k hk
    have hkt := hloose.ne_child hk
    simp [contentsAt_edit, hkt]
  rw [merge_eq hloose.find, hloose.coming.get?_target, get?_edit, ht, Option.map_some,
    Option.map_some, if_pos rfl]
  unfold joined
  rw [filed_congr h _ hsame, borne_congr h _ hsame, hloose.filed_eq]

/-- Who neither merges nor is merged keeps all but the parent, if that was the merged one. -/
theorem get?_other (hkt : t ≠ k) (hkp : p ≠ k) : ∃ noted : Member → List String,
    (h.merge t p).get? k = (h.get? k).map (fun other =>
      { other with
        parent := if k ∈ given.children.values then some t else other.parent
        lineage := noted other }) ∧
      ((∀ way, ¬ h.Descends p way k) → ∀ other, noted other = other.lineage) := by
  obtain ⟨noted, hget, hkept⟩ := hloose.coming.get?_aside hkt fun heq => hkp (Option.some.inj heq)
  refine ⟨noted, ?_, fun hoff => hkept fun m hm way hway => ?_⟩
  · rw [merge_eq hloose.find, hget, get?_edit, Option.map_map]
    congr 1
    funext other
    simp [hkt]
  · obtain ⟨id, hholds⟩ := holds_of_mem_values hloose.find hm
    exact hoff _ (((descends_edit _).mp hway).from_child hholds)

/-- Who leads to neither of the two finds what it found. -/
theorem findBelow_eq {α : Type} (field : Contents → OrderedMap α) (path : Path)
    (hkt : ∀ way, ¬ h.Descends k way t) (hkp : k ≠ p) :
    (h.merge t p).findBelow field path k = h.findBelow field path k := by
  refine findBelow_congr field path fun way j hway => ?_
  have htj : t ≠ j := by
    rintro rfl
    exact hkt way hway
  have hpj : p ≠ j := by
    rintro rfl
    exact hkp (hloose.linked.eq_of_descends_top ⟨given, hloose.find, hloose.top⟩ hway)
  obtain ⟨noted, hget, -⟩ := hloose.get?_other htj hpj
  rw [hget, Option.map_map]
  rfl

/-- A child of the merged member leads neither to it nor to the one that merges. -/
theorem findBelow_child {α : Type} (field : Contents → OrderedMap α) (path : Path)
    (hk : k ∈ given.children.values) :
    (h.merge t p).findBelow field path k = h.findBelow field path k := by
  obtain ⟨id, hholds⟩ := holds_of_mem_values hloose.find hk
  refine hloose.findBelow_eq field path (fun way hway => ?_) ?_
  · exact hloose.off _ (hway.from_child hholds)
  · rintro rfl
    exact hloose.linked.not_top_of_holds hholds ⟨given, hloose.find, hloose.top⟩

variable (hshelved : given.contents.Shelved)

include hshelved

theorem joint (ht : h.get? t = some taker) :
    ∃ joint, (h.merge t p).get? t = some joint ∧ taker.Joint given joint := by
  refine ⟨_, hloose.get?_taker ht, ?_⟩
  have hmaps := hshelved.merge_eq taker.contents
  have hchildren : given.children.Distinct := hloose.linked.distinct p given hloose.find
  exact {
    vertices := by
      rw [hmaps]
      exact united_merge hshelved.distinctVertices _
    edges := by
      rw [hmaps]
      exact united_merge hshelved.distinctEdges _
    variableIds := Sought.variableIds.united hshelved _
    variableLooks := Sought.variableLooks.united hshelved _
    styles := Sought.styles.united hshelved _
    bindings := by
      rw [hmaps]
      exact united_merge hshelved.distinctBindings _
    children := fun key => lookup_writeAll key taker.children.entries hchildren
    names := united_writeAll hloose.names rfl
    packages := fun _ => Contents.mem_packages_merge
    id := Contents.id_merge ..
    name := Contents.name_merge ..
    look := Contents.look_merge ..
    parent := rfl
    lineage := rfl }

variable {α : Type} {field : Contents → OrderedMap α} (hfield : Sought field)

include hfield

/-- What is found below the merged member is found from the one that merges. -/
theorem resolve_given (ht : h.get? t = some taker) {path : Path} {value : α}
    (hfound : h.findBelow field path p = some value) :
    (h.merge t p).resolve field t path = some value := by
  obtain ⟨joint, hjoint, hunion⟩ := hloose.joint hshelved ht
  have hbelow : (h.merge t p).findBelow field path t = some value := by
    have htaker := hloose.get?_taker ht
    cases path with
    | nil => cases hfound
    | cons name rest =>
      cases rest with
      | nil =>
        have hgiven : (field given.contents).get? name = some value := by
          simpa [findBelow, hloose.find] using hfound
        simp [findBelow, htaker, hfield.united hshelved taker.contents name, hgiven]
      | cons next rest =>
        unfold findBelow at hfound ⊢
        rw [hloose.find, Option.bind_some] at hfound
        rw [hjoint, Option.bind_some]
        cases hnamed : (given.names.get? name).bind given.children.get? with
        | none => simp [hnamed] at hfound
        | some child =>
          obtain ⟨id, hid, hchild⟩ := Option.bind_eq_some_iff.mp hnamed
          have hstep : (joint.names.get? name).bind joint.children.get? = some child := by
            rw [hunion.names name, hid, Option.some_or, Option.bind_some, hunion.children id,
              hchild, Option.some_or]
          rw [hnamed] at hfound
          rw [hstep]
          have hk : child ∈ given.children.values :=
            OrderedMap.mem_values.mpr ⟨id, mem_of_get? hchild⟩
          exact (hloose.findBelow_child field _ hk).trans hfound
  unfold resolve
  rw [resolveFrom]
  split
  · rename_i hnone
    rw [hjoint] at hnone
    cases hnone
  · rw [dif_neg List.not_mem_nil, hbelow]

theorem findBelow_single (ht : h.get? t = some taker) {name : String}
    (hbare : (field given.contents).get? name = none) :
    (h.merge t p).findBelow field [name] t = h.findBelow field [name] t := by
  simp [findBelow, hloose.get?_taker ht, ht, hfield.united hshelved taker.contents name, hbare]

omit hfield

/-- A path that starts with a child of its own leads where it led. -/
theorem findBelow_longer (ht : h.get? t = some taker) {name next : String} {rest : Path}
    (hbare : given.names.get? name = none)
    (hfree : ∀ id ∈ taker.names.get? name, given.children.get? id = none)
    (haway : ∀ id ∈ taker.names.get? name, ∀ child ∈ taker.children.get? id,
      ∀ way, ¬ h.Descends child way t) :
    (h.merge t p).findBelow field (name :: next :: rest) t =
      h.findBelow field (name :: next :: rest) t := by
  obtain ⟨joint, hjoint, hunion⟩ := hloose.joint hshelved ht
  unfold findBelow
  rw [hjoint, ht, Option.bind_some, Option.bind_some, hunion.names name, hbare, Option.none_or]
  cases hid : taker.names.get? name with
  | none => rfl
  | some id =>
    rw [Option.bind_some, Option.bind_some, hunion.children id, hfree id hid, Option.none_or]
    cases hchild : taker.children.get? id with
    | none => rfl
    | some child =>
      have hholds : h.Holds t id child := ⟨taker, ht, mem_of_get? hchild⟩
      refine hloose.findBelow_eq field _ (haway id hid child hchild) ?_
      rintro rfl
      exact hloose.linked.not_top_of_holds hholds ⟨given, hloose.find, hloose.top⟩

end Loose

section Copy

variable {scope : Scope}

theorem Depicts.ids_nodup (hlinked : h.Linked) (hscope : h.Depicts n scope) :
    (scope.children.map Scope.id).Nodup := by
  obtain ⟨member, hn, -⟩ := hscope.find
  have hentries := hscope.entries hlinked hn
  have hdistinct : (member.children.entries.map Prod.fst).Nodup := hlinked.distinct n member hn
  have hids : member.children.entries.map Prod.fst = (Scope.filed scope.children).map Prod.fst := by
    generalize member.children.entries = entries, Scope.filed scope.children = filed at hentries
    induction hentries with
    | nil => rfl
    | cons hfirst _ ih => rw [List.map_cons, List.map_cons, hfirst.1, ih]
  rw [hids] at hdistinct
  simpa [Scope.filed, Contents.keyed, Function.comp_def] using hdistinct

theorem names_copy_of_nodup (hnodup : (scope.children.map Scope.id).Nodup) :
    scope.copy.names.entries = writeAll (Scope.borne scope.copy.children) [] := by
  have hchildren : scope.copy.children = scope.children.map Scope.copy := by
    rw [Scope.copy_eq, Scope.children_foldl_attach]
    · rfl
    · change ([] ++ _ : List String).Nodup
      rwa [List.nil_append, Scope.ids_copies]
  rw [hchildren, Scope.copy_eq, Scope.names_attachAll]
  rfl

/-- A copy is tied to nobody that was there. -/
theorem loose_copy (hforest : h.Forest) (hn : n < h.members.length) (hfree : h.CircleFree n)
    (ht : t < h.members.length) : ∃ given, (h.copy n).Loose h.members.length t given := by
  obtain ⟨scope, hscope⟩ := exists_depicts hforest.linked hfree hn
  obtain ⟨hcopy, given, hgiven, htop⟩ := topDepicts_copy hforest hscope
  obtain ⟨-, hnames, hchildren⟩ := hcopy.of_member hgiven
  refine ⟨given, (hforest.copyWithin _ n).linked, hgiven, htop, ?_, fun way hway => ?_⟩
  · rw [← hnames, borne_of_depicts hchildren, names_copy_of_nodup (hscope.ids_nodup hforest.linked)]
  · exact absurd ((grown_copy h n).descends (Nat.le_refl _) hway) (Nat.not_le_of_lt ht)

end Copy

/-- What has become of the hierarchy `h` when `t` has taken over member `p`. -/
structure Absorbed (h h' : Hierarchy) (t p : Nat) (taker given : Member) : Prop where
  joint : ∃ joint, h'.get? t = some joint ∧ taker.Joint given joint
  children : ∀ k ∈ given.children.values, ∃ child moved, h.get? k = some child ∧
    h'.get? k = some moved ∧ moved.body = child.body ∧ moved.parent = some t
  others : ∀ k, k ≠ t → (∀ way, ¬ h.Descends p way k) → h'.get? k = h.get? k
  /-- What is found below `p` is found from `t`. -/
  found : ∀ {α : Type} {field : Contents → OrderedMap α}, Sought field →
    ∀ (path : Path) (value : α), h.findBelow field path p = some value →
      h'.resolve field t path = some value
  single : ∀ {α : Type} {field : Contents → OrderedMap α}, Sought field →
    ∀ name, (field given.contents).get? name = none →
      h'.findBelow field [name] t = h.findBelow field [name] t
  /-- A path that starts with the name of a child that `t` had, and does not come back to `t`. -/
  longer : ∀ {α : Type} {field : Contents → OrderedMap α}, Sought field →
    ∀ (name next : String) (rest : Path), given.names.get? name = none →
      (∀ id ∈ taker.names.get? name, given.children.get? id = none) →
      (∀ id ∈ taker.names.get? name, ∀ child ∈ taker.children.get? id,
        ∀ way, ¬ h.Descends child way t) →
      h'.findBelow field (name :: next :: rest) t = h.findBelow field (name :: next :: rest) t

theorem Loose.absorbed (hloose : h.Loose p t given) (hshelved : given.contents.Shelved)
    (ht : h.get? t = some taker) : Absorbed h (h.merge t p) t p taker given where
  joint := hloose.joint hshelved ht
  children k hk := by
    obtain ⟨id, hholds⟩ := holds_of_mem_values hloose.find hk
    obtain ⟨child, hchild, -⟩ := hloose.linked.held p id k hholds
    have hkp : p ≠ k := by
      rintro rfl
      exact hloose.linked.not_top_of_holds hholds ⟨given, hloose.find, hloose.top⟩
    obtain ⟨noted, hget, -⟩ := hloose.get?_other (hloose.ne_child hk) hkp
    rw [hchild, Option.map_some, if_pos hk] at hget
    exact ⟨child, _, hchild, hget, rfl, rfl⟩
  others k hk hoff := by
    have hkp : p ≠ k := by
      rintro rfl
      exact hoff [] .here
    have hnone : k ∉ given.children.values := by
      intro hmem
      obtain ⟨id, hholds⟩ := holds_of_mem_values hloose.find hmem
      exact hoff _ (Descends.here.down hholds)
    obtain ⟨noted, hget, hkept⟩ := hloose.get?_other (Ne.symm hk) hkp
    rw [hget]
    simp [hnone, hkept hoff]
  found hfield _ _ hfound := hloose.resolve_given hshelved hfield ht hfound
  single hfield _ hbare := hloose.findBelow_single hshelved hfield ht hbare
  longer _ _ _ _ hbare hfree haway := hloose.findBelow_longer hshelved ht hbare hfree haway

/-- Taking a copy over adds all that it holds, and changes nothing else. -/
theorem merge_of_copy (hreached : Reached h) (hn : n < h.members.length) (hfree : h.CircleFree n)
    (ht : h.get? t = some taker) :
    ∃ given, (h.copy n).get? h.members.length = some given ∧ given.parent = none ∧
      (∀ k < h.members.length, ∀ way, ¬ (h.copy n).Descends h.members.length way k) ∧
      Absorbed (h.copy n) ((h.copy n).merge t h.members.length) t h.members.length taker given := by
  obtain ⟨given, hloose⟩ := loose_copy hreached.forest hn hfree (lt_of_get? ht)
  have hshelved : given.contents.Shelved := by
    refine (hreached.copy n hfree).shelved h.members.length _ ?_
    unfold contentsAt
    rw [hloose.find]
    rfl
  have hkept := (grown_copy h n).kept t (lt_of_get? ht)
  refine ⟨given, hloose.find, hloose.top, fun k hk way hway => ?_,
    hloose.absorbed hshelved (hkept.trans ht)⟩
  exact absurd ((grown_copy h n).descends (Nat.le_refl _) hway) (Nat.not_le_of_lt hk)

/-- Member 1 has left its name when member 2 came in under its id, and member 2 is gone again. The
package is member 3, with a child of that id. -/
def faded : Hierarchy :=
  ((((((({} : Hierarchy).add { id := "t" } none).add { id := "c", name := "a" } (some 0)).add
    { id := "c", name := "b" } (some 0)).move 2 none).add { id := "p" } none).add
    { id := "c", name := "d" } (some 3)).edit 4 (Item.value "x" "n").put

theorem reached_faded : Reached faded :=
  ((((((Reached.start.add "t" "" {} none).add "c" "a" {} (some 0)).add "c" "b" {} (some 0)).move 2
    none).add "p" "" {} none).add "c" "d" {} (some 3)).put 4 (.value "x" "n")

theorem exists_depicts_of_children {ks : List Nat} {children : List Scope}
    (hn : (h.get? n).map (·.children.values) = some ks)
    (hks : List.Forall₂ h.Depicts ks children) : ∃ scope, h.Depicts n scope := by
  obtain ⟨member, hmember, rfl⟩ := Option.map_eq_some_iff.mp hn
  exact ⟨_, .intro hmember hks⟩

theorem circleFree_faded : faded.CircleFree 3 := by
  have hheld : (faded.get? 3).map (·.children.values) = some [4] := by cbv
  have hnone : (faded.get? 4).map (·.children.values) = some [] := by cbv
  obtain ⟨child, hchild⟩ := exists_depicts_of_children hnone .nil
  obtain ⟨scope, hscope⟩ := exists_depicts_of_children hheld (.cons hchild .nil)
  exact hscope.circleFree

theorem merge_of_copy_faded :
    3 < faded.members.length ∧ faded.CircleFree 3 ∧ (faded.get? 0).map Member.id = some "t" ∧
      ((faded.copy 3).merge 0 5).resolve Contents.variableIds 0 ["d", "x"] = some "n" := by
  have hlength : faded.members.length = 5 := by cbv
  have hid : (faded.get? 0).map Member.id = some "t" := by cbv
  obtain ⟨taker, htaker, -⟩ := Option.map_eq_some_iff.mp hid
  obtain ⟨given, -, -, -, habsorbed⟩ :=
    merge_of_copy reached_faded (n := 3) (by rw [hlength]; decide) circleFree_faded htaker
  rw [hlength] at habsorbed
  exact ⟨by rw [hlength]; decide, circleFree_faded, hid,
    habsorbed.found .variableIds ["d", "x"] "n" (by cbv)⟩

/-- Member 0 lies below its own child. -/
def looped : Hierarchy :=
  ((((({} : Hierarchy).add { id := "t", name := "b" } none).add { id := "k", name := "a" }
    (some 0)).move 0 (some 1)).add { id := "p" } none).edit 2 (Item.value "x" "n").put

/-- Paths of more than one name that start with no child of the copy lead where they led, if only
the copy and the one that merges have no child id in common. -/
def Undisturbed (h : Hierarchy) (n t : Nat) : Prop :=
  ∀ taker given, h.get? t = some taker → (h.copy n).get? h.members.length = some given →
    (∀ id ∈ given.children.keys, id ∉ taker.children.keys) →
      ∀ (name next : String) (rest : Path), given.names.get? name = none →
        ((h.copy n).merge t h.members.length).findBelow Contents.variableIds
          (name :: next :: rest) t =
            (h.copy n).findBelow Contents.variableIds (name :: next :: rest) t

/-- A path that comes back to the member that merges finds what has come, and so does one that
starts with a name for an id that is not there. -/
theorem merge_disturbs :
    (Reached looped ∧ looped.CircleFree 2 ∧ ¬ Undisturbed looped 2 0) ∧
      Reached faded ∧ faded.CircleFree 3 ∧ ¬ Undisturbed faded 3 0 := by
  refine ⟨⟨?_, ?_, ?_⟩, reached_faded, circleFree_faded, ?_⟩
  · exact ((((Reached.start.add "t" "b" {} none).add "k" "a" {} (some 0)).move 0 (some 1)).add
      "p" "" {} none).put 2 (.value "x" "n")
  · have hnone : (looped.get? 2).map (·.children.values) = some [] := by cbv
    obtain ⟨scope, hscope⟩ := exists_depicts_of_children hnone .nil
    exact hscope.circleFree
  · intro hundisturbed
    have hlength : looped.members.length = 3 := by cbv
    have hkeys : ((looped.get? 0).map (·.children.keys)) = some ["k"] := by cbv
    have hgiven : ((looped.copy 2).get? 3).map (fun member =>
        (member.children.keys, member.names.get? "a")) = some ([], none) := by cbv
    obtain ⟨taker, htaker, -⟩ := Option.map_eq_some_iff.mp hkeys
    obtain ⟨given, hfind, hpair⟩ := Option.map_eq_some_iff.mp hgiven
    obtain ⟨hempty, hbare⟩ := Prod.mk.inj hpair
    have hsame := hundisturbed taker given htaker (hlength ▸ hfind) (by simp [hempty]) "a" "b" ["x"]
      hbare
    rw [hlength] at hsame
    have hafter : ((looped.copy 2).merge 0 3).findBelow Contents.variableIds ["a", "b", "x"] 0 =
        some "n" := by cbv
    have hbefore : (looped.copy 2).findBelow Contents.variableIds ["a", "b", "x"] 0 = none := by cbv
    rw [hafter, hbefore] at hsame
    cases hsame
  · intro hundisturbed
    have hlength : faded.members.length = 5 := by cbv
    have hkeys : ((faded.get? 0).map (·.children.keys)) = some [] := by cbv
    have hgiven : ((faded.copy 3).get? 5).map (fun member => member.names.get? "a") =
        some none := by cbv
    obtain ⟨taker, htaker, hempty⟩ := Option.map_eq_some_iff.mp hkeys
    obtain ⟨given, hfind, hbare⟩ := Option.map_eq_some_iff.mp hgiven
    have hsame := hundisturbed taker given htaker (hlength ▸ hfind) (by simp [hempty]) "a" "x" []
      hbare
    rw [hlength] at hsame
    have hafter : ((faded.copy 3).merge 0 5).findBelow Contents.variableIds ["a", "x"] 0 =
        some "n" := by cbv
    have hbefore : (faded.copy 3).findBelow Contents.variableIds ["a", "x"] 0 = none := by cbv
    rw [hafter, hbefore] at hsame
    cases hsame

end Loose

end Hierarchy

end Graph

end RecipeGraph
