import RecipeGraph.Proofs.Notes
import RecipeGraph.Proofs.Isolation
import RecipeGraph.Proofs.Surroundings

/-!
A package that is brought in twice in a row. The second time it comes as it came before, and all
that it brings is there already: each entry is written over by itself and keeps its place, and each
child is replaced by an equal one. So the repetition leaves no trace, neither in the scope nor in
what is done afterwards.
-/
namespace RecipeGraph

open RecipeGraph.Graph Recipe Package

namespace OrderedMap

variable {α : Type}

/-- Whatever is written to a name does not matter if more is written to it afterwards. -/
theorem write_writeAll_write {key : String} (value v : α) {added entries : List (String × α)}
    (hmem : key ∈ entries.map (·.1)) :
    write key value (writeAll added (write key v entries)) =
      write key value (writeAll added entries) := by
  induction added generalizing entries with
  | nil => exact write_write key value v entries
  | cons first rest ih =>
    obtain ⟨k, u⟩ := first
    change write key value (writeAll rest (write k u (write key v entries))) =
      write key value (writeAll rest (write k u entries))
    by_cases hk : k = key
    · subst hk
      rw [write_write]
    · rw [← write_comm v u (Ne.symm hk) hmem]
      exact ih ((mem_keys_insert (m := ⟨entries⟩)).mpr (Or.inr hmem))

/-- Writes to names that are there do not reach what comes in at the end. -/
theorem writeAll_append {added entries : List (String × α)} (last : List (String × α))
    (h : ∀ entry ∈ added, entry.1 ∈ entries.map (·.1)) :
    writeAll added (entries ++ last) = writeAll added entries ++ last := by
  induction added generalizing entries with
  | nil => rfl
  | cons first rest ih =>
    obtain ⟨hfirst, hrest⟩ := List.forall_mem_cons.mp h
    have hwrite : write first.1 first.2 (entries ++ last) =
        write first.1 first.2 entries ++ last := by
      clear h ih hrest
      induction entries with
      | nil => cases hfirst
      | cons entry others ih =>
        by_cases hk : entry.1 = first.1
        · simp [write, hk]
        · have hin : first.1 ∈ others.map (·.1) := by
            simpa [Ne.symm hk] using hfirst
          simpa [write, hk] using ih hin
    change writeAll rest (write first.1 first.2 (entries ++ last)) =
      writeAll rest (write first.1 first.2 entries) ++ last
    rw [hwrite]
    exact ih fun entry hentry =>
      (mem_keys_insert (m := ⟨entries⟩)).mpr (Or.inr (hrest entry hentry))

/-- By induction from the last write backwards: it either absorbs what was written to its name
before, or its name came in with it. -/
theorem writeAll_writeAll (added entries : List (String × α)) :
    writeAll added (writeAll added entries) = writeAll added entries := by
  induction added using List.reverseRecOn with
  | nil => rfl
  | append_singleton before last ih =>
    obtain ⟨key, value⟩ := last
    have hsnoc : ∀ e : List (String × α),
        writeAll (before ++ [(key, value)]) e = write key value (writeAll before e) :=
      fun e => List.foldl_append ..
    rw [hsnoc, hsnoc]
    generalize hwritten : writeAll before entries = written at ih ⊢
    by_cases hmem : key ∈ written.map (·.1)
    · rw [write_writeAll_write value value hmem, ih]
    · have hthere : ∀ entry ∈ before, entry.1 ∈ written.map (·.1) := by
        intro entry hentry
        rw [← hwritten]
        exact mem_keys_writeAll.mpr (Or.inl (List.mem_map_of_mem hentry))
      rw [write_of_not_mem value hmem, writeAll_append _ hthere, ih,
        ← write_of_not_mem value hmem, write_write]

theorem merge_merge (m other : OrderedMap α) : (m.merge other).merge other = m.merge other := by
  have hentries : ((m.merge other).merge other).entries = (m.merge other).entries := by
    simp only [entries_merge, writeAll_writeAll]
  exact congrArg OrderedMap.mk hentries

end OrderedMap

namespace Graph.Contents

open OrderedMap

theorem addPackage_of_mem {contents : Contents} {location : String}
    (h : location ∈ contents.packages) : contents.addPackage location = contents :=
  if_pos h

theorem foldl_addPackage_of_subset {contents : Contents} {locations : List String}
    (h : locations ⊆ contents.packages) : locations.foldl addPackage contents = contents := by
  induction locations with
  | nil => rfl
  | cons first rest ih =>
    obtain ⟨hfirst, hrest⟩ := List.cons_subset.mp h
    rw [List.foldl_cons, addPackage_of_mem hfirst]
    exact ih hrest

/-- To merge what is there already changes nothing. -/
theorem merge_of_settled {contents other : Contents}
    (hvertices : writeAll (keyed Vertex.id other.vertices.values) contents.vertices.entries =
      contents.vertices.entries)
    (hedges : writeAll (keyed Edge.id other.edges.values) contents.edges.entries =
      contents.edges.entries)
    (hstyles : contents.styles.merge other.styles = contents.styles)
    (hbindings : contents.bindings.merge other.bindings = contents.bindings)
    (hids : contents.variableIds.merge other.variableIds = contents.variableIds)
    (hlooks : contents.variableLooks.merge other.variableLooks = contents.variableLooks)
    (hpackages : other.packages ⊆ contents.packages) : contents.merge other = contents := by
  unfold merge
  simp only [foldl_addVertex, foldl_addEdge, hvertices, hedges, hstyles, hbindings, hids, hlooks,
    foldl_addPackage_of_subset hpackages]

theorem merge_merge (contents other : Contents) :
    (contents.merge other).merge other = contents.merge other := by
  refine merge_of_settled ?_ ?_ ?_ ?_ ?_ ?_ fun location hin => mem_packages_merge.mpr (Or.inr hin)
  · rw [vertices_merge, writeAll_writeAll]
  · rw [edges_merge, writeAll_writeAll]
  · rw [styles_merge, OrderedMap.merge_merge]
  · rw [bindings_merge, OrderedMap.merge_merge]
  · rw [variableIds_merge, OrderedMap.merge_merge]
  · rw [variableLooks_merge, OrderedMap.merge_merge]

end Graph.Contents

namespace Graph.Scope

open OrderedMap

/-- Children under their ids. -/
def filed (children : List Scope) : List (String × Scope) :=
  Contents.keyed id children

/-- The names that children bear, with their ids. -/
def borne (children : List Scope) : List (String × String) :=
  (children.filter (·.name ≠ "")).map fun child => (child.name, child.id)

theorem filed_placeChild (child : Scope) (children : List Scope) :
    filed (placeChild child children) = write child.id child (filed children) := by
  induction children with
  | nil => rfl
  | cons first rest ih =>
    by_cases hid : first.id = child.id
    · simp [placeChild, filed, Contents.keyed, write, hid]
    · simp only [filed, Contents.keyed] at ih
      simp [placeChild, filed, Contents.keyed, write, hid, ih]

theorem filed_injective : Function.Injective filed := by
  intro children others h
  have hvalues := congrArg (List.map Prod.snd) h
  have hself : Prod.snd ∘ (fun item : Scope => (item.id, item)) = fun item => item := rfl
  simpa [filed, Contents.keyed, hself] using hvalues

theorem filed_attachAll (added : List Scope) (scope : Scope) :
    filed (added.foldl attach scope).children = writeAll (filed added) (filed scope.children) := by
  induction added generalizing scope with
  | nil => rfl
  | cons first rest ih =>
    rw [List.foldl_cons, ih, children_attach, filed_placeChild]
    rfl

theorem names_attachAll (added : List Scope) (scope : Scope) :
    (added.foldl attach scope).names.entries = writeAll (borne added) scope.names.entries := by
  induction added generalizing scope with
  | nil => rfl
  | cons first rest ih =>
    rw [List.foldl_cons, ih, names_attach]
    by_cases hname : first.name = ""
    · simp [borne, hname]
    · simp [borne, hname, writeAll, OrderedMap.insert]

/-- The children that came with a merge take the same places and the same names again. -/
theorem merge_merge (scope other : Scope) :
    (scope.merge other).merge other = scope.merge other := by
  have hcontents : ((scope.merge other).merge other).contents = (scope.merge other).contents := by
    rw [contents_merge, contents_merge, Contents.merge_merge]
  have hentries : ((scope.merge other).merge other).names.entries =
      (scope.merge other).names.entries := by
    unfold merge
    rw [names_attachAll, names_mapContents, names_attachAll, writeAll_writeAll]
  have hnames : ((scope.merge other).merge other).names = (scope.merge other).names :=
    congrArg OrderedMap.mk hentries
  have hchildren : ((scope.merge other).merge other).children = (scope.merge other).children := by
    apply filed_injective
    unfold merge
    rw [filed_attachAll, children_mapContents, filed_attachAll, writeAll_writeAll]
  rw [← mk_eta ((scope.merge other).merge other), hcontents, hnames, hchildren, mk_eta]

end Graph.Scope

namespace Compile

/-- What has come once comes again, and nothing else happens. -/
theorem loadWithin_again {idOf : Nat → String} {library : Library} {depth : Nat}
    {location : String} {chain : List String} {world after : World} {package : Scope}
    (h : loadWithin idOf library depth location chain world = (.ok package, after)) :
    loadWithin idOf library depth location chain after = (.ok package, after) := by
  cases depth with
  | zero => cases h
  | succ depth =>
    cases hrefusal : refusal? location chain with
    | some fault =>
      rw [loadWithin_refused hrefusal] at h
      cases h
    | none =>
      rw [loadWithin_admitted hrefusal] at h ⊢
      cases recalled_of_eq h with
      | loaded hfound => exact remember_loaded hfound _
      | compiled => exact remember_loaded ((get?_record ..).trans (if_pos rfl)) _

section Repeated

variable {compiler : Compiler} {chain : List String} {location : String} {work : Work}
  {package : Scope} {after : World}

/-- The work when the package was asked for and has come. -/
def Work.withPackage (work : Work) (location : String) (package : Scope) (after : World) : Work :=
  { work.update (·.addPackage location) with
    world := after
    scope := (work.scope.mapContents (·.addPackage location)).merge package.copy }

theorem lowerPackage_coming
    (h : compiler.loader location chain work.world = (.ok package, after))
    (extent : Option Span) :
    lowerPackage (compiler.setting chain) location none extent work =
      work.withPackage location package after := by
  rw [lowerPackage_present (bringIn_arrived rfl h extent)]
  rfl

/-- The location is noted, the package is remembered, and its contents are there. -/
theorem withPackage_again (work : Work) (location : String) (package : Scope) (after : World) :
    (work.withPackage location package after).withPackage location package after =
      work.withPackage location package after := by
  let scope := (work.scope.mapContents (·.addPackage location)).merge package.copy
  have hnoted : location ∈ scope.contents.packages := by
    rw [Scope.contents_merge, Scope.contents_mapContents, Contents.mem_packages_merge]
    exact Or.inl (Contents.mem_addPackage.mpr (Or.inr rfl))
  have hscope : scope.mapContents (·.addPackage location) = scope := by
    rw [← Scope.mk_eta (scope.mapContents _), Scope.contents_mapContents, Scope.names_mapContents,
      Scope.children_mapContents, Contents.addPackage_of_mem hnoted, Scope.mk_eta]
  have hmerged : (scope.mapContents (·.addPackage location)).merge package.copy = scope := by
    rw [hscope]
    exact Scope.merge_merge _ _
  exact congrArg (Work.mk after work.diagnostics) hmerged

end Repeated

/-- A package that is brought in once more right after it has come makes no difference at all,
wherever the statements stand and whatever follows: the scopes with their ids and the order of
their entries are the same, and so are the diagnostics, the ids given out, what is remembered of
packages, and what was fetched. -/
theorem repetition_without_effect (compiler : Compiler) (chain : List String) (world : World)
    (enclosures : List Enclosure) (first second : List Node) (location : String)
    (extent extent' : Option Span)
    (hcomes :
      let setting := compiler.setting chain
      let place := arrive setting enclosures [] (opening setting world)
      ∃ package after, compiler.loader location chain
        (lowerAll setting place.1 first place.2).world = (.ok package, after)) :
    lowerRecipe (compiler.setting chain)
        (surround enclosures (first ++
          .package location none extent :: .package location none extent' :: second)) world =
      lowerRecipe (compiler.setting chain)
        (surround enclosures (first ++ .package location none extent :: second)) world := by
  obtain ⟨package, after, hload⟩ := hcomes
  rw [lowerRecipe_surround, lowerRecipe_surround]
  dsimp only at hload ⊢
  generalize arrive (compiler.setting chain) enclosures [] _ = place at hload ⊢
  generalize lowerAll (compiler.setting chain) place.1 first place.2 = reached at hload ⊢
  have hagain : compiler.loader location chain
      (reached.withPackage location package after).world = (.ok package, after) :=
    loadWithin_again hload
  have hlowered : lowerAll (compiler.setting chain) place.1
      (.package location none extent :: .package location none extent' :: second) reached =
        lowerAll (compiler.setting chain) place.1 (.package location none extent :: second)
          reached := by
    simp only [lowerAll, lower, lowerPackage_coming hload, lowerPackage_coming hagain,
      withPackage_again]
  rw [hlowered]

/-- A package that brings in another one and a nested scope. -/
def layered : Library :=
  .ofStored ⟨[("lib.fiz", .text "@\"base.fiz\"\na[x = f()]"), ("base.fiz", .text "y = g()")]⟩

/-- In a nested scope that has a nested scope of that name itself, and uses what came. -/
theorem repetition_without_effect_nested :
    let setting := (Compiler.mk tally layered).setting []
    let enclosures : List Enclosure := [⟨[], none, "room", none, [], none, none, none, []⟩]
    let first := (Recipe.ofText "a[x = h()]" "main.fiz").recipe.statements
    let second := (Recipe.ofText "k(a.x, y)" "main.fiz").recipe.statements
    let package : Node := .package "lib.fiz" none none
    let place := arrive setting enclosures [] (opening setting {})
    let repeated := lowerRecipe setting
      (surround enclosures (first ++ package :: package :: second)) {}
    (setting.loader.map fun loader => (loader "lib.fiz" []
      (lowerAll setting place.1 first place.2).world).1.isOk) = some true ∧
      repeated = lowerRecipe setting (surround enclosures (first ++ package :: second)) {} ∧
      repeated.scope.all.map (fun part => (part.name, part.contents.edges.size)) =
        [("", 0), ("room", 2), ("a", 0), ("a", 0)] := by
  intro setting enclosures first second package place repeated
  have hcomes : ((Compiler.mk tally layered).loader "lib.fiz" []
      (lowerAll setting place.1 first place.2).world).1.isOk = true := by decide +kernel
  refine ⟨congrArg some hcomes, repetition_without_effect (Compiler.mk tally layered) [] {}
    enclosures first second "lib.fiz" none none ?_, by decide +kernel⟩
  change ∃ package after, (Compiler.mk tally layered).loader "lib.fiz" []
    (lowerAll setting place.1 first place.2).world = (.ok package, after)
  generalize (Compiler.mk tally layered).loader "lib.fiz" [] _ = loaded at hcomes
  obtain ⟨result, after⟩ := loaded
  cases result with
  | error fault => cases hcomes
  | ok package => exact ⟨package, after, rfl⟩

end Compile

end RecipeGraph
