import RecipeGraph.Proofs.Moves
import RecipeGraph.Proofs.Progress
import RecipeGraph.Proofs.RegularScopes

/-!
The same statements lowered twice, in different surroundings and under different ids. How the
two scopes belong together is left open; it is enough that what is looked up is found on both
sides, and that the scopes still belong together after they were given the same. The second
side may be one that has to stay silent, and is then followed only as long as it does. Nor is it
followed further than its ids are known to match.
-/
namespace RecipeGraph.Compile

open RecipeGraph.Graph Recipe

/-- Two ways to lower the same statements. -/
structure Pairing where
  first : Setting
  second : Setting
  /-- From the ids of the first side to those of the second. -/
  rename : String → String
  /-- Whether the second side has to stay silent. -/
  silent : Prop
  /-- What was reported on the first side alone. -/
  ahead : List Diagnostic
  /-- Ids of the first side count from here on. -/
  base : Nat
  /-- From these numbers on the ids match. -/
  start : Nat
  start' : Nat
  /-- How many ids the second side may give out. -/
  bound : Nat

namespace Pairing

structure Lawful (pairing : Pairing) : Prop where
  injective : Function.Injective pairing.rename
  empty : pairing.rename "" = ""
  distinct : Function.Injective pairing.first.idOf
  given : ∀ n, pairing.first.idOf n ≠ ""
  given' : ∀ n, pairing.second.idOf n ≠ ""
  supply : ∀ n, pairing.start' + n < pairing.bound →
    pairing.rename (pairing.first.idOf (pairing.start + n)) =
      pairing.second.idOf (pairing.start' + n)

/-- Both sides find the same, unless the second one finds nothing and must not say so. -/
def Found (pairing : Pairing) {α : Type} (first second : Option α) : Prop :=
  second = first ∨ pairing.silent ∧ second = none

/-- The second side can be followed up to here. -/
structure Calm (pairing : Pairing) (work : Work) : Prop where
  quiet : pairing.silent → work.diagnostics = []
  issued : work.world.issued ≤ pairing.bound

variable {pairing : Pairing}

theorem Found.or {α : Type} {found first second : Option α}
    (h : found = none → pairing.Found first second) :
    pairing.Found (found.or first) (found.or second) := by
  cases found with
  | none => exact h rfl
  | some value => exact Or.inl rfl

theorem Calm.before {work after : Work} (h : pairing.Calm after) (hlater : Work.Later work after) :
    pairing.Calm work :=
  ⟨fun hsilent => hlater.silent (h.quiet hsilent), Nat.le_trans hlater.issued h.issued⟩

theorem not_calm_report (hsilent : pairing.silent) (work : Work) (extent : Span)
    (problem : Problem) : ¬ pairing.Calm (work.report extent problem) :=
  fun hcalm => Work.report_not_silent work extent problem (hcalm.quiet hsilent)

end Pairing

/-- A way in which two scopes under construction belong together, inside given ones. -/
structure Bond (pairing : Pairing) (outer outer' : List Scope) (related : Scope → Scope → Prop) :
    Prop where
  distinct : ∀ {scope scope'}, related scope scope' →
    ((scope :: outer).map Scope.id).Nodup → ((scope' :: outer').map Scope.id).Nodup
  apart : ∀ {scope scope'}, related scope scope' →
    ∀ id ∉ (scope :: outer).map Scope.id, pairing.rename id ∉ (scope' :: outer').map Scope.id
  element : ∀ {scope scope'}, related scope scope' → ∀ path,
    pairing.Found ((scope.search Contents.variableIds path outer).map pairing.rename)
      (scope'.search Contents.variableIds path outer')
  look : ∀ {scope scope'}, related scope scope' → ∀ path,
    (pairing.silent → (scope'.search Contents.variableIds path outer').isSome) →
    scope'.search Contents.variableLooks path outer' =
      scope.search Contents.variableLooks path outer
  style : ∀ {scope scope'}, related scope scope' → ∀ path,
    pairing.Found (scope.search Contents.styles path outer)
      (scope'.search Contents.styles path outer')
  edit : ∀ {scope scope'}, related scope scope' → ∀ edit : Edit,
    related (scope.mapContents edit.apply) (scope'.mapContents (edit.rename pairing.rename).apply)
  attach : ∀ {scope scope'}, related scope scope' → ∀ {child : Scope},
    child.id ∉ scope.children.map Scope.id → (child.rename pairing.rename).Regular →
    related (scope.attach child) (scope'.attach (child.rename pairing.rename))

/-- The same scope on both sides, under the given id on the first one. -/
structure Twin (rename : String → String) (id : String) (scope scope' : Scope) : Prop where
  renamed : scope' = scope.rename rename
  regular : scope'.Regular
  id : scope.id = id

section Nested

variable {pairing : Pairing} {outer outer' : List Scope} {related : Scope → Scope → Prop}

/-- Scopes opened on both sides are twins as long as they are under construction. -/
theorem Bond.nested (bond : Bond pairing outer outer' related) (hlawful : pairing.Lawful)
    {around around' : Scope} (h : related around around') {id : String}
    (hid : id ∉ (around :: outer).map Scope.id) (hfresh : id ∉ around.children.map Scope.id) :
    Bond pairing (around :: outer) (around' :: outer') (Twin pairing.rename id) := by
  have hinj := hlawful.injective
  have hattached : ∀ {scope scope'}, Twin pairing.rename id scope scope' →
      related (around.attach scope) (around'.attach scope') := by
    intro scope scope' htwin
    rw [htwin.renamed]
    refine bond.attach h ?_ ?_
    · rw [htwin.id]
      exact hfresh
    · rw [← htwin.renamed]
      exact htwin.regular
  constructor
  case distinct =>
    intro scope scope' htwin hnodup
    refine List.nodup_cons.mpr ⟨?_, bond.distinct h (List.nodup_cons.mp hnodup).2⟩
    rw [htwin.renamed, Scope.id_rename, htwin.id]
    exact bond.apart h id hid
  case apart =>
    intro scope scope' htwin other hother hmem
    rw [List.map_cons, List.mem_cons, not_or] at hother
    rcases List.mem_cons.mp hmem with heq | hin
    · rw [htwin.renamed, Scope.id_rename] at heq
      exact hother.1 (hinj heq)
    · exact bond.apart h other hother.2 hin
  case element =>
    intro scope scope' htwin path
    unfold Scope.search
    have hbelow : scope'.findBelow Contents.variableIds path =
        (scope.findBelow Contents.variableIds path).map pairing.rename := by
      rw [htwin.renamed]
      exact Scope.findBelow_rename hinj (fun _ => rfl) path scope
    rw [hbelow, Option.map_or]
    exact .or fun _ => bond.element (hattached htwin) path
  case look =>
    intro scope scope' htwin path hfound
    have hbelow : scope'.findBelow Contents.variableLooks path =
        scope.findBelow Contents.variableLooks path := by
      rw [htwin.renamed]
      exact Scope.findBelow_rename_same hinj (fun _ => rfl) path scope
    have hsame := htwin.regular.looks path
    unfold Scope.search at hfound ⊢
    rw [← hbelow]
    cases hlook : scope'.findBelow Contents.variableLooks path with
    | some look => rfl
    | none =>
      rw [hlook] at hsame
      have hnone : scope'.findBelow Contents.variableIds path = none :=
        Option.not_isSome_iff_eq_none.mp (by simp [← hsame])
      rw [hnone] at hfound
      exact bond.look (hattached htwin) path hfound
  case style =>
    intro scope scope' htwin path
    have hbelow : scope'.findBelow Contents.styles path = scope.findBelow Contents.styles path := by
      rw [htwin.renamed]
      exact Scope.findBelow_rename_same hinj (fun _ => rfl) path scope
    unfold Scope.search
    rw [hbelow]
    exact .or fun _ => bond.style (hattached htwin) path
  case edit =>
    intro scope scope' htwin edit
    refine ⟨?_, htwin.regular.edit _, ?_⟩
    · rw [htwin.renamed, Scope.rename_edit hinj]
    · unfold Scope.id
      rw [Scope.contents_mapContents, Edit.id_apply]
      exact htwin.id
  case attach =>
    intro scope scope' htwin child hchild hregular
    refine ⟨?_, htwin.regular.attach hregular ?_, htwin.id⟩
    · rw [htwin.renamed, Scope.rename_attach hinj]
    · rw [htwin.renamed, Scope.children_rename, Scope.ids_rename, Scope.id_rename]
      intro hmem
      obtain ⟨other, hother, heq⟩ := List.mem_map.mp hmem
      exact hchild (hinj heq ▸ hother)

end Nested

/-- The ids from a number on that were given out. -/
def Since (idOf : Nat → String) (base issued : Nat) (id : String) : Prop :=
  ∃ n, base ≤ n ∧ n < issued ∧ idOf n = id

section Since

variable {idOf : Nat → String} {base issued : Nat} {id : String}

theorem Since.mono (h : Since idOf base issued id) {later : Nat} (hle : issued ≤ later) :
    Since idOf base later id := by
  obtain ⟨n, hbase, hn, hid⟩ := h
  exact ⟨n, hbase, Nat.lt_of_lt_of_le hn hle, hid⟩

theorem Since.ne_next (h : Since idOf base issued id) (hinj : Function.Injective idOf) :
    id ≠ idOf issued := by
  obtain ⟨n, -, hn, rfl⟩ := h
  exact fun heq => Nat.ne_of_lt hn (hinj heq)

theorem since_next (idOf : Nat → String) (hle : base ≤ issued) :
    Since idOf base (issued + 1) (idOf issued) :=
  ⟨issued, hle, Nat.lt_succ_self issued, rfl⟩

end Since

/-- A scope and those around it have ids of their own, and mention only ids that were given out
from a number on. -/
structure Placed (idOf : Nat → String) (base : Nat) (outer : List Scope) (issued : Nat)
    (scope : Scope) : Prop where
  since : base ≤ issued
  distinct : ((scope :: outer).map Scope.id).Nodup
  within : ∀ part ∈ scope :: outer, part.Within (Since idOf base issued)

section Placed

variable {idOf : Nat → String} {base : Nat} {outer : List Scope} {issued : Nat}
  {scope inside : Scope}

theorem Placed.mono (h : Placed idOf base outer issued scope) {later : Nat}
    (hle : issued ≤ later) : Placed idOf base outer later scope :=
  ⟨Nat.le_trans h.since hle, h.distinct,
   fun part hpart => (h.within part hpart).mono fun _ hid => hid.mono hle⟩

theorem Placed.here (h : Placed idOf base outer issued scope) :
    scope.Within (Since idOf base issued) :=
  h.within scope (List.mem_cons_self ..)

theorem Placed.around (h : Placed idOf base outer issued scope) :
    ∀ part ∈ outer, part.Within (Since idOf base issued) :=
  fun part hpart => h.within part (List.mem_cons_of_mem _ hpart)

theorem Placed.replace {scope' : Scope} (h : Placed idOf base outer issued scope)
    (hid : scope'.id = scope.id) (hwithin : scope'.Within (Since idOf base issued)) :
    Placed idOf base outer issued scope' := by
  refine ⟨h.since, ?_, ?_⟩
  · rw [List.map_cons, hid]
    exact h.distinct
  · intro part hpart
    rcases List.mem_cons.mp hpart with rfl | houter
    · exact hwithin
    · exact h.around part houter

theorem Placed.edit (h : Placed idOf base outer issued scope) {edit : Edit}
    (hedit : edit.Within (Since idOf base issued)) :
    Placed idOf base outer issued (scope.mapContents edit.apply) := by
  refine h.replace ?_ (h.here.edit hedit)
  unfold Scope.id
  rw [Scope.contents_mapContents, Edit.id_apply]

theorem Placed.next_apart (h : Placed idOf base outer issued scope)
    (hinj : Function.Injective idOf) : idOf issued ∉ (scope :: outer).map Scope.id := by
  intro hmem
  obtain ⟨part, hpart, hid⟩ := List.mem_map.mp hmem
  exact (h.within part hpart).id.ne_next hinj hid

theorem Placed.next_fresh (h : Placed idOf base outer issued scope)
    (hinj : Function.Injective idOf) : idOf issued ∉ scope.children.map Scope.id := by
  intro hmem
  obtain ⟨child, hchild, hid⟩ := List.mem_map.mp hmem
  have hwithin := h.here.of_child hchild
  exact hwithin.id.ne_next hinj hid

theorem Placed.open (h : Placed idOf base outer issued scope) (hinj : Function.Injective idOf)
    (name : String) (look : Look) :
    Placed idOf base (scope :: outer) (issued + 1)
      (.ofContents { id := idOf issued, name := name, look := look }) := by
  refine ⟨Nat.le_succ_of_le h.since, ?_, ?_⟩
  · exact List.nodup_cons.mpr ⟨h.next_apart hinj, h.distinct⟩
  · intro part hpart
    rcases List.mem_cons.mp hpart with rfl | hold
    · exact Scope.within_ofContents (Contents.within_new (since_next idOf h.since))
    · exact (h.mono (Nat.le_succ issued)).within part hold

theorem Placed.close (h : Placed idOf base (scope :: outer) issued inside) :
    Placed idOf base outer issued (scope.attach inside) := by
  refine ⟨h.since, (List.nodup_cons.mp h.distinct).2, ?_⟩
  have hinside := h.within inside (List.mem_cons_self ..)
  have hscope := h.within scope (List.mem_cons_of_mem _ (List.mem_cons_self ..))
  intro part hpart
  rcases List.mem_cons.mp hpart with rfl | houter
  · exact hscope.attach hinside
  · exact h.within part (List.mem_cons_of_mem _ (List.mem_cons_of_mem _ houter))

theorem Placed.of_resolve (h : Placed idOf base outer issued scope) {path : Path} {id : String}
    (hid : scope.resolve Contents.variableIds outer path = some id) :
    Since idOf base issued id := by
  obtain ⟨part, hpart, hvalue⟩ := Scope.mem_of_resolve hid
  obtain ⟨top, htop, hin⟩ := List.mem_flatMap.mp hpart
  exact (h.within top htop part hin).1.values id hvalue

end Placed

/-- The two sides at the same statement: they belong together, have given out equally many ids,
and the first side has reported just what the second one has, besides what went ahead. The
children of the first scope are counted. -/
structure InStep (pairing : Pairing) (outer : List Scope) (related : Scope → Scope → Prop)
    (count : Nat) (work work' : Work) : Prop where
  pace : ∃ n, work.world.issued = pairing.start + n ∧ work'.world.issued = pairing.start' + n
  placed : Placed pairing.first.idOf pairing.base outer work.world.issued work.scope
  related : related work.scope work'.scope
  diagnostics : work.diagnostics = pairing.ahead ++ work'.diagnostics
  count : work.scope.children.length = count

def Inflow.rename (f : String → String) (inflow : Inflow) : Inflow :=
  { inflow with source := f inflow.source }

section Steps

variable {pairing : Pairing} {outer outer' : List Scope} {related : Scope → Scope → Prop}
  {count : Nat} {work work' : Work}

namespace InStep

theorem next (h : InStep pairing outer related count work work') (hlawful : pairing.Lawful)
    (hcalm : pairing.Calm (work'.freshId pairing.second).2) :
    pairing.rename (pairing.first.idOf work.world.issued) =
      pairing.second.idOf work'.world.issued := by
  obtain ⟨n, hn, hn'⟩ := h.pace
  have hbound : work'.world.issued < pairing.bound := hcalm.issued
  rw [hn'] at hbound
  rw [hn, hn']
  exact hlawful.supply n hbound

theorem freshId (h : InStep pairing outer related count work work') :
    InStep pairing outer related count (work.freshId pairing.first).2
      (work'.freshId pairing.second).2 := by
  obtain ⟨n, hn, hn'⟩ := h.pace
  exact ⟨⟨n + 1, congrArg Nat.succ hn, congrArg Nat.succ hn'⟩, h.placed.mono (Nat.le_succ _),
    h.related, h.diagnostics, h.count⟩

theorem report (h : InStep pairing outer related count work work') (extent : Span)
    (problem : Problem) :
    InStep pairing outer related count (work.report extent problem)
      (work'.report extent problem) := by
  refine ⟨h.pace, h.placed, h.related, ?_, h.count⟩
  change work.diagnostics ++ _ = pairing.ahead ++ (work'.diagnostics ++ _)
  rw [h.diagnostics, List.append_assoc]

theorem foldl {α : Type} {step step' : Work → α → Work}
    (hstep : ∀ work work' item, InStep pairing outer related count work work' →
      pairing.Calm (step' work' item) →
      InStep pairing outer related count (step work item) (step' work' item))
    (hlater : ∀ work item, Work.Later work (step' work item)) (items : List α)
    (h : InStep pairing outer related count work work')
    (hcalm : pairing.Calm (items.foldl step' work')) :
    InStep pairing outer related count (items.foldl step work) (items.foldl step' work') := by
  induction items generalizing work work' with
  | nil => exact h
  | cons item rest ih =>
    have hfirst : pairing.Calm (step' work' item) :=
      hcalm.before (growth_later.foldl hlater rest _)
    exact ih (hstep work work' item h hfirst) hcalm

theorem resolve_first {α : Type} (h : InStep pairing outer related count work work')
    (member : Contents → OrderedMap α) (path : Path) :
    work.scope.resolve member outer path = work.scope.search member path outer :=
  Scope.resolve_eq_search path h.placed.distinct

variable (bond : Bond pairing outer outer' related)

include bond

theorem edit (h : InStep pairing outer related count work work') {edit : Edit}
    (hedit : edit.Within (Since pairing.first.idOf pairing.base work.world.issued)) :
    InStep pairing outer related count (work.update edit.apply)
      (work'.update (edit.rename pairing.rename).apply) := by
  refine ⟨h.pace, h.placed.edit hedit, bond.edit h.related edit, h.diagnostics, ?_⟩
  rw [Work.scope_update, Scope.children_mapContents]
  exact h.count

theorem resolve_second {α : Type} (h : InStep pairing outer related count work work')
    (member : Contents → OrderedMap α) (path : Path) :
    work'.scope.resolve member outer' path = work'.scope.search member path outer' :=
  Scope.resolve_eq_search path (bond.distinct h.related h.placed.distinct)

theorem style (h : InStep pairing outer related count work work') (path : Path) :
    pairing.Found (work.style? outer path) (work'.style? outer' path) := by
  have hfound := bond.style h.related path
  rw [← h.resolve_first, ← h.resolve_second bond] at hfound
  exact hfound

variable (hlawful : pairing.Lawful)

include hlawful

theorem element (h : InStep pairing outer related count work work') (path : Path) :
    pairing.Found ((work.elementOf? outer path).map pairing.rename)
      (work'.elementOf? outer' path) := by
  have hempty : ∀ id, pairing.rename id = "" ↔ id = "" := by
    intro id
    constructor
    · exact fun heq => hlawful.injective (heq.trans hlawful.empty.symm)
    · rintro rfl
      exact hlawful.empty
  have hfound := bond.element h.related path
  rw [← h.resolve_first, ← h.resolve_second bond] at hfound
  unfold Work.elementOf?
  rcases hfound with hsame | ⟨hsilent, hnone⟩
  · left
    rw [hsame, Option.filter_map]
    refine congrArg (fun kept => Option.map pairing.rename (Option.filter kept _)) ?_
    funext id
    simp [hempty id]
  · right
    rw [hnone]
    exact ⟨hsilent, rfl⟩

omit hlawful

theorem look (h : InStep pairing outer related count work work') (path : Path)
    (hfound : pairing.silent → (work'.elementOf? outer' path).isSome) :
    work'.variableLook? outer' path = work.variableLook? outer path := by
  have hsome : pairing.silent →
      (work'.scope.search Contents.variableIds path outer').isSome := by
    intro hsilent
    obtain ⟨id, hid⟩ := Option.isSome_iff_exists.mp (hfound hsilent)
    have hresolved := (Option.filter_eq_some_iff.mp hid).1
    rw [h.resolve_second bond] at hresolved
    rw [hresolved]
    rfl
  unfold Work.variableLook?
  rw [h.resolve_first, h.resolve_second bond, bond.look h.related path hsome]

end InStep

theorem InStep.since (h : InStep pairing outer related count work work') {path : Path}
    {id : String} (hid : work.elementOf? outer path = some id) :
    Since pairing.first.idOf pairing.base work.world.issued id :=
  h.placed.of_resolve (Option.filter_eq_some_iff.mp hid).1

end Steps

end RecipeGraph.Compile
