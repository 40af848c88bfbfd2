import RecipeGraph.Proofs.Belongings
import RecipeGraph.Proofs.Declarations
import RecipeGraph.Proofs.Lookup

/-!
What scopes keep of styles. A scope answers to every path with the properties of the declaration
that the path denotes, spelled out; it still does when a style is stored in it or a nested scope is
attached, and so do the scopes around it. What tags lead nowhere can be told from either side.
-/
namespace RecipeGraph

open RecipeGraph.Graph Recipe Scoping

/-- Problems with what a tag refers to. -/
def Problem.concernsStyle : Problem → Bool
  | undefinedStyleTag _ => true
  | _ => false

namespace OrderedMap

variable {α : Type}

/-- To write entries over a map that others were written over is to write all of them over it. -/
theorem foldl_insert_merge (entries : List (String × α)) (m : OrderedMap α)
    {added : OrderedMap α} (h : added.Distinct) :
    entries.foldl (fun all entry => all.insert entry.1 entry.2) (m.merge added) =
      m.merge (entries.foldl (fun all entry => all.insert entry.1 entry.2) added) := by
  induction entries generalizing added with
  | nil => rfl
  | cons entry rest ih =>
    rw [List.foldl_cons, List.foldl_cons, insert_merge h, ih (h.insert entry.1 entry.2)]

/-- Entries are written over a map one by one, the later ones over the earlier ones. -/
theorem get?_merge_ofList (m other : OrderedMap α) (key : String) :
    (m.merge other).get? key = ((ofList other.entries).get? key).or (m.get? key) := by
  have hmerge : m.merge other = m.merge (ofList other.entries) :=
    foldl_insert_merge other.entries m distinct_empty
  rw [hmerge]
  exact get?_merge (distinct_merge distinct_empty) m key

end OrderedMap

namespace Cascade

section Expansion

variable {referred : List Declaration} {found : List Properties}

theorem get?_foldl_merge (h : List.Forall₂ Declaration.Expands referred found) (m : Properties)
    (key : String) :
    (found.foldl OrderedMap.merge m).get? key = (lastValue? key referred).or (m.get? key) := by
  induction h generalizing m with
  | nil => rfl
  | cons hfirst _ ih =>
    rw [List.foldl_cons, ih, OrderedMap.get?_merge hfirst.distinct, hfirst.values, lastValue?,
      Option.or_assoc]

theorem distinct_foldl_merge (found : List Properties) {m : Properties} (h : m.Distinct) :
    (found.foldl OrderedMap.merge m).Distinct := by
  induction found generalizing m with
  | nil => exact h
  | cons first rest ih => exact ih (distinct_merge h)

/-- Properties written one over the other, the own ones last, are the expansion of what they
expand. -/
theorem expands_merged (h : List.Forall₂ Declaration.Expands referred found) (own : Properties) :
    (Declaration.mk (.ofList own.entries) referred).Expands
      ((found.foldl OrderedMap.merge {}).merge own) := by
  constructor
  case distinct => exact distinct_merge (distinct_foldl_merge found OrderedMap.distinct_empty)
  case values =>
    intro key
    rw [OrderedMap.get?_merge_ofList, get?_foldl_merge h, OrderedMap.get?_empty, Option.or_none,
      Declaration.value?]

end Expansion

section Rel

variable {α β : Type} {r r' : α → β → Prop} {a a' : Option α} {b b' : Option β}

theorem rel_mono (h : Option.Rel r a b) (himp : ∀ x y, r x y → r' x y) : Option.Rel r' a b := by
  cases h with
  | some hrel => exact .some (himp _ _ hrel)
  | none => exact .none

theorem rel_or (h : Option.Rel r a b) (h' : Option.Rel r a' b') :
    Option.Rel r (a.or a') (b.or b') := by
  cases h with
  | some hrel => exact .some hrel
  | none => exact h'

theorem rel_some {x : α} (h : Option.Rel r (some x) b) : ∃ y, b = some y ∧ r x y := by
  cases h with
  | some hrel => exact ⟨_, rfl, hrel⟩

theorem rel_isNone (h : Option.Rel r a b) : a.isNone = b.isNone := by
  cases h with
  | some => rfl
  | none => rfl

theorem unresolved_congr {find : Path → Option α} {find' : Path → Option β}
    (h : ∀ path, Option.Rel r (find path) (find' path)) (tags : List Node) :
    unresolved find tags = unresolved find' tags := by
  have hsame : ∀ path, (find path).isNone = (find' path).isNone := fun path => rel_isNone (h path)
  unfold unresolved
  simp only [hsame]

theorem unresolved_cons_some {find : Path → Option α} {tag : Node} {a : α}
    (h : find tag.path = some a) (tags : List Node) :
    unresolved find (tag :: tags) = unresolved find tags := by
  simp [unresolved, h]

theorem unresolved_cons_none {find : Path → Option α} {tag : Node} (h : find tag.path = none)
    (tags : List Node) :
    unresolved find (tag :: tags) =
      ⟨tag.place, .undefinedStyleTag tag.path⟩ :: unresolved find tags := by
  simp [unresolved, h]

theorem unresolved_filter (find : Path → Option α) (tags : List Node) :
    (unresolved find tags).filter (fun diagnostic => diagnostic.problem.concernsStyle) =
      unresolved find tags := by
  refine List.filter_eq_self.mpr ?_
  intro diagnostic hin
  obtain ⟨tag, -, rfl⟩ := List.mem_map.mp hin
  rfl

end Rel

section Answers

variable {declared more : List Declaration} {scope child : Scope} {events before : List Event}

/-- What has been stored for a declaration does not change with later ones. -/
theorem Stands.mono {number : Nat} {properties : Properties}
    (h : Stands declared number properties) (hmore : declared <+: more) :
    Stands more number properties := by
  obtain ⟨declaration, hnumber, hexpands⟩ := h
  obtain ⟨hlt, rfl⟩ := List.getElem?_eq_some_iff.mp hnumber
  exact ⟨_, List.prefix_iff_getElem?.mp hmore number hlt, hexpands⟩

/-- A scope answers to every path with the properties of the declaration that the events say. -/
def Answers (declared : List Declaration) (scope : Scope) (events : List Event) : Prop :=
  ∀ path, Option.Rel (Stands declared) (below path events)
    (scope.findBelow Contents.styles path)

theorem Answers.mono (h : Answers declared scope events) (hmore : declared <+: more) :
    Answers more scope events :=
  fun path => rel_mono (h path) fun _ _ hstands => hstands.mono hmore

theorem Answers.declare (h : Answers declared scope events) {declaration : Declaration}
    {properties : Properties} (hexpands : declaration.Expands properties) (name : String) :
    Answers (declared ++ [declaration]) (scope.mapContents (·.setStyle name properties))
      (.bound name declared.length :: events) := by
  intro path
  have hold := h.mono (List.prefix_append declared [declaration]) path
  -- Only a path of one name ends in the scope itself.
  match path with
  | [] => exact .none
  | [other] =>
    simp only [Scope.findBelow, below, lastBound, Scope.contents_mapContents] at hold ⊢
    change Option.Rel _ _ ((scope.contents.styles.insert name properties).get? other)
    rw [OrderedMap.get?_insert]
    by_cases heq : name = other
    · rw [if_pos heq, if_pos heq]
      exact .some ⟨declaration, by simp, hexpands⟩
    · rw [if_neg heq, if_neg heq]
      exact hold
  | first :: next :: rest =>
    rw [Scope.findBelow_mapContents]
    exact hold

/-- A nested scope hides the earlier ones of its name, and answers for whatever leads through it. -/
theorem Answers.attach (h : Answers declared scope before) (hchild : Answers declared child events)
    (hnames : ∀ id ∈ scope.names.values, id ∈ scope.children.map Scope.id)
    (hfresh : child.id ∉ scope.children.map Scope.id) :
    Answers declared (scope.attach child) (.opened child.name events :: before) := by
  intro path
  match path with
  | [] => exact .none
  | [name] => exact h [name]
  | name :: next :: rest =>
    rw [Scope.findBelow_attach hfresh hnames]
    change Option.Rel _
      ((lastOpened name (.opened child.name events :: before)).bind (below (next :: rest))) _
    rw [lastOpened]
    split
    · exact hchild (next :: rest)
    · exact h (name :: next :: rest)

theorem answers_ofContents (contents : Contents) (h : contents.styles = {}) :
    Answers declared (.ofContents contents) [] := by
  intro path
  match path with
  | [] => exact .none
  | [name] =>
    change Option.Rel _ none (contents.styles.get? name)
    rw [h]
    exact .none
  | name :: next :: rest => exact .none

/-- The scopes around one with the given id and name, each as it was when the one within was
opened. -/
inductive Within (declared : List Declaration) : String → String → List Scope → Outside → Prop
  | nil {id name : String} : Within declared id name [] []
  | cons {id name : String} {scope : Scope} {before : List Event} {further : List Scope}
      {outside : Outside} (hanswers : Answers declared scope before)
      (hnames : ∀ id ∈ scope.names.values, id ∈ scope.children.map Scope.id)
      (hfresh : id ∉ scope.children.map Scope.id)
      (h : Within declared scope.id scope.name further outside) :
      Within declared id name (scope :: further) ((name, before) :: outside)

theorem Within.mono {id name : String} {outer : List Scope} {outside : Outside}
    (h : Within declared id name outer outside) (hmore : declared <+: more) :
    Within more id name outer outside := by
  induction h with
  | nil => exact .nil
  | cons hanswers hnames hfresh _ ih => exact .cons (hanswers.mono hmore) hnames hfresh ih

/-- What is found under a path is what the path denotes. -/
theorem search_denoted {outer : List Scope} {outside : Outside}
    (h : Within declared scope.id scope.name outer outside)
    (hanswers : Answers declared scope events) (path : Path) :
    Option.Rel (Stands declared) (denoted path events outside)
      (Scope.search Contents.styles path scope outer) := by
  induction outer generalizing scope events outside with
  | nil =>
    cases h
    exact hanswers path
  | cons around further ih =>
    cases h with
    | @cons _ _ _ _ _ further' haround hnames hfresh hfurther =>
      -- Seen from further outside, the scope has been attached to the one around it.
      have hattached : Within declared (around.attach scope).id (around.attach scope).name
          further further' := hfurther
      unfold Scope.search denoted
      exact rel_or (hanswers path) (ih hattached (haround.attach hanswers hnames hfresh))

mutual

theorem Keeps.mono (hmore : declared <+: more) : ∀ (scope : Scope) (events : List Event),
    Keeps declared scope events → Keeps more scope events
  | .mk _ _ children, events, h =>
    ⟨fun name => rel_mono (h.1 name) fun _ _ hstands => hstands.mono hmore,
     KeepsAll.mono hmore children (openings events) h.2⟩

theorem KeepsAll.mono (hmore : declared <+: more) :
    ∀ (scopes : List Scope) (insides : List (List Event)),
      KeepsAll declared scopes insides → KeepsAll more scopes insides
  | [], [], _ => trivial
  | [], _ :: _, h => h.elim
  | _ :: _, [], h => h.elim
  | scope :: rest, events :: further, h =>
    ⟨Keeps.mono hmore scope events h.1, KeepsAll.mono hmore rest further h.2⟩

end

theorem KeepsAll.append (hchild : Keeps declared child events) :
    ∀ {scopes : List Scope} {insides : List (List Event)}, KeepsAll declared scopes insides →
      KeepsAll declared (scopes ++ [child]) (insides ++ [events])
  | [], [], _ => ⟨hchild, trivial⟩
  | [], _ :: _, h => h.elim
  | _ :: _, [], h => h.elim
  | _ :: _, _ :: _, h => ⟨h.1, KeepsAll.append hchild h.2⟩

theorem keeps_of_answers (h : Answers declared scope events)
    (hinner : KeepsAll declared scope.children (openings events)) :
    Keeps declared scope events := by
  obtain ⟨contents, names, children⟩ := scope
  exact ⟨fun name => h [name], hinner⟩

end Answers

end Cascade

end RecipeGraph
