import RecipeGraph.Proofs.Lookup
import Mathlib.Logic.Function.Basic

/-!
Scopes under other ids. A renaming goes through all ids that a scope mentions and leaves its
names, its styles and every order alone. As long as it keeps different ids apart, whatever is
done to a scope can as well be done to the renamed one, and a path finds the same element there.
-/
namespace RecipeGraph

open RecipeGraph.Graph

namespace OrderedMap

variable {α β γ : Type}

/-- Other keys and other values in the same order. -/
def transfer (f : String → String) (g : α → β) (m : OrderedMap α) : OrderedMap β :=
  ⟨m.entries.map fun entry => (f entry.1, g entry.2)⟩

theorem write_transfer {f : String → String} (hf : Function.Injective f) (g : α → β)
    (key : String) (value : α) (entries : List (String × α)) :
    (write key value entries).map (fun entry => (f entry.1, g entry.2)) =
      write (f key) (g value) (entries.map fun entry => (f entry.1, g entry.2)) := by
  induction entries with
  | nil => rfl
  | cons first rest ih =>
    obtain ⟨k, old⟩ := first
    by_cases hk : k = key
    · simp [write, hk]
    · have hne : f k ≠ f key := fun heq => hk (hf heq)
      simp [write, hk, hne, ih]

theorem transfer_insert {f : String → String} (hf : Function.Injective f) (g : α → β)
    (m : OrderedMap α) (key : String) (value : α) :
    (m.insert key value).transfer f g = (m.transfer f g).insert (f key) (g value) :=
  congrArg OrderedMap.mk (write_transfer hf g key value m.entries)

theorem map_insert (g : α → β) (m : OrderedMap α) (key : String) (value : α) :
    (m.insert key value).map g = (m.map g).insert key (g value) :=
  transfer_insert Function.injective_id g m key value

theorem get?_map (g : α → β) (m : OrderedMap α) (key : String) :
    (m.map g).get? key = (m.get? key).map g := by
  obtain ⟨entries⟩ := m
  change lookup key (entries.map fun entry => (entry.1, g entry.2)) =
    (lookup key entries).map g
  induction entries with
  | nil => rfl
  | cons first rest ih =>
    obtain ⟨k, value⟩ := first
    by_cases hk : k = key
    · simp [lookup, hk]
    · simp [lookup, hk, ih]

theorem transfer_congr {f f' : String → String} {g g' : α → β} {m : OrderedMap α}
    (h : ∀ entry ∈ m.entries, f entry.1 = f' entry.1 ∧ g entry.2 = g' entry.2) :
    m.transfer f g = m.transfer f' g' := by
  refine congrArg OrderedMap.mk (List.map_congr_left ?_)
  intro entry hentry
  rw [(h entry hentry).1, (h entry hentry).2]

theorem map_congr {g g' : α → β} {m : OrderedMap α} (h : ∀ value ∈ m.values, g value = g' value) :
    m.map g = m.map g' := by
  refine congrArg OrderedMap.mk (List.map_congr_left ?_)
  rintro ⟨name, value⟩ hentry
  exact congrArg (Prod.mk name) (h value (mem_values.mpr ⟨name, hentry⟩))

theorem transfer_same (m : OrderedMap α) :
    m.transfer (fun key => key) (fun value => value) = m :=
  congrArg OrderedMap.mk (List.map_id' m.entries)

theorem map_same (m : OrderedMap α) : m.map (fun value => value) = m :=
  transfer_same m

theorem transfer_transfer (f f' : String → String) (g : α → β) (g' : β → γ) (m : OrderedMap α) :
    (m.transfer f g).transfer f' g' = m.transfer (f' ∘ f) (g' ∘ g) :=
  congrArg OrderedMap.mk List.map_map

theorem map_map (g : α → β) (g' : β → γ) (m : OrderedMap α) :
    (m.map g).map g' = m.map (g' ∘ g) :=
  transfer_transfer (fun name => name) (fun name => name) g g' m

theorem values_transfer (f : String → String) (g : α → β) (m : OrderedMap α) :
    (m.transfer f g).values = m.values.map g := by
  unfold transfer values
  rw [List.map_map, List.map_map]
  rfl

theorem values_map (g : α → β) (m : OrderedMap α) : (m.map g).values = m.values.map g :=
  values_transfer (fun name => name) g m

theorem keys_map (g : α → β) (m : OrderedMap α) : (m.map g).keys = m.keys := by
  unfold map keys
  rw [List.map_map]
  rfl

theorem map_merge (g : α → β) (m other : OrderedMap α) :
    (m.merge other).map g = (m.map g).merge (other.map g) := by
  obtain ⟨entries⟩ := other
  unfold merge
  change (entries.foldl _ m).map g = (entries.map _).foldl _ (m.map g)
  induction entries generalizing m with
  | nil => rfl
  | cons entry rest ih => rw [List.foldl_cons, ih, map_insert, List.map_cons, List.foldl_cons]

end OrderedMap

namespace Graph

variable {f g : String → String}

def Vertex.rename (f : String → String) (vertex : Vertex) : Vertex :=
  { vertex with id := f vertex.id }

def Edge.rename (f : String → String) (edge : Edge) : Edge :=
  { edge with id := f edge.id, source := f edge.source, target := f edge.target }

/-- What can be added to a scope from its own statements. -/
inductive Edit
  | vertex (vertex : Vertex)
  | edge (edge : Edge)
  | bind (name id : String) (look : Option Look)
  | style (name : String) (properties : Properties)
  | binding (keyword : String) (tags : List Path)

namespace Edit

def apply : Edit → Contents → Contents
  | vertex added, contents => contents.addVertex added
  | edge added, contents => contents.addEdge added
  | bind name id look, contents => (contents.bindVariable name id).setVariableLook name look
  | style name properties, contents => contents.setStyle name properties
  | binding keyword tags, contents => contents.bindStyle keyword tags

def rename (f : String → String) : Edit → Edit
  | vertex added => vertex (added.rename f)
  | edge added => edge (added.rename f)
  | bind name id look => bind name (f id) look
  | style name properties => style name properties
  | binding keyword tags => binding keyword tags

/-- All ids mentioned have a property. -/
def Within (P : String → Prop) : Edit → Prop
  | vertex added => P added.id
  | edge added => P added.id ∧ P added.source ∧ P added.target
  | bind _ id _ => P id
  | style .. | binding .. => True

@[simp] theorem id_apply (edit : Edit) (contents : Contents) :
    (edit.apply contents).id = contents.id := by
  cases edit <;> rfl

@[simp] theorem packages_apply (edit : Edit) (contents : Contents) :
    (edit.apply contents).packages = contents.packages := by
  cases edit <;> rfl

theorem apply_addPackage (edit : Edit) (contents : Contents) (location : String) :
    edit.apply (contents.addPackage location) = (edit.apply contents).addPackage location := by
  unfold Contents.addPackage
  rw [packages_apply]
  split
  · rfl
  · cases edit <;> rfl

end Edit

namespace Contents

def rename (f : String → String) (contents : Contents) : Contents :=
  { contents with
    id := f contents.id
    vertices := contents.vertices.transfer f (Vertex.rename f)
    edges := contents.edges.transfer f (Edge.rename f)
    variableIds := contents.variableIds.map f }

theorem rename_apply (hf : Function.Injective f) (edit : Edit) (contents : Contents) :
    (edit.apply contents).rename f = (edit.rename f).apply (contents.rename f) := by
  cases edit with
  | vertex vertex =>
    have hinsert :=
      OrderedMap.transfer_insert hf (Vertex.rename f) contents.vertices vertex.id vertex
    unfold Edit.apply addVertex rename
    rw [hinsert]
    rfl
  | edge edge =>
    have hinsert := OrderedMap.transfer_insert hf (Edge.rename f) contents.edges edge.id edge
    unfold Edit.apply addEdge rename
    rw [hinsert]
    rfl
  | bind name id look =>
    have hinsert := OrderedMap.map_insert f contents.variableIds name id
    unfold Edit.apply setVariableLook bindVariable rename
    rw [hinsert]
    rfl
  | style name properties => rfl
  | binding keyword tags => rfl

theorem rename_rename (f g : String → String) (contents : Contents) :
    (contents.rename f).rename g = contents.rename (g ∘ f) := by
  unfold rename
  dsimp only
  rw [OrderedMap.transfer_transfer, OrderedMap.transfer_transfer, OrderedMap.map_map]
  rfl

theorem rename_id (contents : Contents) : contents.rename (fun id => id) = contents := by
  have hvertices : contents.vertices.transfer (fun id => id) (Vertex.rename fun id => id) =
      contents.vertices := OrderedMap.transfer_same contents.vertices
  have hedges : contents.edges.transfer (fun id => id) (Edge.rename fun id => id) =
      contents.edges := OrderedMap.transfer_same contents.edges
  unfold rename
  rw [hvertices, hedges, OrderedMap.map_same]

theorem rename_foldl_addVertex (hf : Function.Injective f) (added : List Vertex)
    (contents : Contents) : (added.foldl addVertex contents).rename f =
      (added.map (Vertex.rename f)).foldl addVertex (contents.rename f) := by
  induction added generalizing contents with
  | nil => rfl
  | cons first rest ih =>
    have hfirst : (contents.addVertex first).rename f =
        (contents.rename f).addVertex (first.rename f) := rename_apply hf (.vertex first) contents
    rw [List.foldl_cons, ih, hfirst]
    rfl

theorem rename_foldl_addEdge (hf : Function.Injective f) (added : List Edge)
    (contents : Contents) : (added.foldl addEdge contents).rename f =
      (added.map (Edge.rename f)).foldl addEdge (contents.rename f) := by
  induction added generalizing contents with
  | nil => rfl
  | cons first rest ih =>
    have hfirst : (contents.addEdge first).rename f =
        (contents.rename f).addEdge (first.rename f) := rename_apply hf (.edge first) contents
    rw [List.foldl_cons, ih, hfirst]
    rfl

theorem rename_addPackage (f : String → String) (contents : Contents) (location : String) :
    (contents.addPackage location).rename f = (contents.rename f).addPackage location := by
  unfold addPackage
  have hpackages : (contents.rename f).packages = contents.packages := rfl
  rw [hpackages]
  split <;> rfl

theorem packages_foldl_addPackage (locations : List String) {contents other : Contents}
    (h : contents.packages = other.packages) :
    (locations.foldl addPackage contents).packages =
      (locations.foldl addPackage other).packages := by
  induction locations generalizing contents other with
  | nil => exact h
  | cons first rest ih =>
    refine ih ?_
    unfold addPackage
    rw [h]
    split <;> simp [h]

theorem rename_merge (hf : Function.Injective f) (contents other : Contents) :
    (contents.merge other).rename f = (contents.rename f).merge (other.rename f) := by
  have hvertices : (other.rename f).vertices.values =
      other.vertices.values.map (Vertex.rename f) := OrderedMap.values_transfer _ _ _
  have hedges : (other.rename f).edges.values = other.edges.values.map (Edge.rename f) :=
    OrderedMap.values_transfer _ _ _
  have hadded : ((other.edges.values.foldl addEdge
        (other.vertices.values.foldl addVertex contents)).rename f) =
      (other.rename f).edges.values.foldl addEdge
        ((other.rename f).vertices.values.foldl addVertex (contents.rename f)) := by
    rw [rename_foldl_addEdge hf, rename_foldl_addVertex hf, hvertices, hedges]
  unfold merge
  dsimp only
  rw [← hadded]
  generalize other.edges.values.foldl addEdge (other.vertices.values.foldl addVertex contents) =
    added
  have hpackages : (other.packages.foldl addPackage added).packages =
      (other.packages.foldl addPackage (added.rename f)).packages :=
    packages_foldl_addPackage _ rfl
  unfold rename at hpackages ⊢
  dsimp only
  rw [OrderedMap.map_merge, hpackages]

/-- All ids mentioned have a property. -/
structure Within (P : String → Prop) (contents : Contents) : Prop where
  id : P contents.id
  vertices : ∀ entry ∈ contents.vertices.entries, P entry.1 ∧ P entry.2.id
  edges : ∀ entry ∈ contents.edges.entries,
    P entry.1 ∧ P entry.2.id ∧ P entry.2.source ∧ P entry.2.target
  values : ∀ id ∈ contents.variableIds.values, P id

variable {P Q : String → Prop} {contents other : Contents}

theorem Within.mono (h : contents.Within P) (hPQ : ∀ id, P id → Q id) : contents.Within Q where
  id := hPQ _ h.id
  vertices entry hentry := (h.vertices entry hentry).imp (hPQ _) (hPQ _)
  edges entry hentry := by
    obtain ⟨hkey, hid, hsource, htarget⟩ := h.edges entry hentry
    exact ⟨hPQ _ hkey, hPQ _ hid, hPQ _ hsource, hPQ _ htarget⟩
  values id hid := hPQ id (h.values id hid)

theorem within_new {id name : String} {look : Look} (h : P id) :
    Within P { id := id, name := name, look := look } where
  id := h
  vertices _ hentry := nomatch hentry
  edges _ hentry := nomatch hentry
  values _ hid := nomatch hid

theorem Within.apply (h : contents.Within P) {edit : Edit} (hedit : edit.Within P) :
    (edit.apply contents).Within P := by
  cases edit with
  | vertex vertex =>
    refine ⟨h.id, ?_, h.edges, h.values⟩
    rintro ⟨key, value⟩ hentry
    rcases OrderedMap.mem_insert hentry with ⟨rfl, rfl⟩ | hold
    · exact ⟨hedit, hedit⟩
    · exact h.vertices _ hold
  | edge edge =>
    refine ⟨h.id, h.vertices, ?_, h.values⟩
    rintro ⟨key, value⟩ hentry
    rcases OrderedMap.mem_insert hentry with ⟨rfl, rfl⟩ | hold
    · exact ⟨hedit.1, hedit⟩
    · exact h.edges _ hold
  | bind name id look =>
    refine ⟨h.id, h.vertices, h.edges, ?_⟩
    intro x hx
    rcases OrderedMap.mem_values_insert hx with rfl | hold
    · exact hedit
    · exact h.values x hold
  | style name properties => exact ⟨h.id, h.vertices, h.edges, h.values⟩
  | binding keyword tags => exact ⟨h.id, h.vertices, h.edges, h.values⟩

theorem Within.rename_congr (h : contents.Within fun id => f id = g id) :
    contents.rename f = contents.rename g := by
  have hvertices : contents.vertices.transfer f (Vertex.rename f) =
      contents.vertices.transfer g (Vertex.rename g) := by
    refine OrderedMap.transfer_congr fun entry hentry => ?_
    obtain ⟨hkey, hid⟩ := h.vertices entry hentry
    refine ⟨hkey, ?_⟩
    unfold Vertex.rename
    rw [hid]
  have hedges : contents.edges.transfer f (Edge.rename f) =
      contents.edges.transfer g (Edge.rename g) := by
    refine OrderedMap.transfer_congr fun entry hentry => ?_
    obtain ⟨hkey, hid, hsource, htarget⟩ := h.edges entry hentry
    refine ⟨hkey, ?_⟩
    unfold Edge.rename
    rw [hid, hsource, htarget]
  unfold rename
  rw [hvertices, hedges, OrderedMap.map_congr h.values, h.id]

theorem Within.addPackage (h : contents.Within P) (location : String) :
    (contents.addPackage location).Within P := by
  unfold Contents.addPackage
  split
  · exact h
  · exact ⟨h.id, h.vertices, h.edges, h.values⟩

theorem Within.relabel (h : contents.Within P) {id : String} (hid : P id) (name : String) :
    Within P { contents with id := id, name := name } :=
  ⟨hid, h.vertices, h.edges, h.values⟩

theorem Within.merge (h : contents.Within P) (hother : other.Within P) :
    (contents.merge other).Within P := by
  constructor
  case id =>
    rw [id_merge]
    exact h.id
  case vertices =>
    rintro ⟨key, vertex⟩ hentry
    rw [vertices_merge] at hentry
    rcases OrderedMap.mem_writeAll hentry with hadded | hold
    · obtain ⟨origin, horigin, heq⟩ := List.mem_map.mp hadded
      obtain ⟨rfl, rfl⟩ := Prod.mk.inj heq
      obtain ⟨key, hkey⟩ := OrderedMap.mem_values.mp horigin
      exact ⟨(hother.vertices _ hkey).2, (hother.vertices _ hkey).2⟩
    · exact h.vertices _ hold
  case edges =>
    rintro ⟨key, edge⟩ hentry
    rw [edges_merge] at hentry
    rcases OrderedMap.mem_writeAll hentry with hadded | hold
    · obtain ⟨origin, horigin, heq⟩ := List.mem_map.mp hadded
      obtain ⟨rfl, rfl⟩ := Prod.mk.inj heq
      obtain ⟨key, hkey⟩ := OrderedMap.mem_values.mp horigin
      exact ⟨(hother.edges _ hkey).2.1, (hother.edges _ hkey).2⟩
    · exact h.edges _ hold
  case values =>
    intro id hid
    rw [variableIds_merge] at hid
    rcases OrderedMap.mem_values_merge hid with hin | hown
    · exact hother.values id hin
    · exact h.values id hown

/-- What a renamed scope mentions is what the scope itself mentions, renamed. -/
theorem within_rename : (contents.rename f).Within P ↔ contents.Within fun id => P (f id) := by
  constructor
  · intro h
    constructor
    case id => exact h.id
    case vertices => exact fun entry hentry => h.vertices _ (List.mem_map_of_mem hentry)
    case edges => exact fun entry hentry => h.edges _ (List.mem_map_of_mem hentry)
    case values =>
      intro id hid
      refine h.values _ ?_
      have hvalues : (contents.rename f).variableIds.values = contents.variableIds.values.map f :=
        OrderedMap.values_map f contents.variableIds
      rw [hvalues]
      exact List.mem_map_of_mem hid
  · intro h
    constructor
    case id => exact h.id
    case vertices =>
      intro entry hentry
      obtain ⟨origin, horigin, rfl⟩ := List.mem_map.mp hentry
      exact h.vertices origin horigin
    case edges =>
      intro entry hentry
      obtain ⟨origin, horigin, rfl⟩ := List.mem_map.mp hentry
      exact h.edges origin horigin
    case values =>
      intro id hid
      have hvalues : (contents.rename f).variableIds.values = contents.variableIds.values.map f :=
        OrderedMap.values_map f contents.variableIds
      rw [hvalues] at hid
      obtain ⟨origin, horigin, rfl⟩ := List.mem_map.mp hid
      exact h.values origin horigin

end Contents

namespace Scope

mutual

def rename (f : String → String) : Scope → Scope
  | mk contents names children =>
      mk (contents.rename f) (names.map f) (renameAll f children)

def renameAll (f : String → String) : List Scope → List Scope
  | [] => []
  | scope :: rest => rename f scope :: renameAll f rest

end

theorem renameAll_eq_map (scopes : List Scope) : renameAll f scopes = scopes.map (rename f) := by
  induction scopes with
  | nil => rfl
  | cons first rest ih => simp [renameAll, ih]

theorem rename_mk (f : String → String) (contents : Contents) (names : OrderedMap String)
    (children : List Scope) : (mk contents names children).rename f =
      mk (contents.rename f) (names.map f) (children.map (rename f)) := by
  rw [rename, renameAll_eq_map]

section Parts

variable (f) (scope child : Scope)

@[simp] theorem contents_rename : (scope.rename f).contents = scope.contents.rename f := by
  cases scope
  rfl

@[simp] theorem names_rename : (scope.rename f).names = scope.names.map f := by
  cases scope
  rfl

@[simp] theorem children_rename : (scope.rename f).children = scope.children.map (rename f) := by
  obtain ⟨contents, names, children⟩ := scope
  exact renameAll_eq_map children

@[simp] theorem id_rename : (scope.rename f).id = f scope.id := by
  cases scope
  rfl

@[simp] theorem name_rename : (scope.rename f).name = scope.name := by
  cases scope
  rfl

theorem ids_rename (scopes : List Scope) :
    (scopes.map (rename f)).map id = (scopes.map id).map f := by
  rw [List.map_map, List.map_map]
  refine List.map_congr_left ?_
  intro scope _
  exact id_rename f scope

end Parts

theorem rename_rename (f g : String → String) (scope : Scope) :
    (scope.rename f).rename g = scope.rename (g ∘ f) := by
  induction scope using Scope.induction with
  | step contents names children ih =>
    rw [rename_mk, rename_mk, rename_mk, List.map_map, OrderedMap.map_map, Contents.rename_rename]
    exact congrArg (mk _ _) (List.map_congr_left ih)

theorem rename_id (scope : Scope) : scope.rename (fun id => id) = scope := by
  induction scope using Scope.induction with
  | step contents names children ih =>
    rw [rename_mk, Contents.rename_id, OrderedMap.map_same, List.map_congr_left ih, List.map_id']

theorem rename_inj (hf : Function.Injective f) {scope other : Scope}
    (h : scope.rename f = other.rename f) : scope = other := by
  have hback : ∀ scope : Scope, (scope.rename f).rename (Function.invFun f) = scope := by
    intro scope
    rw [rename_rename, Function.invFun_comp hf]
    exact rename_id scope
  rw [← hback scope, h, hback other]

theorem rename_addPackage (f : String → String) (scope : Scope) (location : String) :
    (scope.mapContents (·.addPackage location)).rename f =
      (scope.rename f).mapContents (·.addPackage location) := by
  obtain ⟨contents, names, children⟩ := scope
  exact congrArg (mk · (names.map f) (renameAll f children))
    (Contents.rename_addPackage f contents location)

/-- A scope that is given another id and another name. -/
theorem rename_relabel (f : String → String) (scope : Scope) (id name : String) :
    (scope.mapContents fun contents => { contents with id := id, name := name }).rename f =
      (scope.rename f).mapContents fun contents => { contents with id := f id, name := name } := by
  cases scope
  rfl

section Injective

variable (hf : Function.Injective f)

include hf

theorem rename_edit (edit : Edit) (scope : Scope) :
    (scope.mapContents edit.apply).rename f =
      (scope.rename f).mapContents (edit.rename f).apply := by
  obtain ⟨contents, names, children⟩ := scope
  exact congrArg (mk · (names.map f) (renameAll f children))
    (Contents.rename_apply hf edit contents)

theorem rename_placeChild (child : Scope) (children : List Scope) :
    (placeChild child children).map (rename f) =
      placeChild (child.rename f) (children.map (rename f)) := by
  induction children with
  | nil => rfl
  | cons first rest ih =>
    by_cases hid : first.id = child.id
    · simp [placeChild, hid]
    · have hne : f first.id ≠ f child.id := fun heq => hid (hf heq)
      simp [placeChild, hid, hne, ih]

theorem rename_attach (parent child : Scope) :
    (parent.attach child).rename f = (parent.rename f).attach (child.rename f) := by
  have hnames : (parent.attach child).names.map f =
      ((parent.rename f).attach (child.rename f)).names := by
    rw [names_attach, names_attach, name_rename, id_rename, names_rename]
    split
    · rfl
    · exact OrderedMap.map_insert f _ _ _
  have hchildren : (parent.attach child).children.map (rename f) =
      ((parent.rename f).attach (child.rename f)).children := by
    rw [children_attach, children_attach, children_rename]
    exact rename_placeChild hf child parent.children
  calc (parent.attach child).rename f
      = mk ((parent.attach child).contents.rename f) ((parent.attach child).names.map f)
          ((parent.attach child).children.map (rename f)) := by
        rw [← contents_rename, ← names_rename, ← children_rename, mk_eta]
    _ = mk ((parent.rename f).attach (child.rename f)).contents
          ((parent.rename f).attach (child.rename f)).names
          ((parent.rename f).attach (child.rename f)).children := by
        rw [hnames, hchildren, contents_attach, contents_attach, contents_rename]
    _ = (parent.rename f).attach (child.rename f) := mk_eta _

theorem rename_foldl_attach (children : List Scope) (scope : Scope) :
    (children.foldl Scope.attach scope).rename f =
      (children.map (rename f)).foldl Scope.attach (scope.rename f) := by
  induction children generalizing scope with
  | nil => rfl
  | cons first rest ih => rw [List.foldl_cons, ih, rename_attach hf, List.map_cons, List.foldl_cons]

theorem rename_merge (scope other : Scope) :
    (scope.merge other).rename f = (scope.rename f).merge (other.rename f) := by
  unfold merge
  rw [rename_foldl_attach hf, children_rename, contents_rename]
  congr 1
  obtain ⟨contents, names, children⟩ := scope
  exact congrArg (mk · (names.map f) (renameAll f children))
    (Contents.rename_merge hf contents other.contents)

theorem rename_copy (scope : Scope) : scope.copy.rename f = (scope.rename f).copy := by
  induction scope using Scope.induction with
  | step contents names children ih =>
    have hcopies : (children.map copy).map (rename f) = (children.map (rename f)).map copy := by
      rw [List.map_map, List.map_map]
      exact List.map_congr_left ih
    rw [copy_eq, copy_eq, rename_foldl_attach hf, children_rename, contents_rename, children_mk,
      hcopies]
    rfl

theorem child?_rename (scope : Scope) (id : String) :
    (scope.rename f).child? (f id) = (scope.child? id).map (rename f) := by
  unfold child?
  rw [children_rename, List.find?_map]
  congr 1
  refine congrArg (scope.children.find? ·) ?_
  funext child
  simp [hf.eq_iff]

variable {α β : Type} {member : Contents → OrderedMap α} {member' : Contents → OrderedMap β}
  {g : α → β} (hmember : ∀ contents, member' (contents.rename f) = (member contents).map g)

include hmember

theorem findBelow_rename (path : Path) (scope : Scope) :
    (scope.rename f).findBelow member' path = (scope.findBelow member path).map g := by
  induction path generalizing scope with
  | nil => rfl
  | cons name rest ih =>
    cases rest with
    | nil =>
      simp only [findBelow]
      rw [contents_rename, hmember, OrderedMap.get?_map]
    | cons next rest =>
      simp only [findBelow]
      rw [names_rename, OrderedMap.get?_map]
      cases scope.names.get? name with
      | none => rfl
      | some id =>
        rw [Option.map_some, Option.bind_some, Option.bind_some, child?_rename hf]
        cases scope.child? id with
        | none => rfl
        | some child => exact ih child

theorem search_rename (path : Path) (scope : Scope) (outer : List Scope) :
    search member' path (scope.rename f) (outer.map (rename f)) =
      (search member path scope outer).map g := by
  induction outer generalizing scope with
  | nil => exact findBelow_rename hf hmember path scope
  | cons around further ih =>
    rw [List.map_cons]
    unfold search
    rw [findBelow_rename hf hmember, ← rename_attach hf, ih, Option.map_or]

end Injective

/-- What is not given by ids is found as before. -/
theorem findBelow_rename_same (hf : Function.Injective f) {α : Type}
    {member : Contents → OrderedMap α}
    (hmember : ∀ contents, member (contents.rename f) = member contents) (path : Path)
    (scope : Scope) : (scope.rename f).findBelow member path = scope.findBelow member path := by
  have hsame : ∀ contents, member (contents.rename f) =
      (member contents).map fun value => value := by
    intro contents
    rw [hmember, OrderedMap.map_same]
  rw [findBelow_rename hf hsame, Option.map_id']

theorem search_rename_same (hf : Function.Injective f) {α : Type}
    {member : Contents → OrderedMap α}
    (hmember : ∀ contents, member (contents.rename f) = member contents) (path : Path)
    (scope : Scope) (outer : List Scope) :
    search member path (scope.rename f) (outer.map (rename f)) =
      search member path scope outer := by
  have hsame : ∀ contents, member (contents.rename f) =
      (member contents).map fun value => value := by
    intro contents
    rw [hmember, OrderedMap.map_same]
  rw [search_rename hf hsame, Option.map_id']

/-- All ids mentioned have a property. -/
def Within (P : String → Prop) (scope : Scope) : Prop :=
  ∀ part ∈ scope.all, part.contents.Within P ∧ ∀ id ∈ part.names.values, P id

section Within

variable {P Q : String → Prop} {scope other child : Scope}

theorem Within.mono (h : scope.Within P) (hPQ : ∀ id, P id → Q id) : scope.Within Q := by
  intro part hpart
  obtain ⟨hcontents, hnames⟩ := h part hpart
  exact ⟨hcontents.mono hPQ, fun id hid => hPQ id (hnames id hid)⟩

theorem Within.id (h : scope.Within P) : P scope.id :=
  (h scope (self_mem_all scope)).1.id

theorem Within.of_child (h : scope.Within P) (hchild : child ∈ scope.children) : child.Within P :=
  fun part hpart => h part (mem_all_of_child hchild hpart)

theorem Within.of_children (hcontents : scope.contents.Within P)
    (hnames : ∀ id ∈ scope.names.values, P id) (h : ∀ child ∈ scope.children, child.Within P) :
    scope.Within P := by
  intro part hpart
  rcases mem_all.mp hpart with rfl | ⟨child, hchild, hin⟩
  · exact ⟨hcontents, hnames⟩
  · exact h child hchild part hin

theorem Within.mapContents (h : scope.Within P) {edit : Contents → Contents}
    (hedit : (edit scope.contents).Within P) : (scope.mapContents edit).Within P := by
  refine .of_children ?_ ?_ ?_
  · rw [contents_mapContents]
    exact hedit
  · rw [names_mapContents]
    exact (h scope (self_mem_all scope)).2
  · rw [children_mapContents]
    exact fun child hchild => h.of_child hchild

theorem Within.edit (h : scope.Within P) {edit : Edit} (hedit : edit.Within P) :
    (scope.mapContents edit.apply).Within P :=
  h.mapContents ((h scope (self_mem_all scope)).1.apply hedit)

theorem Within.attach (h : scope.Within P) (hchild : child.Within P) :
    (scope.attach child).Within P := by
  obtain ⟨hcontents, hnames⟩ := h scope (self_mem_all scope)
  refine .of_children hcontents ?_ ?_
  · intro id hid
    rw [names_attach] at hid
    split at hid
    · exact hnames id hid
    · rcases OrderedMap.mem_values_insert hid with rfl | hold
      · exact hchild.id
      · exact hnames id hold
  · intro part hpart
    rw [children_attach] at hpart
    rcases mem_placeChild hpart with rfl | hold
    · exact hchild
    · exact h.of_child hold

theorem within_ofContents {contents : Contents} (h : contents.Within P) :
    (ofContents contents).Within P :=
  .of_children h (fun _ hid => nomatch hid) fun _ hchild => nomatch hchild

theorem Within.rename_congr (h : scope.Within fun id => f id = g id) :
    scope.rename f = scope.rename g := by
  induction scope using Scope.induction with
  | step contents names children ih =>
    obtain ⟨hcontents, hnames⟩ := h _ (self_mem_all _)
    have hown : contents.rename f = contents.rename g := hcontents.rename_congr
    have hnames' : names.map f = names.map g := OrderedMap.map_congr hnames
    have hchildren : children.map (rename f) = children.map (rename g) :=
      List.map_congr_left fun child hchild => ih child hchild (h.of_child hchild)
    rw [rename_mk, rename_mk, hown, hnames', hchildren]

theorem Within.rename_eq_self (h : scope.Within fun id => f id = id) : scope.rename f = scope :=
  h.rename_congr.trans (rename_id scope)

theorem Within.attachAll {children : List Scope} (h : scope.Within P)
    (hchildren : ∀ child ∈ children, child.Within P) :
    (children.foldl Scope.attach scope).Within P := by
  induction children generalizing scope with
  | nil => exact h
  | cons first rest ih =>
    obtain ⟨hfirst, hrest⟩ := List.forall_mem_cons.mp hchildren
    exact ih (h.attach hfirst) hrest

theorem Within.merge (h : scope.Within P) (hother : other.Within P) :
    (scope.merge other).Within P := by
  have hown := (h scope (self_mem_all scope)).1
  have hin := (hother other (self_mem_all other)).1
  have hmerged : (scope.mapContents (·.merge other.contents)).Within P :=
    h.mapContents (hown.merge hin)
  exact hmerged.attachAll fun child hchild => hother.of_child hchild

theorem Within.copy (h : scope.Within P) : scope.copy.Within P := by
  induction scope using Scope.induction with
  | step contents names children ih =>
    have hown : contents.Within P := (h _ (self_mem_all _)).1
    rw [copy_eq]
    refine (within_ofContents hown).attachAll fun child hchild => ?_
    obtain ⟨original, horiginal, rfl⟩ := List.mem_map.mp hchild
    exact ih original horiginal (h.of_child horiginal)

/-- What a renamed scope mentions is what the scope itself mentions, renamed. -/
theorem within_rename : (scope.rename f).Within P ↔ scope.Within fun id => P (f id) := by
  induction scope using Scope.induction with
  | step contents names children ih =>
    have hvalues : (names.map f).values = names.values.map f := OrderedMap.values_map f names
    constructor
    · intro h
      obtain ⟨hcontents, hnames⟩ := h _ (self_mem_all _)
      rw [contents_rename, Contents.within_rename] at hcontents
      rw [names_rename, names_mk, hvalues] at hnames
      refine .of_children hcontents (fun id hid => hnames _ (List.mem_map_of_mem hid)) ?_
      intro child hchild
      refine (ih child hchild).mp (h.of_child ?_)
      rw [children_rename]
      exact List.mem_map_of_mem hchild
    · intro h
      obtain ⟨hcontents, hnames⟩ := h _ (self_mem_all _)
      refine .of_children ?_ ?_ ?_
      · rw [contents_rename]
        exact Contents.within_rename.mpr hcontents
      · intro id hid
        rw [names_rename, names_mk, hvalues] at hid
        obtain ⟨origin, horigin, rfl⟩ := List.mem_map.mp hid
        exact hnames origin horigin
      · intro child hchild
        rw [children_rename] at hchild
        obtain ⟨original, horiginal, rfl⟩ := List.mem_map.mp hchild
        exact (ih original horiginal).mpr (h.of_child horiginal)

end Within

end Scope

end Graph

end RecipeGraph
