import RecipeGraph.Compile.Survey
import RecipeGraph.Proofs.InPlaceLowering

/-!
What an export counts is what it shows. A survey works through a list of members that grows at its
front, and passes over those it has seen; a document is written by plain recursion. Where nobody is
held twice the survey comes to the members in the order in which their documents stand in that of
the top, whatever ids they have, so that the counts of an export are those of its own document.
-/
namespace RecipeGraph

namespace Json

/-- The value of a field, if there is one. -/
def field? (name : String) : Json → Option Json
  | object fields => fields.lookup name
  | _ => none

def items : Json → List Json
  | array items => items
  | _ => []

/-- How many items a field has. -/
def sizeOf (name : String) (document : Json) : Nat :=
  (((document.field? name).map items).getD []).length

theorem sizeOf_eq {name : String} {document : Json} {items : List Json}
    (h : document.field? name = some (.array items)) : document.sizeOf name = items.length := by
  unfold sizeOf
  rw [h]
  rfl

mutual

/-- The document of a scope and those of the scopes in it, each before those in it. -/
def scopes : Json → List Json
  | object fields => object fields :: scopesInFields fields
  | _ => []

def scopesInFields : List (String × Json) → List Json
  | [] => []
  | (name, value) :: rest => if name = "children" then scopesInItems value else scopesInFields rest

def scopesInItems : Json → List Json
  | array items => scopesOfAll items
  | _ => []

def scopesOfAll : List Json → List Json
  | [] => []
  | item :: rest => scopes item ++ scopesOfAll rest

end

/-- What an exported document says of itself under a name. -/
def counted? (document : Json) (name : String) : Option Json :=
  (document.field? "export_metadata").bind (field? name)

/-- The counts of an exported document are those of the scopes and the errors that it shows. -/
structure Counted (document outermost : Json) : Prop where
  shown : document.field? "dag" = some outermost
  scopes : document.counted? "dag_count" = some (.ofNat outermost.scopes.length)
  vertices : document.counted? "node_count" =
    some (.ofNat (totalOf (sizeOf "nodes") outermost.scopes))
  edges : document.counted? "edge_count" =
    some (.ofNat (totalOf (sizeOf "edges") outermost.scopes))
  errors : document.counted? "error_count" = some (.ofNat (document.sizeOf "errors"))

end Json

/-- Totals agree where item by item the counts do. -/
theorem totalOf_forall₂ {α β : Type} {count : α → Nat} {count' : β → Nat} {as : List α}
    {bs : List β} (h : List.Forall₂ (fun a b => count a = count' b) as bs) :
    totalOf count as = totalOf count' bs := by
  induction h with
  | nil => rfl
  | cons hfirst _ ih => rw [totalOf, totalOf, hfirst, ih]

namespace Graph

section Documents

variable (contents : Contents) (lineage outerLineage : String) (children : List Json)

theorem scopes_toJson : (contents.toJson lineage outerLineage children).scopes =
    contents.toJson lineage outerLineage children :: Json.scopesOfAll children := by
  unfold Contents.toJson
  simp [Json.scopes, Json.scopesInFields, Json.scopesInItems]

theorem sizeOf_vertices :
    (contents.toJson lineage outerLineage children).sizeOf "nodes" = contents.vertices.size := by
  have hfield : (contents.toJson lineage outerLineage children).field? "nodes" =
      some (.array (contents.vertices.values.map Vertex.toJson)) := rfl
  rw [Json.sizeOf_eq hfield]
  simp [OrderedMap.values, OrderedMap.size]

theorem sizeOf_edges :
    (contents.toJson lineage outerLineage children).sizeOf "edges" = contents.edges.size := by
  have hfield : (contents.toJson lineage outerLineage children).field? "edges" =
      some (.array (contents.edges.values.map Edge.toJson)) := rfl
  rw [Json.sizeOf_eq hfield]
  simp [OrderedMap.values, OrderedMap.size]

end Documents

namespace Hierarchy

/-- Some members and all below them, each before those below it. -/
inductive Tours (h : Hierarchy) : List Nat → List Nat → Prop
  | nil : Tours h [] []
  | cons {n : Nat} {member : Member} {rest inner outer : List Nat} (hn : h.get? n = some member)
      (hinner : Tours h member.children.values inner) (houter : Tours h rest outer) :
      Tours h (n :: rest) (n :: (inner ++ outer))

variable {h : Hierarchy} {top n k : Nat} {way way' : List Nat}
  {pending further ks ls seen : List Nat} {member : Member} {scope : Scope} {scopes : List Scope}

section Tours

theorem Tours.append (htour : h.Tours pending ks) (hfurther : h.Tours further ls) :
    h.Tours (pending ++ further) (ks ++ ls) := by
  induction htour with
  | nil => exact hfurther
  | @cons n member rest inner outer hn hinner _ _ ih =>
    have hsplit : n :: (inner ++ outer) ++ ls = n :: (inner ++ (outer ++ ls)) := by simp
    rw [hsplit]
    exact .cons hn hinner ih

/-- A survey that has seen nobody of a tour makes the tour. -/
theorem Tours.walk_eq (htour : h.Tours pending ks) (hnodup : ks.Nodup)
    (hnew : ∀ k ∈ ks, k ∉ seen) : h.walk seen pending = ks := by
  fun_induction walk h seen pending generalizing ks with
  | case1 seen =>
    cases htour
    rfl
  | case2 seen n rest hskip ih =>
    cases htour with
    | cons hn hinner houter =>
      rcases hskip with hold | hbeyond
      · exact absurd hold (hnew n (List.mem_cons_self ..))
      · exact absurd (lt_of_get? hn) (Nat.not_lt_of_le hbeyond)
  | case3 seen n rest hskip ih =>
    cases htour with
    | @cons _ member _ inner outer hn hinner houter =>
      have hchildren : h.childrenOf n = member.children.values := by
        unfold childrenOf
        rw [hn]
      obtain ⟨hfirst, hrest⟩ := List.nodup_cons.mp hnodup
      rw [hchildren] at ih ⊢
      rw [ih (hinner.append houter) hrest]
      intro k hk hmem
      rcases List.mem_cons.mp hmem with rfl | hold
      · exact hfirst hk
      · exact hnew k (List.mem_cons_of_mem _ hk) hold

theorem Tours.descends (htour : h.Tours pending ks) (hk : k ∈ ks) :
    ∃ n ∈ pending, ∃ way, h.Descends n way k := by
  induction htour with
  | nil => cases hk
  | @cons n member rest inner outer hn hinner houter ihInner ihOuter =>
    rcases List.mem_cons.mp hk with rfl | hlater
    · exact ⟨k, List.mem_cons_self .., [], .here⟩
    · rcases List.mem_append.mp hlater with hbelow | hbeside
      · obtain ⟨child, hchild, way, hway⟩ := ihInner hbelow
        obtain ⟨id, hholds⟩ := holds_of_mem_values hn hchild
        exact ⟨n, List.mem_cons_self .., child :: way, hway.from_child hholds⟩
      · obtain ⟨m, hm, hway⟩ := ihOuter hbeside
        exact ⟨m, List.mem_cons_of_mem _ hm, hway⟩

theorem Descends.trans (hway : h.Descends top way n) (hfurther : h.Descends n way' k) :
    h.Descends top (way ++ way') k := by
  induction hfurther with
  | here => simpa using hway
  | down _ hholds ih =>
    rw [← List.append_assoc]
    exact ih.down hholds

/-- Below a top, two ways from one member to another are the same. -/
theorem Linked.same_way (hlinked : h.Linked) (htop : h.IsTop top) (hthere : h.Descends top way n)
    {down down' : List Nat} (hdown : h.Descends n down k) (hdown' : h.Descends n down' k) :
    down = down' :=
  List.append_cancel_left
    (hlinked.one_way htop htop (hthere.trans hdown') (hthere.trans hdown)).2

theorem Linked.values_nodup (hlinked : h.Linked) (hn : h.get? n = some member) :
    member.children.values.Nodup :=
  (List.nodup_flatMap.mp hlinked.children_nodup).1 member (List.mem_of_getElem? hn)

/-- Nobody comes twice on a tour below a top, unless one of those that it begins with is below
another. -/
theorem Tours.nodup (hlinked : h.Linked) (htop : h.IsTop top) (htour : h.Tours pending ks)
    (hpending : pending.Nodup) (hthere : ∀ n ∈ pending, ∃ way, h.Descends top way n)
    (hapart : ∀ m ∈ pending, ∀ n ∈ pending, ∀ way way' k, h.Descends m way k →
      h.Descends n way' k → m = n) : ks.Nodup := by
  induction htour with
  | nil => exact List.nodup_nil
  | @cons n member rest inner outer hn hinner houter ihInner ihOuter =>
    obtain ⟨hfirst, hrest⟩ := List.nodup_cons.mp hpending
    obtain ⟨way, hway⟩ := hthere n (List.mem_cons_self ..)
    have hbelow : ∀ k ∈ inner, ∃ child down, h.Descends n (child :: down) k := by
      intro k hk
      obtain ⟨child, hchild, down, hdown⟩ := hinner.descends hk
      obtain ⟨id, hholds⟩ := holds_of_mem_values hn hchild
      exact ⟨child, down, hdown.from_child hholds⟩
    have hbeside : ∀ k ∈ outer, ∀ down, ¬ h.Descends n down k := by
      intro k hk down hdown
      obtain ⟨m, hm, down', hdown'⟩ := houter.descends hk
      obtain rfl :=
        hapart n (List.mem_cons_self ..) m (List.mem_cons_of_mem _ hm) _ _ k hdown hdown'
      exact hfirst hm
    have hchildren : inner.Nodup := by
      refine ihInner (hlinked.values_nodup hn) (fun child hchild => ?_) ?_
      · obtain ⟨id, hholds⟩ := holds_of_mem_values hn hchild
        exact ⟨_, hway.down hholds⟩
      · intro a ha b hb down down' k hdown hdown'
        obtain ⟨id, hholds⟩ := holds_of_mem_values hn ha
        obtain ⟨id', hholds'⟩ := holds_of_mem_values hn hb
        have hsame := hlinked.same_way htop hway (hdown.from_child hholds)
          (hdown'.from_child hholds')
        exact (List.cons.inj hsame).1
    have hothers : outer.Nodup :=
      ihOuter hrest (fun m hm => hthere m (List.mem_cons_of_mem _ hm))
        fun a ha b hb => hapart a (List.mem_cons_of_mem _ ha) b (List.mem_cons_of_mem _ hb)
    rw [List.nodup_cons, List.mem_append, List.nodup_append]
    refine ⟨?_, hchildren, hothers, ?_⟩
    · rintro (hin | hout)
      · obtain ⟨child, down, hdown⟩ := hbelow n hin
        exact absurd (hlinked.same_way htop hway hdown .here) (List.cons_ne_nil _ _)
      · exact hbeside n hout [] .here
    · rintro k hin _ hout rfl
      obtain ⟨child, down, hdown⟩ := hbelow k hin
      exact hbeside k hout _ hdown

/-- What depicts scopes can be toured, scope by scope. -/
theorem exists_tour : ∀ (scopes : List Scope) {pending : List Nat},
    List.Forall₂ h.Depicts pending scopes →
      ∃ ks, h.Tours pending ks ∧ List.Forall₂ h.Depicts ks (Scope.allOf scopes)
  | [], _, .nil => ⟨[], .nil, .nil⟩
  | .mk contents names children :: rest, _, .cons hfirst hrest => by
    obtain ⟨member, hn, -, -, hchildren⟩ := hfirst.find
    obtain ⟨inner, hinner, hinside⟩ := exists_tour children hchildren
    obtain ⟨outer, houter, hothers⟩ := exists_tour rest hrest
    exact ⟨_, .cons hn hinner houter, .cons hfirst (List.rel_append hinside hothers)⟩

/-- Below a top, a survey comes to every member once, in the order of the scopes. -/
theorem TopDepicts.survey (hlinked : h.Linked) (hscope : h.TopDepicts n scope) :
    h.Tours [n] (h.below n) ∧ (h.below n).Nodup ∧ List.Forall₂ h.Depicts (h.below n) scope.all := by
  obtain ⟨ks, htour, hdepicts⟩ := exists_tour [scope] (.cons hscope.depicts .nil)
  have hnodup : ks.Nodup := by
    refine htour.nodup hlinked hscope.top (List.nodup_singleton _) ?_ ?_
    · simpa using ⟨[], .here⟩
    · simp
  have hwalk : h.below n = ks := htour.walk_eq hnodup (by simp)
  rw [hwalk]
  have hall : Scope.allOf [scope] = scope.all := by simp [Scope.allOf]
  exact ⟨htour, hnodup, hall ▸ hdepicts⟩

theorem members_depicting (hdepicts : List.Forall₂ h.Depicts ks scopes) :
    List.Forall₂ (fun member (part : Scope) => member.contents = part.contents)
      (ks.filterMap h.get?) scopes := by
  induction hdepicts with
  | nil => exact .nil
  | cons hfirst _ ih =>
    obtain ⟨member, hn, hcontents, -⟩ := hfirst.find
    rw [List.filterMap_cons_some hn]
    exact .cons hcontents.symm ih

end Tours

section Written

/-- The document of a member holds those of its children. -/
theorem toJson_eq (hlinked : h.Linked) (hfree : h.CircleFree n) (hn : h.get? n = some member) :
    h.toJson n = member.contents.toJson (Scope.lineageText member.lineage)
      (Scope.lineageText member.lineage.dropLast) (member.children.values.map h.toJson) := by
  have hchildren : member.children.values.map (h.jsonWithin h.members.length) =
      member.children.values.map h.toJson := by
    refine List.map_congr_left fun k hk => ?_
    obtain ⟨id, hholds⟩ := holds_of_mem_values hn hk
    refine (jsonWithin_congr (fun _ _ _ => rfl) fun way j hway => ?_).symm
    have hdeep := hfree.length_lt hlinked (lt_of_get? hn) (hway.from_child hholds)
    rw [List.length_cons] at hdeep
    omega
  unfold toJson jsonWithin
  rw [hn]
  dsimp only
  rw [hchildren]
  rfl

/-- The documents within some documents are those of the members on the tour. -/
theorem Tours.documents (hlinked : h.Linked) (htour : h.Tours pending ks)
    (hfree : ∀ n ∈ pending, h.CircleFree n) :
    Json.scopesOfAll (pending.map h.toJson) = ks.map h.toJson := by
  induction htour with
  | nil => rfl
  | @cons n member rest inner outer hn hinner houter ihInner ihOuter =>
    obtain ⟨hfirst, hrest⟩ := List.forall_mem_cons.mp hfree
    have hchildren : ∀ k ∈ member.children.values, h.CircleFree k := by
      intro k hk
      obtain ⟨id, hholds⟩ := holds_of_mem_values hn hk
      exact hfirst.of_child hholds
    have hself : (h.toJson n).scopes = h.toJson n :: inner.map h.toJson := by
      rw [toJson_eq hlinked hfirst hn, scopes_toJson, ihInner hchildren]
    rw [List.map_cons, Json.scopesOfAll, hself, ihOuter hrest, List.map_cons, List.map_append,
      List.cons_append]

/-- The document of a member shows as many vertices and edges as the scope that it depicts has. -/
theorem Depicts.sizes (hlinked : h.Linked) (hscope : h.Depicts n scope) :
    (h.toJson n).sizeOf "nodes" = scope.contents.vertices.size ∧
      (h.toJson n).sizeOf "edges" = scope.contents.edges.size := by
  obtain ⟨member, hn, hcontents, -⟩ := hscope.find
  rw [toJson_eq hlinked hscope.circleFree hn, sizeOf_vertices, sizeOf_edges, hcontents]
  exact ⟨rfl, rfl⟩

end Written

end Hierarchy

end Graph

namespace Compile

open RecipeGraph.Graph Package

namespace InPlace

/-- What texts lead to when they are compiled one after the other, in place and otherwise. Each
comes with a library and a chain of its own, and the cache may be cleared in between. -/
inductive Tandem (idOf : Nat → String) : Yard → World → Prop
  | begin : Tandem idOf {} {}
  | compile {yard : Yard} {world : World} (h : Tandem idOf yard world) (library : Library)
      (source filename : String) (chain : List String) :
      Tandem idOf (InPlace.compile ⟨idOf, library⟩ source filename chain yard).2
        ((Compiler.mk idOf library).compile source filename chain world).2
  | clear {yard : Yard} {world : World} (h : Tandem idOf yard world) :
      Tandem idOf yard.clear world.clear

variable {idOf : Nat → String} {yard : Yard} {world : World}

theorem Yard.Shows.compile (hshows : yard.Shows [] world) (idOf : Nat → String) (library : Library)
    (source filename : String) (chain : List String) :
    Agrees yard.size [] []
      (InPlace.lowerInto (outfitWith idOf chain (some library)) none none "" none
        (Recipe.ofText source filename).recipe.statements yard)
      (lowerRecipe (settingWith idOf chain (some library))
        (Recipe.ofText source filename).recipe.statements world) :=
  hshows.lowerInto (settingWith idOf chain (some library))
    (adds_outfitWith idOf chain (some library)) (mirrors_outfitWith idOf chain (some library))
    none "" none _

theorem Tandem.shows (h : Tandem idOf yard world) : yard.Shows [] world := by
  induction h with
  | begin => exact shows_start
  | compile _ library source filename chain ih =>
    exact (ih.compile idOf library source filename chain).shows.subset (List.nil_subset _)
  | clear _ ih => exact { ih with cache := .nil }

/-- The counts of a product are those of its document, and of the scope that it depicts. -/
theorem Product.counted {product : Product} {scope : Scope} (hforest : product.hierarchy.Forest)
    (hscope : product.hierarchy.TopDepicts product.top scope) (time : String) :
    (product.hierarchy.toJson product.top).scopes =
        product.surveyed.map product.hierarchy.toJson ∧
      (product.toJson time).Counted (product.hierarchy.toJson product.top) ∧
      product.totals = Compile.totals scope := by
  obtain ⟨htour, -, hdepicts⟩ := hscope.survey hforest.linked
  have hscopes : (product.hierarchy.toJson product.top).scopes =
      product.surveyed.map product.hierarchy.toJson := by
    have hdocuments := htour.documents hforest.linked (by simpa using hscope.depicts.circleFree)
    simpa [Json.scopesOfAll, surveyed] using hdocuments
  have hsizes : List.Forall₂ (fun document (part : Scope) =>
      document.sizeOf "nodes" = part.contents.vertices.size ∧
        document.sizeOf "edges" = part.contents.edges.size)
      (product.hierarchy.toJson product.top).scopes scope.all := by
    rw [hscopes, List.forall₂_map_left_iff]
    exact hdepicts.imp fun _ _ hpart => hpart.sizes hforest.linked
  have htotals : product.totals = Compile.totals scope := by
    have hmembers := Hierarchy.members_depicting hdepicts
    unfold Product.totals Compile.totals surveyed
    dsimp only
    rw [hmembers.length_eq,
      totalOf_forall₂ (hmembers.imp fun _ _ hsame => congrArg (·.vertices.size) hsame),
      totalOf_forall₂ (hmembers.imp fun _ _ hsame => congrArg (·.edges.size) hsame)]
  refine ⟨hscopes, ?_, htotals⟩
  unfold Product.toJson
  rw [htotals]
  exact {
    shown := rfl
    scopes := by
      rw [hsizes.length_eq]
      rfl
    vertices := by
      rw [totalOf_forall₂ (hsizes.imp fun _ _ hsame => hsame.1)]
      rfl
    edges := by
      rw [totalOf_forall₂ (hsizes.imp fun _ _ hsame => hsame.2)]
      rfl
    errors := by
      have hfield : ((Compile.totals scope).document (product.hierarchy.toJson product.top)
          product.diagnostics time).field? "errors" =
            some (.array (product.diagnostics.map Diagnostic.toJson)) := rfl
      rw [Json.sizeOf_eq hfield, List.length_map]
      rfl }

/-- Whatever was compiled before, a survey of what comes of a text comes to the top and to everyone
below it once, in the order in which their documents stand in that of the top. So the export, which
is the same as that of the text compiled otherwise, counts the scopes, vertices, edges and errors
that it shows. -/
theorem counted_as_shown (h : Tandem idOf yard world) (library : Library)
    (source filename : String) (chain : List String) (time : String) :
    let product := (InPlace.compile ⟨idOf, library⟩ source filename chain yard).1
    let outermost := product.hierarchy.toJson product.top
    (product.surveyed.Nodup ∧ ∀ n, n ∈ product.surveyed ↔
        ∃ way, product.hierarchy.Descends product.top way n) ∧
      outermost.scopes = product.surveyed.map product.hierarchy.toJson ∧
      (product.toJson time).Counted outermost ∧
      product.toJson time =
        (Compiler.compile ⟨idOf, library⟩ source filename chain world).1.toJson time := by
  intro product outermost
  have hagrees := h.shows.compile idOf library source filename chain
  have hforest : product.hierarchy.Forest := hagrees.shows.forest
  have htop : product.hierarchy.IsTop product.top := by
    cases hagrees.around with
    | top hparent => exact Option.map_eq_some_iff.mp hparent
  have hscope : product.hierarchy.TopDepicts product.top _ := ⟨hagrees.depicts, htop⟩
  obtain ⟨hscopes, hcounted, htotals⟩ := product.counted hforest hscope time
  obtain ⟨member, hmember, -⟩ := htop
  refine ⟨⟨(hscope.survey hforest.linked).2.1, fun n => ⟨Hierarchy.descends_of_mem_below, ?_⟩⟩,
    hscopes, hcounted, ?_⟩
  · rintro ⟨way, hway⟩
    exact hforest.linked.mem_below (Hierarchy.lt_of_get? hmember) hway
  · have hdiagnostics : product.diagnostics =
        (Compiler.compile ⟨idOf, library⟩ source filename chain world).1.diagnostics :=
      congrArg ((Recipe.ofText source filename).diagnostics ++ ·) hagrees.diagnostics
    unfold Product.toJson Compilation.toJson
    rw [htotals, hscope.toJson hforest, hdiagnostics]
    rfl

/-- Ids that repeat. -/
def few (n : Nat) : String :=
  match n % 3 with
  | 0 => "p"
  | 1 => "q"
  | _ => "r"

/-- What is compiled after another text that brought in the same package. -/
def porch : String :=
  "@\"base.fiz\"\nb @ \"base.fiz\"\nm[a[u = f(t)]](w)\nk(a.y)"

theorem counted_dags (compilation : Compilation) (time : String) :
    (compilation.toJson time).counted? "dag_count" =
      some (.ofNat compilation.scope.all.length) :=
  rfl

theorem porch_scopes :
    let compiler : Compiler := ⟨few, shelf⟩
    let earlier := compiler.compile "b @ \"base.fiz\"" "e.fiz" [] {}
    (compiler.compile porch "f.fiz" [] earlier.2).1.scope.all.length = 6 := by
  decide +kernel

/-- The package is merged after it was brought in by another text, and brought in again. -/
theorem counted_as_shown_repeated :
    let earlier := InPlace.compile ⟨few, shelf⟩ "b @ \"base.fiz\"" "e.fiz" [] {}
    let product := (InPlace.compile ⟨few, shelf⟩ porch "f.fiz" [] earlier.2).1
    let outermost := product.hierarchy.toJson product.top
    product.surveyed.Nodup ∧ outermost.scopes = product.surveyed.map product.hierarchy.toJson ∧
      (product.toJson "").Counted outermost ∧
      (product.toJson "").counted? "dag_count" = some (.ofNat 6) := by
  have hbefore : Tandem few (InPlace.compile ⟨few, shelf⟩ "b @ \"base.fiz\"" "e.fiz" [] {}).2
      ((Compiler.mk few shelf).compile "b @ \"base.fiz\"" "e.fiz" [] {}).2 :=
    Tandem.begin.compile shelf "b @ \"base.fiz\"" "e.fiz" []
  have hall := counted_as_shown hbefore shelf porch "f.fiz" [] ""
  obtain ⟨⟨hnodup, -⟩, hscopes, hcounted, hsame⟩ := hall
  refine ⟨hnodup, hscopes, hcounted, ?_⟩
  rw [hsame, counted_dags, porch_scopes]

end InPlace

end Compile

end RecipeGraph
