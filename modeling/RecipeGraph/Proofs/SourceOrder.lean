import RecipeGraph.Proofs.Quotations

/-!
In which order a text is complained about. Whatever stands one after the other is looked up one
after the other, with one exception: the styles in the style block of a call or a nested scope are
looked up before what is inside the call or scope, although they stand behind it. Where no style
block follows anything, complaints come in the order of the text.
-/
namespace RecipeGraph

open RecipeGraph.Graph Recipe Source

namespace Recipe.Node

/-- What stands inside a call or a nested scope. -/
def inside : Node → List Node
  | .call _ args _ _ => args
  | .scope _ body _ args _ _ _ => body ++ args
  | _ => []

/-- The first is a style that a call or a nested scope is styled with, and the second stands inside
that call or scope. -/
def Overtakes (root first second : Node) : Prop :=
  ∃ element item, root.Reaches element ∧ first ∈ tagsOf element.styling ∧ item ∈ element.inside ∧
    item.Reaches second

/-- In the order of the text, but for what overtakes something. -/
def Precedes (root first second : Node) : Prop :=
  first.Before second ∨ root.Overtakes first second

section Order

variable {root node other first second style : Node} {nodes : List Node} {styling : Option Node}

theorem Before.below (h : node.Before other) (hfirst : node.Reaches first)
    (hsecond : other.Reaches second) : first.Before second := by
  rintro span further ⟨below, hbelow, hspan⟩ ⟨beyond, hbeyond, hfurther⟩
  exact h span further ⟨below, hfirst.trans hbelow, hspan⟩ ⟨beyond, hsecond.trans hbeyond, hfurther⟩

/-- What a node is styled with stands behind what is inside. -/
theorem inside_before (h : node.Throughout Nested) (hfirst : first ∈ node.inside)
    (hsecond : second ∈ tagsOf node.styling) : first.Before second := by
  obtain ⟨style, hstyle, htag⟩ := mem_tagsOf hsecond
  have hshown := Option.mem_toList.mpr (shown_tagged hstyle htag)
  have hordered := (h node .refl).ordered
  have hbelow : style.Reaches second := reaches_child (mem_tags htag) .refl
  cases node with
  | call name args styling extent =>
    have hbefore := (List.pairwise_append.mp hordered).2.2 first hfirst style hshown
    exact hbefore.below .refl hbelow
  | scope name body bodyExtent args argsExtent styling extent =>
    have hbefore := (List.pairwise_append.mp hordered).2.2
    rcases List.mem_append.mp hfirst with hbody | hargs
    · exact (hbefore (.statementList body bodyExtent) (by simp) style hshown).below
        (reaches_child hbody .refl) hbelow
    · exact (hbefore (.valueList args argsExtent) (by simp) style hshown).below
        (reaches_child hargs .refl) hbelow
  | _ => cases hfirst

theorem Overtakes.back (hroot : root.Throughout Nested) (h : root.Overtakes first second) :
    second.Before first := by
  obtain ⟨element, item, helement, htag, hitem, hbelow⟩ := h
  have hnested : element.Throughout Nested :=
    fun below hreaches => hroot below (helement.trans hreaches)
  exact (inside_before hnested hitem htag).below hbelow .refl

theorem tags_ordered (h : style.Throughout Nested) : style.tags.Pairwise Before := by
  have hordered := (h style .refl).ordered
  cases style with
  | style | styleBinding => exact hordered
  | _ => exact .nil

theorem tagsOf_ordered (h : node.Throughout Nested) :
    (tagsOf node.styling).Pairwise Before := by
  cases hstyling : node.styling with
  | none => exact .nil
  | some style =>
    by_cases htags : style.tags = []
    · simp [tagsOf, htags]
    · obtain ⟨tag, htag⟩ := List.exists_mem_of_ne_nil _ htags
      exact tags_ordered (h.child (styling_child (hstyling ▸ shown_tagged rfl htag)))

theorem Throughout.below {P : Node → Prop} (h : root.Throughout P) (hreaches : root.Reaches node) :
    node.Throughout P :=
  fun below hbelow => h below (hreaches.trans hbelow)

theorem Precedes.of_inside (hreaches : root.Reaches node) (hfirst : first ∈ tagsOf node.styling)
    (hitem : other ∈ node.inside) (hsecond : other.Reaches second) : root.Precedes first second :=
  Or.inr ⟨node, other, hreaches, hfirst, hitem, hsecond⟩

theorem pairwise_tagsOf (h : node.Throughout Nested) :
    (tagsOf node.styling).Pairwise root.Precedes :=
  (tagsOf_ordered h).imp Or.inl

/-- The targets of an assignment are styled one after the other. -/
theorem pairwise_targets {targets : List Node} (htargets : targets.Pairwise Before)
    (hnested : ∀ target ∈ targets, target.Throughout Nested) :
    (targets.flatMap fun target => tagsOf target.styling).Pairwise root.Precedes := by
  refine List.pairwise_flatMap.mpr ⟨fun target hin => pairwise_tagsOf (hnested target hin), ?_⟩
  refine htargets.imp ?_
  intro target other hbefore first hfirst second hsecond
  exact Or.inl (hbefore.below (reaches_tagsOf hfirst) (reaches_tagsOf hsecond))

mutual

/-- What a node refers to comes in the order of the text, but for what overtakes something. -/
theorem referrals_ordered (hroot : root.Throughout Nested) : ∀ node : Node, root.Reaches node →
    node.referrals.Pairwise root.Precedes
  | .call name args styling extent, hreaches => by
    have hnested := hroot.below hreaches
    have hargs : args.Pairwise Before := (List.pairwise_append.mp (hnested _ .refl).ordered).1
    refine List.pairwise_append.mpr ⟨pairwise_tagsOf hnested, ?_, fun tag htag below hbelow => ?_⟩
    · refine referralsOfAll_ordered hroot args (fun arg hin => ?_) hargs
      exact hreaches.trans (reaches_child (List.mem_append_left _ hin) .refl)
    · obtain ⟨arg, hin, harg⟩ := reaches_referralsOfAll args hbelow
      exact .of_inside hreaches htag hin harg
  | .variable path extent, _ => List.pairwise_singleton _ _
  | .assignment targets none extent, _ => .nil
  | .assignment targets (some value) extent, hreaches => by
    have hnested := hroot.below hreaches
    have hordered := List.pairwise_append.mp (hnested _ .refl).ordered
    have hvalue : value.referrals.Pairwise root.Precedes := by
      by_cases hnone : value.referrals = []
      · rw [hnone]
        exact .nil
      · obtain ⟨below, hbelow⟩ := List.exists_mem_of_ne_nil _ hnone
        have hshown := Option.mem_toList.mpr (shown_referring hbelow)
        exact referrals_ordered hroot value
          (hreaches.trans (reaches_child (List.mem_append_right _ hshown) .refl))
    refine List.pairwise_append.mpr ⟨pairwise_targets hordered.1 fun target hin => ?_, hvalue,
      fun tag htag below hbelow => ?_⟩
    · exact hnested.child (List.mem_append_left _ hin)
    · obtain ⟨target, hin, htag⟩ := List.mem_flatMap.mp htag
      have hvalue : value ∈ (shown (some value)).toList :=
        Option.mem_toList.mpr (shown_referring hbelow)
      exact Or.inl ((hordered.2.2 target hin value hvalue).below (reaches_tagsOf htag)
        (reaches_referrals value hbelow))
  | .scope name body bodyExtent args argsExtent styling extent, hreaches => by
    have hnested := hroot.below hreaches
    have hbody : root.Reaches (.statementList body bodyExtent) :=
      hreaches.trans (reaches_child (by simp [children]) .refl)
    have hargs : root.Reaches (.valueList args argsExtent) :=
      hreaches.trans (reaches_child (by simp [children]) .refl)
    have hbefore : (Node.statementList body bodyExtent).Before (.valueList args argsExtent) :=
      (List.pairwise_cons.mp (hnested _ .refl).ordered).1 _ List.mem_cons_self
    refine List.pairwise_append.mpr ⟨pairwise_tagsOf hnested,
      List.pairwise_append.mpr ⟨?_, ?_, ?_⟩, ?_⟩
    · exact referralsOfAll_ordered hroot body
        (fun node hin => hbody.trans (reaches_child hin .refl)) (hroot _ hbody).ordered
    · exact referralsOfAll_ordered hroot args
        (fun node hin => hargs.trans (reaches_child hin .refl)) (hroot _ hargs).ordered
    · intro first hfirst second hsecond
      obtain ⟨statement, hin, hstatement⟩ := reaches_referralsOfAll body hfirst
      obtain ⟨arg, hin', harg⟩ := reaches_referralsOfAll args hsecond
      exact Or.inl (hbefore.below (reaches_child hin hstatement) (reaches_child hin' harg))
    · intro tag htag below hbelow
      rcases List.mem_append.mp hbelow with hinside | hinside
      · obtain ⟨statement, hin, hstatement⟩ := reaches_referralsOfAll body hinside
        exact .of_inside hreaches htag (List.mem_append_left _ hin) hstatement
      · obtain ⟨arg, hin, harg⟩ := reaches_referralsOfAll args hinside
        exact .of_inside hreaches htag (List.mem_append_right _ hin) harg
  | .package location label extent, _ => List.pairwise_singleton _ _
  | .namedStyle name named extent, hreaches => by
    have hnested := hroot.below hreaches
    exact (tags_ordered (hnested.child (List.mem_singleton_self named))).imp Or.inl
  | .styleBinding .., _ => .nil
  | .target .., _ => .nil
  | .style .., _ => .nil
  | .styleTag .., _ => .nil
  | .valueList .., _ => .nil
  | .statementList .., _ => .nil
  | .recipe .., _ => .nil

theorem referralsOfAll_ordered (hroot : root.Throughout Nested) : ∀ nodes : List Node,
    (∀ node ∈ nodes, root.Reaches node) → nodes.Pairwise Before →
      (referralsOfAll nodes).Pairwise root.Precedes
  | [], _, _ => .nil
  | node :: rest, hreaches, hordered => by
    rw [List.forall_mem_cons] at hreaches
    rw [List.pairwise_cons] at hordered
    refine List.pairwise_append.mpr ⟨referrals_ordered hroot node hreaches.1,
      referralsOfAll_ordered hroot rest hreaches.2 hordered.2, ?_⟩
    intro first hfirst second hsecond
    obtain ⟨other, hin, hother⟩ := reaches_referralsOfAll rest hsecond
    exact Or.inl ((hordered.1 other hin).below (reaches_referrals node hfirst) hother)

end

end Order

end Recipe.Node

/-- Complaints come in the order in which the text is read. -/
def InSourceOrder (diagnostics : List Diagnostic) : Prop :=
  diagnostics.Pairwise fun first second => first.extent.start ≤ second.extent.start

/-- The first complaint is about a style that a call or a nested scope is styled with, and the
second about something inside the call or scope, which stands before the style. -/
def Diagnostic.Overtakes (root : Node) (first second : Diagnostic) : Prop :=
  ∃ tag inner, root.Overtakes tag inner ∧ first.Concerns tag ∧ second.Concerns inner ∧
    second.extent.stop ≤ first.extent.start

section Reports

variable {text filename : String} {tree : Tree} {node other root : Node}
  {first second : Diagnostic} {kept : List Node} {reports : List Diagnostic}

/-- A relation between references is one between the complaints about them. -/
theorem pairwise_reports {R : Node → Node → Prop}
    (hconcern : List.Forall₂ Diagnostic.Concerns kept reports) (hkept : kept.Pairwise R) :
    reports.Pairwise fun first second => ∃ node ∈ kept, ∃ other ∈ kept,
      first.Concerns node ∧ second.Concerns other ∧ R node other := by
  induction hconcern with
  | nil => exact .nil
  | @cons node first kept reports hfirst hrest ih =>
    rw [List.pairwise_cons] at hkept
    refine List.pairwise_cons.mpr ⟨fun second hsecond => ?_, (ih hkept.2).imp ?_⟩
    · obtain ⟨other, hother, hconcerns⟩ := Diagnostic.exists_concern hrest second hsecond
      exact ⟨node, List.mem_cons_self, other, List.mem_cons_of_mem _ hother, hfirst, hconcerns,
        hkept.1 other hother⟩
    · rintro earlier later ⟨node', hnode', other', hother', hearlier⟩
      exact ⟨node', List.mem_cons_of_mem _ hnode', other', List.mem_cons_of_mem _ hother', hearlier⟩

theorem nested_parsed (h : parse text filename = .ok tree) :
    (ofTree tree text).recipe.toNode.Throughout Node.Nested := by
  obtain ⟨derivation, hderive⟩ := parse_ok_iff.mp ⟨tree, h⟩
  have htext := ofText_of_parse h
  rw [← htext]
  exact nested_read hderive filename

/-- Complaints come in the order of the text unless one overtakes the other. Where nothing inside a
call or a nested scope is followed by styles that it is styled with, all come in that order. -/
theorem compile_ordered (h : parse text filename = .ok tree) (compiler : Compile.Compiler)
    (name : String) (chain : List String) (world : Package.World) :
    let root := (ofTree tree text).recipe.toNode
    let diagnostics := (compiler.compile text name chain world).1.diagnostics
    diagnostics.Pairwise (fun first second =>
        first.extent.start ≤ second.extent.start ∨ first.Overtakes root second) ∧
      ((∀ element, root.Reaches element →
          element.inside = [] ∨ Node.tagsOf element.styling = []) → InSourceOrder diagnostics) := by
  intro root diagnostics
  have hnested : root.Throughout Node.Nested := nested_parsed h
  obtain ⟨kept, hkept, hplaced, hconcern⟩ := compile_concerns h compiler name chain world
  have hordered : kept.Pairwise root.Precedes :=
    (Node.referralsOfAll_ordered hnested _ (fun node hin => Node.reaches_child hin .refl)
      (hnested root .refl).ordered).sublist hkept
  have hmain : diagnostics.Pairwise fun first second =>
      first.extent.start ≤ second.extent.start ∨ first.Overtakes root second := by
    refine (pairwise_reports hconcern hordered).imp ?_
    rintro first second ⟨node, hnode, other, hother, hfirst, hsecond, hprecedes⟩
    obtain ⟨hreaches, hquotes⟩ := hplaced node hnode
    have hextent := hfirst.extent hquotes
    have hfurther := hsecond.extent (hplaced other hother).2
    rcases hprecedes with hbefore | hovertakes
    · have hstop := hbefore _ _ ⟨node, .refl, hextent⟩ ⟨other, .refl, hfurther⟩
      have hspan := ((positions_nested h).inside node _ hreaches hextent).2.1
      exact Or.inl (Int.le_trans hspan hstop)
    · have hstop := hovertakes.back hnested _ _ ⟨other, .refl, hfurther⟩ ⟨node, .refl, hextent⟩
      exact Or.inr ⟨node, other, hovertakes, hfirst, hsecond, hstop⟩
  refine ⟨hmain, fun hnone => hmain.imp ?_⟩
  rintro first second (hstart | ⟨tag, inner, ⟨element, item, hreaches, htag, hitem, -⟩, -⟩)
  · exact hstart
  · rcases hnone element hreaches with hinside | htags
    · exact absurd (hinside ▸ hitem) List.not_mem_nil
    · exact absurd (htags ▸ htag) List.not_mem_nil

/-- A style is complained about before the argument that it stands behind. -/
theorem complaints_out_of_order :
    (∃ tree, parse "f(x)\x7b#s\x7d" "" = .ok tree) ∧
      let diagnostics := ((Compile.Compiler.mk Compile.tally mistaken).compile "f(x)\x7b#s\x7d" ""
        [] {}).1.diagnostics
      diagnostics = [⟨⟨5, 7⟩, .undefinedStyleTag ["s"]⟩, ⟨⟨2, 3⟩, .undefinedVariable ["x"]⟩] ∧
        ¬ InSourceOrder diagnostics := by
  have hdiagnostics : ((Compile.Compiler.mk Compile.tally mistaken).compile "f(x)\x7b#s\x7d" "" []
      {}).1.diagnostics =
        [⟨⟨5, 7⟩, .undefinedStyleTag ["s"]⟩, ⟨⟨2, 3⟩, .undefinedVariable ["x"]⟩] := by
    decide +kernel
  refine ⟨parse_ok_of_isSome (by decide +kernel), hdiagnostics, ?_⟩
  rw [hdiagnostics]
  simp [InSourceOrder]

theorem compile_ordered_nested :
    ∃ tree, parse "a\x7b#q\x7d = n[f(x)\x7b#s\x7d](y)\x7b#t\x7d\ng(z)" "" = .ok tree ∧
      let root := (ofTree tree "a\x7b#q\x7d = n[f(x)\x7b#s\x7d](y)\x7b#t\x7d\ng(z)").recipe.toNode
      let diagnostics := ((Compile.Compiler.mk Compile.tally mistaken).compile
        "a\x7b#q\x7d = n[f(x)\x7b#s\x7d](y)\x7b#t\x7d\ng(z)" "" [] {}).1.diagnostics
      diagnostics.Pairwise (fun first second =>
          first.extent.start ≤ second.extent.start ∨ first.Overtakes root second) ∧
        ((∀ element, root.Reaches element →
          element.inside = [] ∨ Node.tagsOf element.styling = []) → InSourceOrder diagnostics) := by
  obtain ⟨tree, h⟩ :
      ∃ tree, parse "a\x7b#q\x7d = n[f(x)\x7b#s\x7d](y)\x7b#t\x7d\ng(z)" "" = .ok tree :=
    parse_ok_of_isSome (by decide +kernel)
  exact ⟨tree, h, compile_ordered h _ "" [] {}⟩

end Reports

end RecipeGraph
