import Mathlib.Data.List.Forall2
import RecipeGraph.Proofs.Nesting
import RecipeGraph.Proofs.Rooms

/-!
No call and no argument of a recipe is lost or doubled. The scopes that come of a recipe are its
rooms, one by one, with the calls that belong there. For each thing that flows in there is an edge
or a report. What is read from a text stands at places of its own, so a report shows by its place
for what it was made.
-/
namespace RecipeGraph

open RecipeGraph.Graph Recipe Scoping

namespace Scoping

section Summary

variable {ι κ : Type}

mutual

theorem Picture.summary_map (f : ι → κ) : ∀ picture : Picture ι,
    (picture.map f).summary = picture.summary
  | .mk _ _ calls links inner => by
    rw [Picture.map, Picture.summary, Picture.summary, summaryOfAll_map f inner, List.map_map,
      List.length_map]
    rfl

theorem Picture.summaryOfAll_map (f : ι → κ) : ∀ pictures : List (Picture ι),
    Picture.summaryOfAll (Picture.mapAll f pictures) = Picture.summaryOfAll pictures
  | [] => rfl
  | picture :: rest => by
    rw [Picture.mapAll, Picture.summaryOfAll, Picture.summaryOfAll, summary_map f picture,
      summaryOfAll_map f rest]

end

def summaryOf (scope : Scope) : String × List String × Nat :=
  (scope.name, scope.contents.vertices.values.map (·.name), scope.contents.edges.size)

mutual

theorem summary_picture : ∀ scope : Scope, (picture scope).summary = scope.all.map summaryOf
  | .mk contents names children => by
    rw [picture, Picture.summary, summary_pictures children, Scope.all, List.map_cons, List.map_map]
    simp [summaryOf, OrderedMap.size, OrderedMap.values, Scope.contents, Scope.name]

theorem summary_pictures : ∀ scopes : List Scope,
    Picture.summaryOfAll (pictures scopes) = (Scope.allOf scopes).map summaryOf
  | [] => rfl
  | scope :: rest => by
    rw [pictures, Picture.summaryOfAll, summary_picture scope, summary_pictures rest, Scope.allOf,
      List.map_append]

end

end Summary

section Lowering

variable {setting : Compile.Setting} (hinj : Function.Injective setting.idOf)
  (hne : ∀ n, setting.idOf n ≠ "")

include hinj hne

/-- The whole drawing of a recipe is followed. -/
theorem lowerRecipe_follows (statements : List Node)
    (himports : Node.locationsOfAll statements = []) (world : Package.World) :
    Follows setting.idOf world.issued (Compile.lowerRecipe setting statements world)
      (drawing statements) :=
  ((statements_advance hinj hne).all statements himports [] [] _ _
    (situated_start setting world) (follows_start setting world)).follows

/-- What a recipe without packages is lowered to can be accounted for room by room. -/
theorem lowered_accounts {statements : List Node} (hmade : ∀ node ∈ statements, node.WellMade)
    (himports : Node.locationsOfAll statements = []) (world : Package.World) :
    let lowered := Compile.lowerRecipe setting statements world
    ∃ accounts : List Account,
      accounts.map Account.room = Node.roomOf "" statements :: Node.roomsOfAll statements ∧
      (∀ account ∈ accounts, account.Balanced) ∧
      lowered.scope.all.map summaryOf = accounts.map Account.summary ∧
      (lowered.diagnostics.filter isLost).Perm ((accounts.flatMap Account.lost).map Node.loss) := by
  intro lowered
  have hfollows := lowerRecipe_follows hinj hne statements himports world
  -- The whole recipe is drawn as a scope inside of nothing.
  let before : Draft := { label := 0, name := "", given := 0 }
  have hrecorded : Recorded (before.enter "")
      (drawAll [] statements { label := 0, name := "", given := 1 }) 0 _ _ _ :=
    (statements_recorded.all statements hmade) [] { label := 0, name := "", given := 1 }
  obtain ⟨lost, accounts, hrooms, hrecords⟩ := hrecorded.leave
  have hlost : lost = [] := List.sublist_nil.mp hrecords.among
  refine ⟨accounts, hrooms, hrecords.balanced, ?_, ?_⟩
  · have hinner : (drawing statements).picture.summary ++ [] = accounts.map Account.summary :=
      hrecords.inner
    rw [← summary_picture, hfollows.depicts.picture_eq, Picture.summary_map, ← hinner,
      List.append_nil]
  · obtain ⟨reports, hreports, hperm⟩ := hrecords.reports
    have hmissing : lowered.diagnostics.filter (·.problem.concernsVariable) = reports :=
      hfollows.missing.trans hreports
    have hfilter : (lowered.diagnostics.filter (·.problem.concernsVariable)).filter isLost =
        lowered.diagnostics.filter isLost := by
      rw [List.filter_filter]
      refine List.filter_congr fun diagnostic _ => ?_
      unfold isLost
      split <;> simp_all [Problem.concernsVariable]
    rw [← hfilter, hmissing]
    rwa [hlost, List.nil_append] at hperm

end Lowering

end Scoping

namespace Recipe

open Source Grammar

namespace Node

/-- A node as it is read: around what is below it, at a place of its own if it is a variable. -/
structure Sited (node : Node) : Prop where
  nested : node.Nested
  placed : node.isVariable = true → ∃ span, node.extent = some span
  nonempty : ∀ span, node.extent = some span → span.start < span.stop

/-- All the variables among the nodes stand at different places. -/
def Apart (nodes : List Node) : Prop :=
  (nodes.filter isVariable).Pairwise fun node other => node.extent ≠ other.extent

section Apart

variable {nodes others : List Node} {node other : Node}

theorem Apart.append (h : Apart nodes) (h' : Apart others)
    (hcross : ∀ node ∈ nodes, ∀ other ∈ others, node.isVariable = true →
      node.extent ≠ other.extent) : Apart (nodes ++ others) := by
  unfold Apart
  rw [List.filter_append, List.pairwise_append]
  refine ⟨h, h', fun node hnode other hother => ?_⟩
  obtain ⟨hin, hvariable⟩ := List.mem_filter.mp hnode
  exact hcross node hin other (List.mem_filter.mp hother).1 hvariable

theorem Apart.perm (h : Apart nodes) (hperm : nodes.Perm others) : Apart others :=
  ((hperm.filter isVariable).pairwise_iff fun hne => hne.symm).mp h

theorem Apart.cross (h : Apart (nodes ++ others)) (hnode : node ∈ nodes) (hother : other ∈ others)
    (hvariable : node.isVariable = true) (hvariable' : other.isVariable = true) :
    node.extent ≠ other.extent := by
  unfold Apart at h
  rw [List.filter_append, List.pairwise_append] at h
  exact h.2.2 node (List.mem_filter.mpr ⟨hnode, hvariable⟩) other
    (List.mem_filter.mpr ⟨hother, hvariable'⟩)

/-- What is below one of two nodes that stand one after the other is apart from what is below the
other one. -/
theorem Before.apart {below further : Node} (h : node.Before other)
    (hsited : node.Throughout Sited) (hbelow : node.Reaches below)
    (hfurther : other.Reaches further) (hvariable : below.isVariable = true) :
    below.extent ≠ further.extent := by
  obtain ⟨span, hspan⟩ := (hsited below hbelow).placed hvariable
  have hnonempty := (hsited below hbelow).nonempty span hspan
  intro hsame
  have hstop := h span span ⟨below, hbelow, hspan⟩ ⟨further, hfurther, hsame ▸ hspan⟩
  omega

theorem reaches_args : ArgumentCases
    (fun arg => ∀ below ∈ arg :: arg.argsBelow, arg.Reaches below)
    (fun args => ∀ below ∈ argsOfAll args, ∃ arg ∈ args, arg.Reaches below) where
  call name args styling extent ih below hin := by
    rcases List.mem_cons.mp hin with rfl | hbelow
    · exact .refl
    · obtain ⟨arg, harg, hreaches⟩ := ih below hbelow
      exact reaches_iff.mpr (Or.inr ⟨arg, List.mem_append_left _ harg, hreaches⟩)
  reference path extent below hin := by
    obtain rfl := List.mem_singleton.mp hin
    exact .refl
  other node hnode below hin := by
    have hnone : node.argsBelow = [] := by
      cases node with
      | call => cases hnode
      | _ => rfl
    rw [hnone, List.mem_singleton] at hin
    exact hin ▸ .refl
  nil below hin := by cases hin
  cons arg rest hfirst hrest below hin := by
    rw [argsOfAll, ← List.cons_append] at hin
    rcases List.mem_append.mp hin with hone | hothers
    · exact ⟨arg, List.mem_cons_self, hfirst below hone⟩
    · obtain ⟨other, hother, hreaches⟩ := hrest below hothers
      exact ⟨other, List.mem_cons_of_mem _ hother, hreaches⟩

theorem apart_args : ArgumentCases
    (fun arg => arg.Throughout Sited → Apart (arg :: arg.argsBelow))
    (fun args => (∀ arg ∈ args, arg.Throughout Sited) → args.Pairwise Before →
      Apart (argsOfAll args)) where
  call name args styling extent ih hsited := by
    have hargs := ih (fun arg hin => hsited.child (List.mem_append_left _ hin))
      (List.pairwise_append.mp (hsited _ .refl).nested.ordered).1
    exact hargs
  reference path extent _ := List.pairwise_singleton _ _
  other node hnode _ := by
    cases node with
    | call | «variable» => cases hnode
    | _ => exact .nil
  nil _ _ := .nil
  cons arg rest hfirst hrest hsited hbefore := by
    rw [List.forall_mem_cons] at hsited
    rw [List.pairwise_cons] at hbefore
    rw [argsOfAll, ← List.cons_append]
    refine (hfirst hsited.1).append (hrest hsited.2 hbefore.2) fun below hbelow further hin => ?_
    obtain ⟨other, hother, hfurther⟩ := reaches_args.all rest further hin
    exact (hbefore.1 other hother).apart hsited.1 (reaches_args.one arg below hbelow) hfurther

/-- All that flows in somewhere in a value, or somewhere in a statement. -/
def argsIn (args : List Node) (rooms : List Room) : List Node :=
  args ++ rooms.flatMap Room.args

theorem argsIn_append (args more : List Node) (rooms further : List Room) :
    (argsIn args rooms ++ argsIn more further).Perm
      (argsIn (args ++ more) (rooms ++ further)) := by
  unfold argsIn
  rw [List.flatMap_append, List.append_assoc, List.append_assoc]
  refine List.Perm.append_left args ?_
  rw [← List.append_assoc, ← List.append_assoc]
  exact List.Perm.append_right _ List.perm_append_comm

theorem reaches_values {args : List Node} {extent : Option Span} {below : Node}
    (hin : below ∈ argsOfAll args) : (valueList args extent).Reaches below :=
  reaches_iff.mpr (Or.inr (reaches_args.all args below hin))

theorem reaches_inflows : StatementCases
    (fun value => value.WellMade →
      ∀ below ∈ argsIn value.builtArgs (roomsOfValue (some value)), value.Reaches below)
    (fun node => node.WellMade → ∀ below ∈ argsIn node.ownArgs node.rooms, node.Reaches below)
    (fun nodes => (∀ node ∈ nodes, node.WellMade) →
      ∀ below ∈ argsIn (nodes.flatMap ownArgs) (roomsOfAll nodes), ∃ node ∈ nodes,
        node.Reaches below) where
  call name args styling extent _ below hin := by
    have hbelow : below ∈ argsOfAll args := by
      simpa [argsIn, builtArgs, roomsOfValue] using hin
    obtain ⟨arg, harg, hreaches⟩ := reaches_args.all args below hbelow
    exact reaches_iff.mpr (Or.inr ⟨arg, List.mem_append_left _ harg, hreaches⟩)
  scope name body bodyExtent args argsExtent styling extent hbody hmade below hin := by
    rcases List.mem_append.mp hin with harg | hinside
    · exact reaches_iff.mpr
        (Or.inr ⟨.valueList args argsExtent, by simp [Node.children], reaches_values harg⟩)
    · have hlist : (statementList body bodyExtent).Reaches below := reaches_iff.mpr
        (Or.inr (hbody (fun node hnode => (hmade.body_scope node hnode).2) below hinside))
      exact reaches_iff.mpr (Or.inr ⟨_, by simp [Node.children], hlist⟩)
  package location label extent _ below hin := by cases hin
  unbuilt node hnode _ below hin := by
    cases node with
    | call | scope | package => cases hnode
    | _ => cases hin
  bareCall name args styling extent hvalue := hvalue
  bareScope name body bodyExtent args argsExtent styling extent hvalue := hvalue
  barePackage location label extent _ below hin := by cases hin
  reference path extent _ below hin := by cases hin
  incomplete targets extent _ below hin := by cases hin
  synonym targets path place extent _ below hin := by cases hin
  assigned targets value extent hvariable hvalue hmade below hin :=
    reaches_iff.mpr (Or.inr ⟨value, hmade.child_assigned.2,
      hvalue hmade.right_assigned.2 below hin⟩)
  namedStyle name style extent _ below hin := by cases hin
  styleBinding keyword tags extent _ below hin := by cases hin
  other node hnode _ below hin := by
    cases node with
    | target | style | styleTag | valueList | statementList | recipe => cases hin
    | _ => cases hnode
  nil _ below hin := by cases hin
  cons node rest hnode hrest hmade below hin := by
    rw [List.forall_mem_cons] at hmade
    rcases List.mem_append.mp ((argsIn_append _ _ _ _).mem_iff.mpr hin) with hone | hothers
    · exact ⟨node, List.mem_cons_self, hnode hmade.1 below hone⟩
    · obtain ⟨other, hother, hreaches⟩ := hrest hmade.2 below hothers
      exact ⟨other, List.mem_cons_of_mem _ hother, hreaches⟩

theorem apart_inflows : StatementCases
    (fun value => value.WellMade → value.Throughout Sited →
      Apart (argsIn value.builtArgs (roomsOfValue (some value))))
    (fun node => node.WellMade → node.Throughout Sited → Apart (argsIn node.ownArgs node.rooms))
    (fun nodes => (∀ node ∈ nodes, node.WellMade ∧ node.Throughout Sited) →
      nodes.Pairwise Before → Apart (argsIn (nodes.flatMap ownArgs) (roomsOfAll nodes))) where
  call name args styling extent _ hsited := by
    have hargs : Apart (argsOfAll args) := apart_args.all args
      (fun arg hin => hsited.child (List.mem_append_left _ hin))
      (List.pairwise_append.mp (hsited _ .refl).nested.ordered).1
    simpa [argsIn, builtArgs, roomsOfValue] using hargs
  scope name body bodyExtent args argsExtent styling extent hbody hmade hsited := by
    have hlist : (statementList body bodyExtent).Throughout Sited :=
      hsited.child (by simp [Node.children])
    have hvalues : (valueList args argsExtent).Throughout Sited :=
      hsited.child (by simp [Node.children])
    have hordered := (hsited _ .refl).nested.ordered
    have hbefore : (statementList body bodyExtent).Before (valueList args argsExtent) :=
      (List.pairwise_cons.mp hordered).1 _ List.mem_cons_self
    have hargs : Apart (argsOfAll args) := apart_args.all args
      (fun arg hin => hvalues.child hin) (hvalues _ .refl).nested.ordered
    have hinside := hbody
      (fun node hin => ⟨(hmade.body_scope node hin).2, hlist.child hin⟩)
      (hlist _ .refl).nested.ordered
    refine (hinside.append hargs fun below hbelow further hin => ?_).perm List.perm_append_comm
    refine hbefore.apart hlist ?_ (reaches_values hin)
    exact reaches_iff.mpr (Or.inr (reaches_inflows.all body
      (fun node hnode => (hmade.body_scope node hnode).2) below hbelow))
  package location label extent _ _ := .nil
  unbuilt node hnode _ _ := by
    cases node with
    | call | scope | package => cases hnode
    | _ => exact .nil
  bareCall name args styling extent hvalue := hvalue
  bareScope name body bodyExtent args argsExtent styling extent hvalue := hvalue
  barePackage location label extent _ _ := .nil
  reference path extent _ _ := .nil
  incomplete targets extent _ _ := .nil
  synonym targets path place extent _ _ := .nil
  assigned targets value extent hvariable hvalue hmade hsited :=
    hvalue hmade.right_assigned.2 (hsited.child hmade.child_assigned.2)
  namedStyle name style extent _ _ := .nil
  styleBinding keyword tags extent _ _ := .nil
  other node hnode _ _ := by
    cases node with
    | target | style | styleTag | valueList | statementList | recipe => exact .nil
    | _ => cases hnode
  nil _ _ := .nil
  cons node rest hnode hrest hall hbefore := by
    rw [List.forall_mem_cons] at hall
    rw [List.pairwise_cons] at hbefore
    have hone := hnode hall.1.1 hall.1.2
    have hothers := hrest hall.2 hbefore.2
    refine (hone.append hothers fun below hbelow further hin => ?_).perm (argsIn_append _ _ _ _)
    obtain ⟨other, hother, hfurther⟩ :=
      reaches_inflows.all rest (fun node hnode => (hall.2 node hnode).1) further hin
    exact (hbefore.1 other hother).apart hall.1.2
      (reaches_inflows.one node hall.1.1 below hbelow) hfurther

end Apart

end Node

section Read

variable {text : String} {derivation : Derivation}

/-- A variable is made of words, so it stands somewhere. -/
theorem placed_parts {pattern : Pattern} (reading : Reading pattern) :
    ∀ node ∈ reading.parts.flatMap Part.nodes,
      node.Throughout fun below => below.isVariable = true → ∃ span, below.extent = some span := by
  refine throughout_parts (fun node hblank hvariable => ?_)
    (fun rule reading made hmade _ hvariable => ?_) reading
  · cases hblank <;> cases hvariable
  · cases rule with
    | reference =>
      have hwords : reading.tokens ≠ [] := by
        match reading with
        | .name (.both (.word token _) more) => exact List.cons_ne_nil _ _
      cases hmade
      refine Option.ne_none_iff_exists'.mp fun hnone => hwords ?_
      exact spanOf_eq_none (show Derivation.spanOf reading.tokens = none from hnone)
    | _ => cases hmade <;> cases hvariable

theorem sited_read (h : derive text = .ok derivation) :
    (∀ node ∈ statementsOf derivation, node.WellMade ∧ node.Throughout Node.Sited) ∧
      (statementsOf derivation).Pairwise Node.Before := by
  have hlaid := laid_read h
  obtain ⟨reading, -, hparts, -⟩ := statements_read h
  have hplaced := placed_parts reading
  rw [hparts, Part.flatMap_nodes] at hplaced
  have hmade := wellMade_read h ""
  rw [ofText_read h ""] at hmade
  refine ⟨fun node hin => ⟨hmade.child hin, fun below hbelow => ?_⟩, hlaid.ordered⟩
  exact ⟨hlaid.nested node hin below hbelow, hplaced node hin below hbelow, fun span hspan =>
    (hlaid.within node hin span ⟨below, hbelow, hspan⟩).nonempty⟩

end Read

end Recipe

namespace Scoping

open Recipe Source

/-- How many of the reports are for arguments that belong to the room. -/
def Room.reported (room : Room) (diagnostics : List Diagnostic) : Nat :=
  diagnostics.countP fun diagnostic =>
    room.args.any fun arg => arg.isVariable && diagnostic = arg.loss

section Counting

variable {accounts : List Account} {diagnostics : List Diagnostic}

/-- Reports for variables at different places differ. -/
theorem extent_of_loss {node other : Node} (h : node.loss = other.loss)
    (hnode : ∃ span, node.extent = some span) (hother : ∃ span, other.extent = some span) :
    node.extent = other.extent := by
  obtain ⟨span, hspan⟩ := hnode
  obtain ⟨further, hfurther⟩ := hother
  have hplace : node.place = other.place := congrArg Diagnostic.extent h
  unfold Node.place at hplace
  rw [hspan, hfurther] at hplace ⊢
  exact congrArg some hplace

theorem Account.Balanced.mem_lost {account : Account} (h : account.Balanced) {node : Node}
    (hnode : node ∈ account.lost) : node ∈ account.room.args ∧ node.isVariable = true :=
  List.mem_filter.mp (h.among.subset hnode)

/-- The reports for arguments of a room are those for what was lost in it. -/
theorem reported_account {account : Account}
    (hbalanced : ∀ account ∈ accounts, account.Balanced)
    (hapart : Node.Apart (accounts.flatMap (·.room.args)))
    (hplaced : ∀ arg ∈ accounts.flatMap (·.room.args), arg.isVariable = true →
      ∃ span, arg.extent = some span)
    (hlost : (diagnostics.filter isLost).Perm ((accounts.flatMap Account.lost).map Node.loss))
    (hin : account ∈ accounts) :
    account.room.reported diagnostics = account.lost.length := by
  let fits : Diagnostic → Bool := fun diagnostic =>
    account.room.args.any fun arg => arg.isVariable && diagnostic = arg.loss
  have hfits : ∀ diagnostic, fits diagnostic = true ↔
      ∃ arg ∈ account.room.args, arg.isVariable = true ∧ diagnostic = arg.loss := by
    simp [fits]
  have hcount : diagnostics.countP fits =
      (accounts.flatMap Account.lost).countP fun node => fits node.loss := by
    have hfilter : diagnostics.countP fits = (diagnostics.filter isLost).countP fits := by
      rw [List.countP_filter]
      refine List.countP_congr fun diagnostic _ => ?_
      rw [Bool.and_eq_true, iff_self_and, hfits]
      rintro ⟨arg, -, -, rfl⟩
      rfl
    rw [hfilter, hlost.countP_eq, List.countP_map]
    rfl
  obtain ⟨before, after, rfl⟩ := List.append_of_mem hin
  rw [List.flatMap_append, List.flatMap_cons] at hapart
  -- What was lost in another room stands elsewhere.
  have hforeign : ∀ other, other ∈ before ∨ other ∈ after →
      ∀ node ∈ other.lost, ¬ fits node.loss = true := by
    intro other hother node hnode
    have hmem : other ∈ before ++ account :: after := by
      rcases hother with h | h <;> simp [h]
    obtain ⟨harg, hvariable⟩ := (hbalanced other hmem).mem_lost hnode
    rw [hfits]
    rintro ⟨arg, harg', hvariable', hloss⟩
    have hsame := extent_of_loss hloss
      (hplaced node (List.mem_flatMap.mpr ⟨other, hmem, harg⟩) hvariable)
      (hplaced arg (List.mem_flatMap.mpr ⟨account, hin, harg'⟩) hvariable')
    rcases hother with hbefore | hafter
    · exact hapart.cross (List.mem_flatMap.mpr ⟨other, hbefore, harg⟩)
        (List.mem_append_left _ harg') hvariable hvariable' hsame
    · rw [← List.append_assoc] at hapart
      exact hapart.cross (List.mem_append_right _ harg')
        (List.mem_flatMap.mpr ⟨other, hafter, harg⟩) hvariable' hvariable hsame.symm
  have hnone : ∀ others : List Account, (∀ other ∈ others, other ∈ before ∨ other ∈ after) →
      (others.flatMap Account.lost).countP (fun node => fits node.loss) = 0 := by
    intro others hothers
    rw [List.countP_eq_zero]
    intro node hnode
    obtain ⟨other, hother, hlost⟩ := List.mem_flatMap.mp hnode
    exact hforeign other (hothers other hother) node hlost
  have hown : account.lost.countP (fun node => fits node.loss) = account.lost.length := by
    rw [List.countP_eq_length]
    intro node hnode
    obtain ⟨harg, hvariable⟩ := (hbalanced account hin).mem_lost hnode
    exact (hfits _).mpr ⟨node, harg, hvariable, rfl⟩
  change diagnostics.countP fits = _
  rw [hcount, List.flatMap_append, List.flatMap_cons, List.countP_append, List.countP_append, hown,
    hnone before fun _ h => Or.inl h, hnone after fun _ h => Or.inr h, Nat.zero_add, Nat.add_zero]

end Counting

/-- The scopes that come of a text without packages are its rooms, one by one. In each scope are the
calls that belong to it, and for each thing that flows in there is an edge or a report. -/
theorem nothing_lost {text filename : String} (h : ∃ tree, parse text filename = .ok tree)
    (himports : Node.locationsOfAll (ofText text filename).recipe.statements = [])
    (setting : Compile.Setting) (hinj : Function.Injective setting.idOf)
    (hne : ∀ n, setting.idOf n ≠ "") (world : Package.World) :
    let statements := (ofText text filename).recipe.statements
    let lowered := Compile.lowerRecipe setting statements world
    List.Forall₂
      (fun scope room =>
        scope.name = room.name ∧
        scope.contents.vertices.values.map (·.name) = room.calls ∧
        scope.contents.edges.size + room.reported lowered.diagnostics = room.args.length)
      lowered.scope.all (Node.roomOf "" statements :: Node.roomsOfAll statements) := by
  obtain ⟨derivation, hderive⟩ := parse_ok_iff.mp h
  have hread : (ofText text filename).recipe.statements = statementsOf derivation := by
    rw [ofText_read hderive]
  rw [hread] at himports ⊢
  intro statements lowered
  obtain ⟨hsited, hordered⟩ := sited_read hderive
  have hmade : ∀ node ∈ statements, node.WellMade := fun node hin => (hsited node hin).1
  obtain ⟨accounts, hrooms, hbalanced, hsummary, hlost⟩ :=
    lowered_accounts hinj hne hmade himports world
  have hargs : accounts.flatMap (·.room.args) =
      Node.argsIn (statements.flatMap Node.ownArgs) (Node.roomsOfAll statements) := by
    have hmap : accounts.flatMap (·.room.args) = (accounts.map Account.room).flatMap Room.args := by
      rw [List.flatMap_map]
    rw [hmap, hrooms]
    rfl
  have hapart : Node.Apart (accounts.flatMap (·.room.args)) := by
    rw [hargs]
    exact Node.apart_inflows.all statements hsited hordered
  have hplaced : ∀ arg ∈ accounts.flatMap (·.room.args), arg.isVariable = true →
      ∃ span, arg.extent = some span := by
    intro arg hin hvariable
    rw [hargs] at hin
    obtain ⟨node, hnode, hreaches⟩ := Node.reaches_inflows.all statements hmade arg hin
    exact ((hsited node hnode).2 arg hreaches).placed hvariable
  have hequal : List.Forall₂ (fun scope account => summaryOf scope = account.summary)
      lowered.scope.all accounts := by
    have hlists : List.Forall₂ (· = ·) (lowered.scope.all.map summaryOf)
        (accounts.map Account.summary) := List.forall₂_eq_eq_eq ▸ hsummary
    exact List.forall₂_map_left_iff.mp (List.forall₂_map_right_iff.mp hlists)
  have hmatched := (List.forall₂_and_left _ _).mpr
    ⟨(fun account hin => hin : ∀ account ∈ accounts, account ∈ accounts), hequal.flip⟩
  rw [← hrooms, List.forall₂_map_right_iff]
  refine hmatched.flip.imp ?_
  rintro scope account ⟨hin, hsame⟩
  obtain ⟨hname, hcalls, hlinks⟩ :
      scope.name = account.room.name ∧
        scope.contents.vertices.values.map (·.name) = account.room.calls ∧
        scope.contents.edges.size = account.links := by
    simpa [summaryOf, Account.summary] using hsame
  refine ⟨hname, hcalls, ?_⟩
  rw [hlinks, reported_account hbalanced hapart hplaced hlost hin]
  exact (hbalanced account hin).links

theorem nothing_lost_nested :
    (∃ tree, parse "a = n[f(x, g()); m[k()](f())](g(a), b.c)\nd = a" "" = .ok tree) ∧
      Node.locationsOfAll
        (ofText "a = n[f(x, g()); m[k()](f())](g(a), b.c)\nd = a" "").recipe.statements = [] ∧
      let statements :=
        (ofText "a = n[f(x, g()); m[k()](f())](g(a), b.c)\nd = a" "").recipe.statements
      let lowered := Compile.lowerRecipe ⟨Compile.tally, [], none⟩ statements {}
      List.Forall₂
        (fun scope room =>
          scope.name = room.name ∧
          scope.contents.vertices.values.map (·.name) = room.calls ∧
          scope.contents.edges.size + room.reported lowered.diagnostics = room.args.length)
        lowered.scope.all (Node.roomOf "" statements :: Node.roomsOfAll statements) := by
  have hparsed : ∃ tree, parse "a = n[f(x, g()); m[k()](f())](g(a), b.c)\nd = a" "" = .ok tree :=
    parse_ok_of_isSome (by decide +kernel)
  have himports : Node.locationsOfAll
      (ofText "a = n[f(x, g()); m[k()](f())](g(a), b.c)\nd = a" "").recipe.statements = [] := by
    decide +kernel
  exact ⟨hparsed, himports, nothing_lost hparsed himports ⟨Compile.tally, [], none⟩
    Compile.tally_injective Compile.tally_ne_empty {}⟩

end Scoping

end RecipeGraph
