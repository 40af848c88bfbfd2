import RecipeGraph.Proofs.LexicalScope
import RecipeGraph.Proofs.ProperRecipes

/-!
What belongs to each scope of a recipe, said of its statements alone, and the account that is given
of it. To a scope belong the calls in its statements, those that flow into other calls and those
that flow into the scopes right inside, and whatever flows into any of these. Each thing that flows
in either has an edge or is reported as missing.
-/
namespace RecipeGraph.Scoping

open RecipeGraph.Graph Recipe

/-- What belongs to a scope: its calls by their names, and all that flows into elements of it. -/
structure Room where
  name : String
  calls : List String
  args : List Node

end RecipeGraph.Scoping

namespace RecipeGraph.Recipe.Node

open Scoping

mutual

/-- The calls in an argument, each before those that flow into it. -/
def calls : Node → List String
  | call name args _ _ => name :: callsOfAll args
  | _ => []

def callsOfAll : List Node → List String
  | [] => []
  | arg :: rest => calls arg ++ callsOfAll rest

end

mutual

/-- The arguments within an argument. -/
def argsBelow : Node → List Node
  | call _ args _ _ => argsOfAll args
  | _ => []

/-- Arguments with those within them. -/
def argsOfAll : List Node → List Node
  | [] => []
  | arg :: rest => arg :: (argsBelow arg ++ argsOfAll rest)

end

/-- The calls that a value makes in the scope it stands in. -/
def builtCalls : Node → List String
  | call name args _ _ => name :: callsOfAll args
  | scope _ _ _ args _ _ _ => callsOfAll args
  | _ => []

def ownCalls : Node → List String
  | assignment _ (some value) _ => builtCalls value
  | node => builtCalls node

/-- What flows in the scope that a value stands in. -/
def builtArgs : Node → List Node
  | call _ args _ _ => argsOfAll args
  | scope _ _ _ args _ _ _ => argsOfAll args
  | _ => []

def ownArgs : Node → List Node
  | assignment _ (some value) _ => builtArgs value
  | node => builtArgs node

def roomOf (name : String) (body : List Node) : Room :=
  ⟨name, body.flatMap ownCalls, body.flatMap ownArgs⟩

mutual

/-- The scopes in a statement, each before those in it. -/
def rooms : Node → List Room
  | scope name body _ _ _ _ _ => roomOf name body :: roomsOfAll body
  | assignment _ value _ => roomsOfValue value
  | _ => []

def roomsOfValue : Option Node → List Room
  | some (scope name body _ _ _ _ _) => roomOf name body :: roomsOfAll body
  | _ => []

def roomsOfAll : List Node → List Room
  | [] => []
  | node :: rest => rooms node ++ roomsOfAll rest

end

/-- The report that a variable cannot be found. -/
def loss (node : Node) : Diagnostic :=
  ⟨node.place, .undefinedVariable node.path⟩

end RecipeGraph.Recipe.Node

namespace RecipeGraph.Scoping

open RecipeGraph.Graph Recipe

/-- What became of a room: how many edges there are in it, and which variables were not found. -/
structure Account where
  room : Room
  links : Nat
  lost : List Node

def Account.summary (account : Account) : String × List String × Nat :=
  (account.room.name, account.room.calls, account.links)

/-- Everything that flows in has an edge, but for variables that were not found. -/
structure Account.Balanced (account : Account) : Prop where
  links : account.links + account.lost.length = account.room.args.length
  among : account.lost.Sublist (account.room.args.filter Node.isVariable)

mutual

/-- A picture and those in it, each by its name, the names of its calls and the number of its
edges. -/
def Picture.summary {ι : Type} : Picture ι → List (String × List String × Nat)
  | mk _ name calls links inner => (name, calls.map (·.2), links.length) :: summaryOfAll inner

def Picture.summaryOfAll {ι : Type} : List (Picture ι) → List (String × List String × Nat)
  | [] => []
  | picture :: rest => summary picture ++ summaryOfAll rest

end

/-- The report is that a variable was not found where it flows in. -/
def isLost (diagnostic : Diagnostic) : Bool :=
  match diagnostic.problem with
  | .undefinedVariable _ => true
  | _ => false

/-- What was drawn between two drafts, and is accounted for. Some of what flows in still waits for
its edges. -/
structure Records (before after : Draft) (pending : Nat) (calls : List String)
    (args lost : List Node) (accounts : List Account) : Prop where
  name : after.name = before.name
  calls : after.calls.map (·.2) = before.calls.map (·.2) ++ calls
  links : after.links.length + pending + lost.length = before.links.length + args.length
  among : lost.Sublist (args.filter Node.isVariable)
  inner : Picture.summaryOfAll after.inner =
    Picture.summaryOfAll before.inner ++ accounts.map Account.summary
  balanced : ∀ account ∈ accounts, account.Balanced
  reports : ∃ reports, after.missing = before.missing ++ reports ∧
    (reports.filter isLost).Perm ((lost ++ accounts.flatMap Account.lost).map Node.loss)

/-- All that belongs to the scope and all the rooms in it are accounted for. -/
def Recorded (before after : Draft) (pending : Nat) (calls : List String) (args : List Node)
    (rooms : List Room) : Prop :=
  ∃ lost accounts, accounts.map Account.room = rooms ∧
    Records before after pending calls args lost accounts

theorem Picture.summaryOfAll_append {ι : Type} (pictures others : List (Picture ι)) :
    summaryOfAll (pictures ++ others) = summaryOfAll pictures ++ summaryOfAll others := by
  induction pictures with
  | nil => rfl
  | cons picture rest ih => rw [List.cons_append, summaryOfAll, summaryOfAll, ih, List.append_assoc]

section Records

variable {before middle after : Draft} {pending waiting : Nat} {calls others : List String}
  {args more lost astray : List Node} {rooms further : List Room} {accounts books : List Account}

theorem Records.trans (h : Records before middle pending calls args lost accounts)
    (h' : Records middle after waiting others more astray books) :
    Records before after (pending + waiting) (calls ++ others) (args ++ more) (lost ++ astray)
      (accounts ++ books) where
  name := h'.name.trans h.name
  calls := by rw [h'.calls, h.calls, List.append_assoc]
  links := by
    have hfirst := h.links
    have hsecond := h'.links
    rw [List.length_append, List.length_append]
    omega
  among := by
    rw [List.filter_append]
    exact h.among.append h'.among
  inner := by rw [h'.inner, h.inner, List.map_append, List.append_assoc]
  balanced := List.forall_mem_append.mpr ⟨h.balanced, h'.balanced⟩
  reports := by
    obtain ⟨reports, hreports, hperm⟩ := h.reports
    obtain ⟨added, hadded, hperm'⟩ := h'.reports
    refine ⟨reports ++ added, by rw [hadded, hreports, List.append_assoc], ?_⟩
    rw [List.filter_append, List.flatMap_append]
    refine (hperm.append hperm').trans ?_
    rw [← List.map_append]
    refine List.Perm.map _ ?_
    rw [List.append_assoc, List.append_assoc]
    refine List.Perm.append_left lost ?_
    rw [← List.append_assoc, ← List.append_assoc]
    exact List.Perm.append_right _ List.perm_append_comm

theorem Recorded.trans (h : Recorded before middle pending calls args rooms)
    (h' : Recorded middle after waiting others more further) :
    Recorded before after (pending + waiting) (calls ++ others) (args ++ more)
      (rooms ++ further) := by
  obtain ⟨lost, accounts, rfl, hrecords⟩ := h
  obtain ⟨astray, books, rfl, hrecords'⟩ := h'
  exact ⟨lost ++ astray, accounts ++ books, List.map_append, hrecords.trans hrecords'⟩

/-- Only names are bound between the two drafts. -/
structure Draft.Alike (draft other : Draft) : Prop where
  name : other.name = draft.name
  calls : other.calls = draft.calls
  links : other.links = draft.links
  inner : other.inner = draft.inner
  missing : other.missing = draft.missing

theorem Recorded.alike (h : Draft.Alike before after) : Recorded before after 0 [] [] [] := by
  refine ⟨[], [], rfl, h.name, ?_, ?_, List.nil_sublist _, ?_, by simp, [], ?_, by simp⟩
  · rw [h.calls, List.append_nil]
  · rw [h.links]
    rfl
  · rw [h.inner, List.map_nil, List.append_nil]
  · rw [h.missing, List.append_nil]

theorem Recorded.refl (draft : Draft) : Recorded draft draft 0 [] [] [] :=
  .alike ⟨rfl, rfl, rfl, rfl, rfl⟩

theorem Recorded.call (draft : Draft) (name : String) :
    Recorded draft (draft.call name) 0 [name] [] [] :=
  ⟨[], [], rfl, rfl, List.map_append, rfl, List.nil_sublist _, (List.append_nil _).symm, by simp,
    [], (List.append_nil _).symm, by simp⟩

theorem Recorded.found {arg : Node} (draft : Draft) : Recorded draft draft 1 [] [arg] [] :=
  ⟨[], [], rfl, rfl, (List.append_nil _).symm, rfl, List.nil_sublist _, (List.append_nil _).symm,
    by simp, [], (List.append_nil _).symm, by simp⟩

theorem Recorded.missed (draft : Draft) (path : Path) (extent : Option Span) :
    Recorded draft (draft.miss extent (.undefinedVariable path)) 0 [] [.variable path extent] [] :=
  ⟨[.variable path extent], [], rfl, rfl, (List.append_nil _).symm, rfl, .refl _,
    (List.append_nil _).symm, by simp, _, rfl, .refl _⟩

theorem Recorded.synonym (draft : Draft) (path : Path) (extent : Option Span) (target : String) :
    Recorded draft (draft.miss extent (.undefinedAliasTarget path target)) 0 [] [] [] :=
  ⟨[], [], rfl, rfl, (List.append_nil _).symm, rfl, .refl _, (List.append_nil _).symm, by simp, _,
    rfl, .refl _⟩

theorem alike_bindAll (targets : List Node) (element : Option Nat) (draft : Draft) :
    Draft.Alike draft (draft.bindAll targets element) := by
  cases element with
  | none => exact ⟨rfl, rfl, rfl, rfl, rfl⟩
  | some element =>
    unfold Draft.bindAll
    induction targets generalizing draft with
    | nil => exact ⟨rfl, rfl, rfl, rfl, rfl⟩
    | cons target rest ih =>
      have hrest := ih (draft.bind element target)
      exact ⟨hrest.name, hrest.calls, hrest.links, hrest.inner, hrest.missing⟩

theorem Recorded.bindAll (h : Recorded before after pending calls args rooms)
    (targets : List Node) (element : Option Nat) :
    Recorded before (after.bindAll targets element) pending calls args rooms := by
  simpa using h.trans (.alike (alike_bindAll targets element after))

/-- All that waits gets its edges. -/
theorem Recorded.linkAll {target : Nat} {flows : List (Nat × String)}
    (h : Recorded before after flows.length calls args rooms) :
    Recorded before (flows.foldl (Draft.link target) after) 0 calls args rooms := by
  induction flows generalizing after with
  | nil => exact h
  | cons flow rest ih =>
    obtain ⟨lost, accounts, hrooms, hrecords⟩ := h
    refine ih ⟨lost, accounts, hrooms, hrecords.name, hrecords.calls, ?_, hrecords.among,
      hrecords.inner, hrecords.balanced, hrecords.reports⟩
    have hlinks := hrecords.links
    simp only [Draft.link, List.length_append, List.length_cons, List.length_nil] at hlinks ⊢
    omega

/-- Back from a nested scope, that scope is accounted for before those in it. -/
theorem Recorded.leave {name : String}
    (h : Recorded (before.enter name) after 0 calls args rooms) :
    Recorded before (before.leave after) 0 [] [] (⟨name, calls, args⟩ :: rooms) := by
  obtain ⟨lost, accounts, rfl, hrecords⟩ := h
  have hlinks : after.links.length + lost.length = args.length := by
    have hall := hrecords.links
    simpa [Draft.enter] using hall
  refine ⟨[], ⟨⟨name, calls, args⟩, after.links.length, lost⟩ :: accounts, rfl, rfl,
    (List.append_nil _).symm, rfl, List.nil_sublist _, ?_, ?_, ?_⟩
  · have hsummary : after.picture.summary =
        (name, calls, after.links.length) :: accounts.map Account.summary := by
      rw [Draft.picture, Picture.summary, hrecords.name, hrecords.calls, hrecords.inner]
      rfl
    rw [Draft.leave, Picture.summaryOfAll_append, Picture.summaryOfAll, hsummary,
      Picture.summaryOfAll, List.append_nil]
    rfl
  · exact List.forall_mem_cons.mpr ⟨⟨hlinks, hrecords.among⟩, hrecords.balanced⟩
  · exact hrecords.reports

end Records

section Drawing

variable (outside : Outside)

theorem arguments_recorded : Node.ArgumentCases
    (fun arg => arg.isArgument = true → arg.WellMade → ∀ draft,
      Recorded draft (drawArg outside arg draft).2 (drawArg outside arg draft).1.toList.length
        arg.calls (arg :: arg.argsBelow) [])
    (fun args => (∀ arg ∈ args, arg.isArgument = true ∧ arg.WellMade) → ∀ draft,
      Recorded draft (drawArgs outside args draft).2 (drawArgs outside args draft).1.length
        (Node.callsOfAll args) (Node.argsOfAll args) []) where
  call name args styling extent ih _ hmade draft := by
    have hfound : Recorded draft draft 1 [] [.call name args styling extent] [] := .found draft
    exact (hfound.trans (.call draft name)).trans (ih hmade.args_call (draft.call name)).linkAll
  reference path extent _ _ draft := by
    unfold drawArg
    cases denoted path draft.events outside with
    | none => exact .missed draft path extent
    | some element => exact .found draft
  other node hnode hkind := by simp [hnode] at hkind
  nil _ draft := .refl draft
  cons arg rest hfirst hrest hall draft := by
    rw [List.forall_mem_cons] at hall
    have hone := hfirst hall.1.1 hall.1.2 draft
    have hothers := hrest hall.2 (drawArg outside arg draft).2
    have hboth := hone.trans hothers
    change Recorded draft _ ((drawArg outside arg draft).1.toList ++ _).length _ _ _
    rw [List.length_append]
    exact hboth

theorem inflows_recorded {args : List Node}
    (hargs : ∀ arg ∈ args, arg.isArgument = true ∧ arg.WellMade) (target : Nat) (draft : Draft) :
    Recorded draft (drawInflows outside target args draft) 0 (Node.callsOfAll args)
      (Node.argsOfAll args) [] :=
  ((arguments_recorded outside).all args hargs draft).linkAll

theorem statements_recorded : Node.StatementCases
    (fun value => value.WellMade → ∀ outside draft,
      Recorded draft (drawValue outside value draft).2 0 value.builtCalls value.builtArgs
        (Node.roomsOfValue (some value)))
    (fun node => node.WellMade → ∀ outside draft,
      Recorded draft (draw outside node draft) 0 node.ownCalls node.ownArgs node.rooms)
    (fun nodes => (∀ node ∈ nodes, node.WellMade) → ∀ outside draft,
      Recorded draft (drawAll outside nodes draft) 0 (nodes.flatMap Node.ownCalls)
        (nodes.flatMap Node.ownArgs) (Node.roomsOfAll nodes)) where
  call name args styling extent hmade outside draft := by
    exact (Recorded.call draft name).trans
      (inflows_recorded outside hmade.args_call draft.given (draft.call name))
  scope name body bodyExtent args argsExtent styling extent hbody hmade outside draft := by
    have hinside := hbody (fun node hin => (hmade.body_scope node hin).2)
      ((name, draft.events) :: outside) (draft.enter name)
    have hfed := hinside.leave.trans (inflows_recorded outside hmade.args_scope draft.given _)
    rw [List.append_nil] at hfed
    exact hfed
  package location label extent _ outside draft := .refl draft
  unbuilt node hnode _ outside draft := by
    rw [drawValue_unbuilt outside draft hnode]
    cases node with
    | call | scope | package => cases hnode
    | _ => exact .refl draft
  bareCall name args styling extent hvalue := hvalue
  bareScope name body bodyExtent args argsExtent styling extent hvalue := hvalue
  barePackage location label extent _ outside draft := .refl draft
  reference path extent _ outside draft := .refl draft
  incomplete targets extent _ outside draft := .refl draft
  synonym targets path place extent _ outside draft := by
    change Recorded draft (drawAlias outside targets path place draft) 0 [] [] []
    unfold drawAlias
    cases denoted path draft.events outside with
    | none => exact .synonym draft path place _
    | some element => exact (Recorded.refl draft).bindAll targets (some element)
  assigned targets value extent hvariable hvalue hmade outside draft := by
    rw [draw_assigned outside targets extent draft hvariable]
    exact (hvalue hmade.right_assigned.2 outside draft).bindAll targets _
  namedStyle name style extent _ outside draft := .refl draft
  styleBinding keyword tags extent _ outside draft := .refl draft
  other node hnode _ outside draft := by
    rw [draw_other outside draft hnode]
    cases node with
    | target | style | styleTag | valueList | statementList | recipe => exact .refl draft
    | _ => cases hnode
  nil _ outside draft := .refl draft
  cons node rest hnode hrest hall outside draft := by
    rw [List.forall_mem_cons] at hall
    exact (hnode hall.1 outside draft).trans (hrest hall.2 outside _)

end Drawing

end RecipeGraph.Scoping
