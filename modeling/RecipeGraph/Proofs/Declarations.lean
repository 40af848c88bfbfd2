import RecipeGraph.Proofs.Referrals
import RecipeGraph.Proofs.Scoping

/-!
What the styles of a recipe come to, said of its statements alone. A declaration holds on to the
declarations that its tags lead to where it stands: a property that it does not have itself is
looked up in these, the last one first. Declarations go by numbers in the order in which they are
made, and a tag leads to one of them as a variable leads to an element.
-/
namespace RecipeGraph.Cascade

open RecipeGraph.Graph Recipe Scoping

/-- A style as it was declared: its own properties, and the declarations it refers to. -/
inductive Declaration
  | mk (own : Properties) (referred : List Declaration)

mutual

/-- The value of a property: the style's own one, or else what it refers to has for it. -/
def Declaration.value? (key : String) : Declaration → Option String
  | .mk own referred => (own.get? key).or (lastValue? key referred)

/-- The value of the last declaration that has one. -/
def lastValue? (key : String) : List Declaration → Option String
  | [] => none
  | first :: rest => (lastValue? key rest).or (first.value? key)

end

/-- The properties are those of the declaration, all spelled out. -/
structure Declaration.Expands (declaration : Declaration) (properties : Properties) : Prop where
  distinct : properties.Distinct
  values : ∀ key, properties.get? key = declaration.value? key

/-- What is reported of the tags that lead nowhere. -/
def unresolved {α : Type} (find : Path → Option α) (tags : List Node) : List Diagnostic :=
  (tags.filter fun tag => (find tag.path).isNone).map fun tag =>
    ⟨tag.place, .undefinedStyleTag tag.path⟩

mutual

/-- The tags of a call and of the calls in its arguments. -/
def callTags : Node → List Node
  | .call _ args styling _ => Node.tagsOf styling ++ callTagsOfAll args
  | _ => []

def callTagsOfAll : List Node → List Node
  | [] => []
  | node :: rest => callTags node ++ callTagsOfAll rest

end

/-- What was declared in a recipe so far, and what happened in the scope that is being read. -/
structure Sheet where
  declared : List Declaration := []
  /-- A name is bound to the number of the declaration that was made under it. -/
  events : List Event := []
  missing : List Diagnostic := []

namespace Sheet

/-- The declaration that a tag leads to. -/
def reach (outside : Outside) (sheet : Sheet) (path : Path) : Option Declaration :=
  (denoted path sheet.events outside).bind fun number => sheet.declared[number]?

def consult (outside : Outside) (tags : List Node) (sheet : Sheet) : Sheet :=
  { sheet with missing := sheet.missing ++ unresolved (sheet.reach outside) tags }

/-- The style with what its tags lead to now. Of a property given twice the later value counts. -/
def declaration (outside : Outside) (style : Node) (sheet : Sheet) : Declaration :=
  .mk (.ofList style.properties.entries)
    (style.tags.filterMap fun tag => sheet.reach outside tag.path)

def declare (outside : Outside) (name : String) (style : Node) (sheet : Sheet) : Sheet :=
  { declared := sheet.declared ++ [sheet.declaration outside style]
    events := .bound name sheet.declared.length :: sheet.events
    missing := sheet.missing ++ unresolved (sheet.reach outside) style.tags }

/-- The beginning of a nested scope. What it is styled with is looked up from the inside. -/
def enter (outside : Outside) (name : String) (styling : Option Node) (sheet : Sheet) : Sheet :=
  ({ sheet with events := [] } : Sheet).consult ((name, sheet.events) :: outside)
    (Node.tagsOf styling)

/-- Back from a nested scope, with its arguments. -/
def leave (outside : Outside) (name : String) (args : List Node) (sheet inside : Sheet) : Sheet :=
  ({ inside with events := .opened name inside.events :: sheet.events } : Sheet).consult outside
    (callTagsOfAll args)

end Sheet

def targetTags (targets : List Node) : List Node :=
  targets.flatMap fun target => Node.tagsOf target.styling

mutual

/-- One statement without packages. -/
def read (outside : Outside) : Node → Sheet → Sheet
  | .scope name body _ args _ styling _, sheet =>
      sheet.leave outside name args
        (readAll ((name, sheet.events) :: outside) body (sheet.enter outside name styling))
  | .assignment targets (some (.scope name body _ args _ styling _)) _, sheet =>
      let sheet := sheet.consult outside (targetTags targets)
      sheet.leave outside name args
        (readAll ((name, sheet.events) :: outside) body (sheet.enter outside name styling))
  | .assignment targets (some value) _, sheet =>
      (sheet.consult outside (targetTags targets)).consult outside (callTags value)
  | .namedStyle name style _, sheet => sheet.declare outside name style
  | node, sheet => sheet.consult outside (callTags node)

def readAll (outside : Outside) : List Node → Sheet → Sheet
  | [], sheet => sheet
  | node :: rest, sheet => readAll outside rest (read outside node sheet)

end

/-- What happened in each of the nested scopes, in their order. -/
def openings : List Event → List (List Event)
  | [] => []
  | .bound _ _ :: earlier => openings earlier
  | .opened _ inside :: earlier => openings earlier ++ [inside]

/-- The properties are those of the declaration with the number. -/
def Stands (declared : List Declaration) (number : Nat) (properties : Properties) : Prop :=
  ∃ declaration ∈ declared[number]?, declaration.Expands properties

mutual

/-- The scope and all scopes in it keep under each name the properties of the declaration that was
made last under it, and nothing else. -/
def Keeps (declared : List Declaration) : Scope → List Event → Prop
  | .mk contents _ children, events =>
      (∀ name, Option.Rel (Stands declared) (lastBound name events) (contents.styles.get? name)) ∧
        KeepsAll declared children (openings events)

def KeepsAll (declared : List Declaration) : List Scope → List (List Event) → Prop
  | [], [] => True
  | scope :: rest, events :: further =>
      Keeps declared scope events ∧ KeepsAll declared rest further
  | _, _ => False

end

/-- What stands on the right of an assignment, unless it is a variable. -/
def readValue (outside : Outside) : Node → Sheet → Sheet
  | .scope name body _ args _ styling _, sheet =>
      sheet.leave outside name args
        (readAll ((name, sheet.events) :: outside) body (sheet.enter outside name styling))
  | value, sheet => sheet.consult outside (callTags value)

section Equations

variable (outside : Outside) (sheet : Sheet)

@[simp] theorem consult_nil : sheet.consult outside [] = sheet := by
  unfold Sheet.consult unresolved
  rw [List.filter_nil, List.map_nil, List.append_nil]

theorem consult_append (tags more : List Node) :
    sheet.consult outside (tags ++ more) =
      (sheet.consult outside tags).consult outside more := by
  unfold Sheet.consult unresolved
  rw [List.filter_append, List.map_append, ← List.append_assoc]
  rfl

theorem callTags_other {node : Node} (h : node.isArgument = false) : callTags node = [] := by
  cases node with
  | call => cases h
  | _ => rfl

theorem read_call (name : String) (args : List Node) (styling : Option Node)
    (extent : Option Span) :
    read outside (.call name args styling extent) sheet =
      readValue outside (.call name args styling extent) sheet := by
  unfold read readValue
  rfl

theorem read_scope (name : String) (body args : List Node) (bodyExtent argsExtent : Option Span)
    (styling : Option Node) (extent : Option Span) :
    read outside (.scope name body bodyExtent args argsExtent styling extent) sheet =
      readValue outside (.scope name body bodyExtent args argsExtent styling extent) sheet := by
  unfold read readValue
  rfl

theorem read_assigned (targets : List Node) (value : Node) (extent : Option Span) :
    read outside (.assignment targets (some value) extent) sheet =
      readValue outside value (sheet.consult outside (targetTags targets)) := by
  cases value <;> rfl

theorem readValue_unbuilt {node : Node} (h : node.isBuilt = false) :
    readValue outside node sheet = sheet := by
  cases node with
  | call | scope | package => cases h
  | _ => exact consult_nil outside sheet

theorem read_variable (path : Path) (extent : Option Span) :
    read outside (.variable path extent) sheet = sheet :=
  consult_nil outside sheet

theorem read_incomplete (targets : List Node) (extent : Option Span) :
    read outside (.assignment targets none extent) sheet = sheet :=
  consult_nil outside sheet

theorem read_styleBinding (keyword : String) (tags : List Node) (extent : Option Span) :
    read outside (.styleBinding keyword tags extent) sheet = sheet :=
  consult_nil outside sheet

theorem read_namedStyle (name : String) (style : Node) (extent : Option Span) :
    read outside (.namedStyle name style extent) sheet = sheet.declare outside name style :=
  rfl

theorem read_other {node : Node} (h : node.isStatement = false) :
    read outside node sheet = sheet := by
  cases node with
  | target | style | styleTag | valueList | statementList | recipe =>
    exact consult_nil outside sheet
  | _ => cases h

theorem readAll_append (first second : List Node) :
    readAll outside (first ++ second) sheet =
      readAll outside second (readAll outside first sheet) := by
  induction first generalizing sheet with
  | nil => rfl
  | cons node rest ih => exact ih (read outside node sheet)

end Equations

/-- Whatever is read, no declaration is lost. -/
theorem declared_grows :
    Node.StatementCases
      (fun value => ∀ outside sheet, sheet.declared <+: (readValue outside value sheet).declared)
      (fun node => ∀ outside sheet, sheet.declared <+: (read outside node sheet).declared)
      (fun nodes => ∀ outside sheet,
        sheet.declared <+: (readAll outside nodes sheet).declared) where
  call name args styling extent outside sheet := List.prefix_refl sheet.declared
  scope name body _ args _ styling _ hbody outside sheet :=
    hbody ((name, sheet.events) :: outside) (sheet.enter outside name styling)
  package location label extent outside sheet := List.prefix_refl sheet.declared
  unbuilt node hnode outside sheet := by
    cases node with
    | scope => cases hnode
    | _ => exact List.prefix_refl sheet.declared
  bareCall name args styling extent hvalue outside sheet := by
    rw [read_call]
    exact hvalue outside sheet
  bareScope name body bodyExtent args argsExtent styling extent hvalue outside sheet := by
    rw [read_scope]
    exact hvalue outside sheet
  barePackage location label extent outside sheet := List.prefix_refl sheet.declared
  reference path extent outside sheet := List.prefix_refl sheet.declared
  incomplete targets extent outside sheet := List.prefix_refl sheet.declared
  synonym targets path place extent outside sheet := List.prefix_refl sheet.declared
  assigned targets value extent _ hvalue outside sheet := by
    rw [read_assigned]
    exact hvalue outside (sheet.consult outside (targetTags targets))
  namedStyle name style extent outside sheet := List.prefix_append sheet.declared _
  styleBinding keyword tags extent outside sheet := List.prefix_refl sheet.declared
  other node hnode outside sheet := by
    cases node with
    | target | style | styleTag | valueList | statementList | recipe =>
      exact List.prefix_refl sheet.declared
    | _ => cases hnode
  nil outside sheet := List.prefix_refl sheet.declared
  cons node rest hnode hrest outside sheet := by
    rw [readAll]
    exact (hnode outside sheet).trans (hrest outside (read outside node sheet))

/-- A declaration keeps its number and stays as it is, whatever is declared later. -/
theorem declared_kept (outside : Outside) (name : String) (style : Node) (later : List Node)
    (sheet : Sheet) :
    (readAll outside later (sheet.declare outside name style)).declared[sheet.declared.length]? =
      some (sheet.declaration outside style) := by
  have hlater := declared_grows.all later outside (sheet.declare outside name style)
  have hlength : sheet.declared.length < (sheet.declare outside name style).declared.length := by
    simp [Sheet.declare]
  have hown : (sheet.declare outside name style).declared[sheet.declared.length] =
      sheet.declaration outside style := by simp [Sheet.declare]
  rw [List.prefix_iff_getElem?.mp hlater sheet.declared.length hlength, hown]

section LastBound

variable {name : String}

/-- Only a style of the name changes what is declared last under it. -/
theorem lastBound_read {node : Node} (h : ∀ style extent, .namedStyle name style extent ≠ node)
    (outside : Outside) (sheet : Sheet) :
    lastBound name (read outside node sheet).events = lastBound name sheet.events := by
  cases node with
  | namedStyle other style extent =>
    have hne : other ≠ name := fun heq => h style extent (heq ▸ rfl)
    exact if_neg hne
  | assignment targets value extent =>
    cases value with
    | none => rfl
    | some value =>
      rw [read_assigned]
      cases value <;> rfl
  | _ => rfl

theorem lastBound_readAll {nodes : List Node}
    (h : ∀ style extent, .namedStyle name style extent ∉ nodes) (outside : Outside)
    (sheet : Sheet) :
    lastBound name (readAll outside nodes sheet).events = lastBound name sheet.events := by
  induction nodes generalizing sheet with
  | nil => rfl
  | cons node rest ih =>
    have hfirst : ∀ style extent, .namedStyle name style extent ≠ node :=
      fun style extent heq => h style extent (heq ▸ List.mem_cons_self)
    rw [readAll, ih fun style extent hin => h style extent (List.mem_cons_of_mem _ hin)]
    exact lastBound_read hfirst outside sheet

end LastBound

end RecipeGraph.Cascade
