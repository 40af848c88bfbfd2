import RecipeGraph.Proofs.LoadingCases
import RecipeGraph.Proofs.Progress

/-!
The packages that a text asks for while it is lowered, each with the world in which it does. They
are the locations that the text names, in their order, and in between nothing happens to the world
but that ids are given out. What comes of a text depends on its loader through the answers to these
requests alone.
-/
namespace RecipeGraph.Compile

open RecipeGraph.Graph Recipe Package

/-- A nested scope that is about to begin. -/
def enterNested (setting : Setting) (outer : List Scope) (name : String)
    (styling : Option Node) (work : Work) : Work :=
  enter setting (work.scope :: outer) (some (setting.idOf work.world.issued)) name styling
    (work.freshId setting).2

mutual

/-- The packages that a statement asks for, with the worlds in which it does. -/
def asking (setting : Setting) (outer : List Scope) : Node → Work → List (String × World)
  | .package location _ _, work => [(location, work.world)]
  | .scope name body _ _ _ styling _, work =>
      askingAll setting (work.scope :: outer) body (enterNested setting outer name styling work)
  | .assignment targets value extent, work =>
      askingValue setting outer value (prepareTargets outer targets extent work)
  | _, _ => []

def askingValue (setting : Setting) (outer : List Scope) :
    Option Node → Work → List (String × World)
  | some (.package location _ _), work => [(location, work.world)]
  | some (.scope name body _ _ _ styling _), work =>
      askingAll setting (work.scope :: outer) body (enterNested setting outer name styling work)
  | _, _ => []

def askingAll (setting : Setting) (outer : List Scope) :
    List Node → Work → List (String × World)
  | [], _ => []
  | node :: rest, work =>
      asking setting outer node work ++
        askingAll setting outer rest (lower setting outer node work)

end

/-- The packages that a whole text asks for. -/
def askingRecipe (setting : Setting) (statements : List Node) (world : World) :
    List (String × World) :=
  askingAll setting [] statements
    (enter setting [] none "" none ⟨world, [], .ofContents { id := "" }⟩)

section Equations

variable (setting : Setting) (outer : List Scope) (work : Work)

theorem askingValue_unbuilt {node : Node} (h : node.isBuilt = false) :
    askingValue setting outer (some node) work = [] := by
  cases node with
  | scope => cases h
  | package => cases h
  | _ => rfl

theorem askingValue_call (name : String) (args : List Node) (styling : Option Node)
    (extent : Option Span) :
    askingValue setting outer (some (.call name args styling extent)) work = [] := rfl

theorem asking_other {node : Node} (h : node.isStatement = false) :
    asking setting outer node work = [] := by
  cases node with
  | scope => cases h
  | package => cases h
  | assignment => cases h
  | _ => rfl

theorem lowerInside_eq (name : String) (body : List Node) (styling : Option Node) :
    lowerInside setting outer name body styling work =
      lowerAll setting (work.scope :: outer) body (enterNested setting outer name styling work) :=
  rfl

end Equations

/-- What is asked for is what is named. -/
theorem asking_locations (setting : Setting) :
    Node.StatementCases
      (fun value => ∀ outer work, (askingValue setting outer (some value) work).map Prod.fst =
        Node.locationsOfValue (some value))
      (fun node => ∀ outer work, (asking setting outer node work).map Prod.fst = node.locations)
      (fun nodes => ∀ outer work,
        (askingAll setting outer nodes work).map Prod.fst = Node.locationsOfAll nodes) where
  call _ _ _ _ _ _ := rfl
  scope name body _ _ _ styling _ hbody outer work := by
    rw [askingValue, Node.locationsOfValue]
    exact hbody _ _
  package _ _ _ _ _ := rfl
  unbuilt node hnode outer work := by
    rw [askingValue_unbuilt setting outer work hnode, Node.locationsOfValue_unbuilt hnode]
    rfl
  bareCall _ _ _ _ _ _ _ := rfl
  bareScope name body bodyExtent args argsExtent styling extent hvalue outer work := by
    have hinside := hvalue outer work
    rw [askingValue, Node.locationsOfValue] at hinside
    rw [asking, Node.locations]
    exact hinside
  barePackage _ _ _ _ _ := rfl
  reference _ _ _ _ := rfl
  incomplete _ _ _ _ := rfl
  synonym _ _ _ _ _ _ := rfl
  assigned targets value extent _ hvalue outer work := by
    rw [asking, Node.locations]
    exact hvalue outer _
  namedStyle _ _ _ _ _ := rfl
  styleBinding _ _ _ _ _ := rfl
  other node hnode outer work := by
    rw [asking_other setting outer work hnode, Node.locations_other hnode]
    rfl
  nil _ _ := rfl
  cons node rest hnode hrest outer work := by
    rw [askingAll, Node.locationsOfAll, List.map_append, hnode, hrest]

theorem askingRecipe_locations (setting : Setting) (statements : List Node) (world : World) :
    (askingRecipe setting statements world).map Prod.fst = Node.locationsOfAll statements :=
  (asking_locations setting).all statements [] _

/-- Nothing happened to the world but that ids were given out. -/
structure Still (world after : World) : Prop where
  issued : world.issued ≤ after.issued
  cache : after.cache = world.cache
  fetched : after.fetched = world.fetched

theorem Still.refl (world : World) : Still world world :=
  ⟨Nat.le_refl _, rfl, rfl⟩

theorem Still.trans {world middle after : World} (h : Still world middle)
    (h' : Still middle after) : Still world after :=
  ⟨Nat.le_trans h.issued h'.issued, h'.cache.trans h.cache, h'.fetched.trans h.fetched⟩

/-- What worlds keep from step to step is kept as long as nothing is brought in. -/
theorem growth_worlds {keeps : World → World → Prop}
    (hstill : ∀ {world after}, Still world after → keeps world after)
    (htrans : ∀ {world middle after}, keeps world middle → keeps middle after →
      keeps world after) :
    Growth fun work after => keeps work.world after.world where
  trans := htrans
  quiet h := by
    rw [h.world]
    exact hstill (.refl _)
  report work _ _ := hstill (.refl work.world)
  scope work _ := hstill (.refl work.world)
  freshId _ work := hstill ⟨Nat.le_succ _, rfl, rfl⟩

theorem growth_still : Growth fun work after => Still work.world after.world :=
  growth_worlds id .trans

/-- The worlds between two worlds are threaded by the requests that are made in them. -/
def Threaded (setting : Setting) (last : World) : World → List (String × World) → Prop
  | world, [] => Still world last
  | world, (location, middle) :: rest =>
      Still world middle ∧ Threaded setting last (setting.ask location middle) rest

section Threaded

variable {setting : Setting} {world middle last : World} {asked further : List (String × World)}

theorem Threaded.after_still (hstill : Still world middle)
    (h : Threaded setting last middle asked) :
    Threaded setting last world asked := by
  cases asked with
  | nil => exact hstill.trans h
  | cons => exact ⟨hstill.trans h.1, h.2⟩

theorem Threaded.append (h : Threaded setting middle world asked)
    (h' : Threaded setting last middle further) :
    Threaded setting last world (asked ++ further) := by
  induction asked generalizing world with
  | nil => exact h'.after_still h
  | cons request rest ih => exact ⟨h.1, ih h.2⟩

theorem Threaded.then_still (h : Threaded setting middle world asked) (hstill : Still middle last) :
    Threaded setting last world asked := by
  have hthreaded : Threaded setting last world (asked ++ []) := h.append hstill
  rwa [List.append_nil] at hthreaded

/-- Between requests and in each of them something is kept. So it is from the beginning up to
every request, and from what comes of the request to the end. -/
theorem Threaded.around (h : Threaded setting last world asked) {keeps : World → World → Prop}
    (hstill : ∀ {world after}, Still world after → keeps world after)
    (htrans : ∀ {world middle after}, keeps world middle → keeps middle after →
      keeps world after)
    (hasks : ∀ request ∈ asked, keeps request.2 (setting.ask request.1 request.2)) :
    keeps world last ∧ ∀ request ∈ asked,
      keeps world request.2 ∧ keeps (setting.ask request.1 request.2) last := by
  induction asked generalizing world with
  | nil => exact ⟨hstill h, fun _ hnone => nomatch hnone⟩
  | cons first rest ih =>
    obtain ⟨hbefore, hafter⟩ := h
    obtain ⟨hfirst, hothers⟩ := List.forall_mem_cons.mp hasks
    obtain ⟨hend, hrest⟩ := ih hafter hothers
    have hbegun : keeps world (setting.ask first.1 first.2) := htrans (hstill hbefore) hfirst
    refine ⟨htrans hbegun hend, List.forall_mem_cons.mpr ⟨⟨hstill hbefore, hend⟩, ?_⟩⟩
    intro request hin
    exact ⟨htrans hbegun (hrest request hin).1, (hrest request hin).2⟩

end Threaded

theorem still_enterNested (setting : Setting) (outer : List Scope) (name : String)
    (styling : Option Node) (work : Work) :
    Still work.world (enterNested setting outer name styling work).world :=
  (growth_still.freshId setting work).trans (growth_still.enter setting _ _ name styling _)

/-- A package is asked for in the world that there is, and then nothing else happens. -/
theorem threaded_package (setting : Setting) (location : String) (label : Option String)
    (extent : Option Span) (work : Work) :
    Threaded setting (attachPackage setting location label extent work).2.world work.world
        [(location, work.world)] ∧
      Threaded setting (lowerPackage setting location label extent work).world work.world
        [(location, work.world)] := by
  have hbrought : Still (setting.ask location work.world)
      (bringIn setting location extent work).2.world := by
    rw [world_bringIn]
    exact .refl _
  have hattached : Still (setting.ask location work.world)
      (attachPackage setting location label extent work).2.world := by
    rcases hbring : bringIn setting location extent work with ⟨_ | package, after⟩ <;>
      rw [hbring] at hbrought
    · rw [attachPackage_absent hbring]
      exact hbrought
    · rw [attachPackage_present hbring]
      exact hbrought.trans (growth_still.freshId setting after)
  refine ⟨⟨.refl _, hattached⟩, ⟨.refl _, ?_⟩⟩
  cases label with
  | some name => exact hattached
  | none =>
    rcases hbring : bringIn setting location extent work with ⟨_ | package, after⟩ <;>
      rw [hbring] at hbrought
    · rw [lowerPackage_absent hbring]
      exact hbrought
    · rw [lowerPackage_present hbring]
      exact hbrought

/-- Lowering does nothing to the world but ask for the packages, one after the other, and give out
ids in between. -/
theorem statements_threaded (setting : Setting) :
    Node.StatementCases
      (fun value => ∀ outer work, Threaded setting (lowerValue setting outer value work).2.world
        work.world (askingValue setting outer (some value) work))
      (fun node => ∀ outer work, Threaded setting (lower setting outer node work).world work.world
        (asking setting outer node work))
      (fun nodes => ∀ outer work, Threaded setting (lowerAll setting outer nodes work).world
        work.world (askingAll setting outer nodes work)) where
  call name args styling extent outer work := by
    rw [lowerValue_call, askingValue_call]
    exact growth_still.trans (growth_still.placeCall setting outer name styling work)
      (growth_still.feed setting _ _ _ _)
  scope name body _ args _ styling _ hbody outer work := by
    have hinside := (hbody (work.scope :: outer)
      (enterNested setting outer name styling work)).after_still
        (still_enterNested setting outer name styling work)
    rw [lowerValue_scope, askingValue]
    exact hinside.then_still (growth_still.feed setting _ _ args
      { lowerInside setting outer name body styling work with
        scope := work.scope.attach (lowerInside setting outer name body styling work).scope })
  package location label extent outer work :=
    (threaded_package setting location label extent work).1
  unbuilt node hnode outer work := by
    rw [lowerValue_unbuilt setting outer work hnode, askingValue_unbuilt setting outer work hnode]
    exact growth_still.report work _ _
  bareCall name args styling extent hvalue outer work := by
    rw [lower_call]
    exact hvalue outer work
  bareScope name body bodyExtent args argsExtent styling extent hvalue outer work := by
    rw [lower_scope]
    exact hvalue outer work
  barePackage location label extent outer work := by
    rw [lower_package]
    exact (threaded_package setting location label extent work).2
  reference path extent outer work := by
    rw [lower_variable]
    exact Still.refl work.world
  incomplete targets extent outer work := by
    rw [lower_incomplete]
    exact growth_still.trans (growth_still.quiet (Work.quiet_checkLeft targets extent work))
      (growth_still.report _ _ _)
  synonym targets path place extent outer work := by
    rw [lower_synonym]
    exact growth_still.trans (growth_still.quiet (quiet_prepareTargets outer targets extent work))
      (growth_still.synonym outer targets path place _)
  assigned targets value extent hvariable hvalue outer work := by
    rw [lower_assigned setting outer work targets extent hvariable, asking]
    exact ((hvalue outer _).after_still
      (growth_still.quiet (quiet_prepareTargets outer targets extent work))).then_still
        (growth_still.bindTargets targets _ _)
  namedStyle name style extent outer work := by
    rw [lower_namedStyle]
    exact growth_still.trans (growth_still.quiet (Work.quiet_flatten outer style work))
      (growth_still.update _ _)
  styleBinding keyword tags extent outer work := by
    rw [lower_styleBinding]
    exact Still.refl work.world
  other node hnode outer work := by
    rw [lower_other setting outer work hnode, asking_other setting outer work hnode]
    exact growth_still.report work _ _
  nil outer work := by
    rw [lowerAll]
    exact Still.refl work.world
  cons node rest hnode hrest outer work := by
    rw [lowerAll, askingAll]
    exact (hnode outer work).append (hrest outer _)

theorem recipe_threaded (setting : Setting) (statements : List Node) (world : World) :
    Threaded setting (lowerRecipe setting statements world).world world
      (askingRecipe setting statements world) :=
  ((statements_threaded setting).all statements [] _).after_still
    (growth_still.enter setting [] none "" none ⟨world, [], .ofContents { id := "" }⟩)

/-- The setting with another loader. -/
def Setting.through (setting : Setting) (loader : Loader) : Setting :=
  { setting with loader := some loader }

section Answers

variable (setting : Setting) (loader loader' : Loader)

/-- Two loaders give the same answer to all that is asked for either way. -/
def AnswerAlike (asked asked' : List (String × World)) : Prop :=
  ∀ request ∈ asked, request ∈ asked' →
    loader request.1 setting.chain request.2 = loader' request.1 setting.chain request.2

theorem arguments_through (outer : List Scope) :
    Node.ArgumentCases
      (fun arg => lowerArg (setting.through loader) outer arg =
        lowerArg (setting.through loader') outer arg)
      (fun args => lowerArgs (setting.through loader) outer args =
        lowerArgs (setting.through loader') outer args) where
  call name args styling extent hargs := by
    funext work
    rw [lowerArg_call, lowerArg_call]
    unfold feed
    rw [hargs]
    rfl
  reference path extent := by
    funext work
    rw [lowerArg_variable, lowerArg_variable]
  other node hnode := by
    funext work
    rw [lowerArg_other _ _ _ hnode, lowerArg_other _ _ _ hnode]
  nil := rfl
  cons arg rest hfirst hrest := by
    funext work
    rw [lowerArgs_cons, lowerArgs_cons, hfirst, hrest]

theorem feed_through (outer : List Scope) (target : String) (args : List Node) :
    feed (setting.through loader) outer target args =
      feed (setting.through loader') outer target args := by
  funext work
  unfold feed
  rw [(arguments_through setting loader loader' outer).all args]
  rfl

variable {setting loader loader'}

theorem bringIn_through {location : String} {work : Work}
    (h : loader location setting.chain work.world = loader' location setting.chain work.world)
    (extent : Option Span) :
    bringIn (setting.through loader) location extent work =
      bringIn (setting.through loader') location extent work := by
  unfold bringIn Setting.through
  dsimp only [Work.world_update]
  rw [h]

theorem package_through {location : String} {work : Work}
    (h : loader location setting.chain work.world = loader' location setting.chain work.world)
    (label : Option String) (extent : Option Span) :
    attachPackage (setting.through loader) location label extent work =
        attachPackage (setting.through loader') location label extent work ∧
      lowerPackage (setting.through loader) location label extent work =
        lowerPackage (setting.through loader') location label extent work := by
  have hattached : attachPackage (setting.through loader) location label extent work =
      attachPackage (setting.through loader') location label extent work := by
    unfold attachPackage
    rw [bringIn_through h]
    rfl
  refine ⟨hattached, ?_⟩
  unfold lowerPackage
  rw [hattached, bringIn_through h]

/-- What comes of statements depends on the loader through its answers alone. -/
theorem statements_through :
    Node.StatementCases
      (fun value => ∀ outer work,
        AnswerAlike setting loader loader'
          (askingValue (setting.through loader) outer (some value) work)
          (askingValue (setting.through loader') outer (some value) work) →
        lowerValue (setting.through loader) outer value work =
            lowerValue (setting.through loader') outer value work ∧
          askingValue (setting.through loader) outer (some value) work =
            askingValue (setting.through loader') outer (some value) work)
      (fun node => ∀ outer work,
        AnswerAlike setting loader loader' (asking (setting.through loader) outer node work)
          (asking (setting.through loader') outer node work) →
        lower (setting.through loader) outer node work =
            lower (setting.through loader') outer node work ∧
          asking (setting.through loader) outer node work =
            asking (setting.through loader') outer node work)
      (fun nodes => ∀ outer work,
        AnswerAlike setting loader loader' (askingAll (setting.through loader) outer nodes work)
          (askingAll (setting.through loader') outer nodes work) →
        lowerAll (setting.through loader) outer nodes work =
            lowerAll (setting.through loader') outer nodes work ∧
          askingAll (setting.through loader) outer nodes work =
            askingAll (setting.through loader') outer nodes work) where
  call name args styling extent outer work _ := by
    refine ⟨?_, rfl⟩
    rw [lowerValue_call, lowerValue_call, feed_through setting loader loader']
    rfl
  scope name body _ args _ styling _ hbody outer work halike := by
    obtain ⟨hinside, hasked⟩ := hbody _ _ halike
    refine ⟨?_, hasked⟩
    rw [lowerValue_scope, lowerValue_scope]
    unfold lowerNested
    rw [lowerInside_eq, lowerInside_eq, feed_through setting loader loader']
    dsimp only
    rw [hinside]
    rfl
  package location label extent outer work halike :=
    ⟨(package_through (halike (location, work.world) (List.mem_singleton_self _)
      (List.mem_singleton_self _)) label extent).1, rfl⟩
  unbuilt node hnode outer work _ := by
    rw [askingValue_unbuilt _ _ _ hnode, askingValue_unbuilt _ _ _ hnode,
      lowerValue_unbuilt _ _ _ hnode, lowerValue_unbuilt _ _ _ hnode]
    exact ⟨rfl, rfl⟩
  bareCall name args styling extent hvalue outer work halike := by
    rw [lower_call, lower_call]
    exact ⟨congrArg Prod.snd (hvalue outer work halike).1, rfl⟩
  bareScope name body bodyExtent args argsExtent styling extent hvalue outer work halike := by
    obtain ⟨hlowered, hasked⟩ := hvalue outer work halike
    rw [lower_scope, lower_scope]
    exact ⟨congrArg Prod.snd hlowered, hasked⟩
  barePackage location label extent outer work halike := by
    rw [lower_package, lower_package]
    exact ⟨(package_through (halike (location, work.world) (List.mem_singleton_self _)
      (List.mem_singleton_self _)) label extent).2, rfl⟩
  reference path extent outer work _ := by
    rw [lower_variable, lower_variable]
    exact ⟨rfl, rfl⟩
  incomplete targets extent outer work _ := by
    rw [lower_incomplete, lower_incomplete]
    exact ⟨rfl, rfl⟩
  synonym targets path place extent outer work _ := by
    rw [lower_synonym, lower_synonym]
    exact ⟨rfl, rfl⟩
  assigned targets value extent hvariable hvalue outer work halike := by
    obtain ⟨hlowered, hasked⟩ := hvalue outer _ halike
    rw [lower_assigned _ _ _ _ _ hvariable, lower_assigned _ _ _ _ _ hvariable, hlowered]
    exact ⟨rfl, hasked⟩
  namedStyle name style extent outer work _ := by
    rw [lower_namedStyle, lower_namedStyle]
    exact ⟨rfl, rfl⟩
  styleBinding keyword tags extent outer work _ := by
    rw [lower_styleBinding, lower_styleBinding]
    exact ⟨rfl, rfl⟩
  other node hnode outer work _ := by
    rw [lower_other _ _ _ hnode, lower_other _ _ _ hnode, asking_other _ _ _ hnode,
      asking_other _ _ _ hnode]
    exact ⟨rfl, rfl⟩
  nil outer work _ := by
    rw [lowerAll, lowerAll]
    exact ⟨rfl, rfl⟩
  cons node rest hnode hrest outer work halike := by
    rw [askingAll, askingAll] at halike
    obtain ⟨hfirst, hasked⟩ := hnode outer work fun request hin hin' =>
      halike request (List.mem_append_left _ hin) (List.mem_append_left _ hin')
    rw [← hfirst] at halike
    obtain ⟨hothers, hfurther⟩ := hrest outer _ fun request hin hin' =>
      halike request (List.mem_append_right _ hin) (List.mem_append_right _ hin')
    rw [lowerAll, lowerAll, askingAll, askingAll, ← hfirst, hasked]
    exact ⟨hothers, congrArg _ hfurther⟩

/-- What comes of a whole text depends on the loader through its answers alone. -/
theorem recipe_through (setting : Setting) {statements : List Node} {world : World}
    (halike : AnswerAlike setting loader loader'
      (askingRecipe (setting.through loader) statements world)
      (askingRecipe (setting.through loader') statements world)) :
    lowerRecipe (setting.through loader) statements world =
      lowerRecipe (setting.through loader') statements world :=
  (statements_through.all statements [] _ halike).1

end Answers

end RecipeGraph.Compile
