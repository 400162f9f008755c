import Lineage.Proofs.Tree.Mentions
import Mathlib.Data.List.Basic

/-!
What statements do, as lists of actions. A statement without blocks evaluates expressions, uses and
binds names, tells what the body of a function or class reads and assigns, or jumps; the heads of
clauses do the same. So whatever every action keeps, every statement without blocks keeps. Which
actions a statement has is read off its text.
-/

namespace Lineage

open List Std

namespace Node

/-- The expressions that a statement evaluates itself; those of the statements in its blocks are
left out. -/
def ownParts : Node → List Node
  | .branch _ _ test _ elifs _ => test :: elifs.map Elif.test
  | .whileLoop _ _ test _ _ => [test]
  | .forLoop _ _ target iter _ _ _ => iter :: target.targetParts
  | .attempt _ _ _ handlers _ _ => handlers.flatMap fun h => h.type.toList
  | .context _ _ items _ _ => contextParts items
  | n => n.evaluatedParts

/-- Whether a statement runs code that is not known. -/
def isDynamic (settings : Flow.Settings) (n : Node) : Bool :=
  n.kind = .verbatim || n.ownParts.any (runsUnknown settings)

/-- The statements in the blocks of a statement, or in the body of the function or class that it
defines. -/
def bodies : Node → List Node
  | .function _ _ _ _ _ code _ => code
  | .classDef _ _ _ _ _ code => code
  | .decorated _ _ (.function _ _ _ _ _ code _) => code
  | .decorated _ _ (.classDef _ _ _ _ _ code) => code
  | n => n.clauseBlocks.flatMap Prod.snd

/-- A property of a statement and of all statements in its blocks and bodies, however deep. -/
inductive Everywhere (P : Node → Prop) : Node → Prop where
  | intro {n : Node} : P n → (∀ c ∈ n.bodies, Everywhere P c) → Everywhere P n

/-- No module stands in the blocks and bodies of a statement. -/
abbrev NoModules (n : Node) : Prop :=
  n.Everywhere fun m => m.kind ≠ .module

theorem mem_bodies_of_block {n : Node} {block : Block} (among : block ∈ n.clauseBlocks) {c : Node}
    (member : c ∈ block.2) : c ∈ n.bodies := by
  have inside : c ∈ n.clauseBlocks.flatMap Prod.snd := mem_flatMap.mpr ⟨block, among, member⟩
  cases n
  case function | classDef | decorated => exact absurd among not_mem_nil
  all_goals exact inside

/-- What holds everywhere in a statement holds of all statements in its blocks. -/
theorem Everywhere.throughout {P : Node → Prop} {n : Node} (holds : n.Everywhere P) :
    n.Throughout P :=
  throughout_of (fun _ ⟨own, _⟩ => own)
    (fun _ ⟨_, inner⟩ _ among c member => inner c (mem_bodies_of_block among member)) n holds

/-- The statements in blocks and bodies are children, or children of what is decorated. -/
theorem bodies_cases {n c : Node} (member : c ∈ n.bodies) :
    c ∈ n.children ∨ ∃ d ∈ n.children, c ∈ d.children := by
  have inBlock : c ∈ n.clauseBlocks.flatMap Prod.snd → c ∈ n.children := by
    intro member
    obtain ⟨block, among, member⟩ := mem_flatMap.mp member
    exact mem_children_of_block among member
  cases n
  case function => exact Or.inl (mem_append_right _ member)
  case classDef => exact Or.inl (mem_append_right _ member)
  case decorated loc decorators definition =>
    refine Or.inr ⟨definition, mem_append_right _ (mem_singleton_self _), ?_⟩
    cases definition
    case function => exact mem_append_right _ member
    case classDef => exact mem_append_right _ member
    all_goals exact absurd member not_mem_nil
  all_goals exact Or.inl (inBlock member)

theorem bodies_subset (n : Node) : n.bodies ⊆ n.nodes := by
  intro c member
  rcases bodies_cases member with child | ⟨d, child, below⟩
  · exact children_subset n child
  · exact nodes_subset (children_subset n child) (children_subset d below)

/-- Induction over statements by their blocks and bodies. -/
theorem bodies_induction {P : Node → Prop} (step : ∀ n : Node, (∀ c ∈ n.bodies, P c) → P n)
    (n : Node) : P n := by
  suffices bounded : ∀ bound, ∀ n : Node, n.nodes.length < bound →
    P n from bounded _ n (Nat.lt_succ_self _)
  intro bound
  induction bound with
  | zero => exact fun n small => absurd small (Nat.not_lt_zero _)
  | succ bound ih =>
    refine fun n small => step n fun c member => ih c ?_
    rcases bodies_cases member with child | ⟨d, child, below⟩
    · have less := length_nodes_lt child
      omega
    · have less := length_nodes_lt child
      have lesser := length_nodes_lt below
      omega

theorem eq_verbatim {n : Node} (verbatim : n.kind = .verbatim) :
    ∃ loc source, n = .verbatim loc source := by
  cases n
  case verbatim loc source => exact ⟨loc, source, rfl⟩
  all_goals exact Kind.noConfusion verbatim

end Node

namespace Flow

/-- One thing that a statement does. `close` tells what the body of a function or class reads from
outside when it runs and what it assigns there. -/
inductive Action where
  | evaluate (es : List Node)
  | define (d : Definition)
  | use (u : Use)
  | close (free writes : NameSet)
  | break
  | continue

namespace Progress

/-- Does one thing. -/
def act (env : Env) (i : Nat) (p : Progress) : Action → Progress
  | .evaluate es => p.evaluate env i es
  | .define d => p.define i d
  | .use u => p.use i u
  | .close free writes =>
    p.revise i fun f => { f with free := f.free ∪ free, globalWrites := f.globalWrites ∪ writes }
  | .break => { p with breaks := p.breaks ++ [p.state] }
  | .continue => { p with continues := p.continues ++ [p.state] }

/-- Does several things in order. -/
def acts (env : Env) (i : Nat) (actions : List Action) (p : Progress) : Progress :=
  actions.foldl (fun p a => p.act env i a) p

theorem acts_append (env : Env) (i : Nat) (before after : List Action) (p : Progress) :
    p.acts env i (before ++ after) = (p.acts env i before).acts env i after :=
  foldl_append

theorem acts_defines (env : Env) (i : Nat) (ds : List Definition) (p : Progress) :
    p.acts env i (ds.map .define) = p.defineAll i ds :=
  foldl_map

theorem acts_uses (env : Env) (i : Nat) (us : List Use) (p : Progress) :
    p.acts env i (us.map .use) = us.foldl (fun p u => p.use i u) p :=
  foldl_map

end Progress

mutual

/-- The actions of assigning to a target. -/
def targetActions (kind : DefinitionKind) : Node → List Action
  | .name loc id => [.define ⟨id, id, kind, loc⟩]
  | .tuple _ items => targetsActions kind items
  | .list _ items => targetsActions kind items
  | .starred _ value => targetActions kind value
  | .member loc value attr =>
    .evaluate [value] :: (mutationOf loc (.member loc value attr)).toList.map .define
  | .subscript loc value index =>
    .evaluate [value, index] :: (mutationOf loc (.subscript loc value index)).toList.map .define
  | other => [.evaluate [other]]

/-- The actions of assigning to several targets. -/
def targetsActions (kind : DefinitionKind) : List Node → List Action
  | [] => []
  | n :: rest => targetActions kind n ++ targetsActions kind rest

end

/-- The actions of deleting a target. -/
def deletionActions (target : Node) : List Action :=
  match target.targetNames with
  | [] => targetActions .mutation target
  | names => names.flatMap fun o =>
      [.use ⟨o.id, o.id, .direct, o.loc⟩, .define ⟨o.id, o.id, .deletion, o.loc⟩]

/-- The actions of a statement that neither has blocks nor defines anything. -/
def simpleActions : Node → List Action
  | .imports loc names => (names.map fun a => ⟨a.boundName, a.path, .imported, loc⟩ : List
      Definition).map .define
  | .importsFrom loc base level names => (importDefinitions loc base level names).map .define
  | .assign _ targets value op hint _ =>
    .evaluate (value.toList ++ hint.toList ++ if op.isSome then targets else []) ::
      if value.isNone then [] else targetsActions .assignment targets
  | .assertion _ condition message => [.evaluate (condition :: message.toList)]
  | .returning _ value => [.evaluate value.toList]
  | .raising _ exception cause => [.evaluate (exception.toList ++ cause.toList)]
  | .expression _ value => [.evaluate [value]]
  | .break _ => [.break]
  | .continue _ => [.continue]
  | .global loc names => (names.map fun name => ⟨name, name, .globalAlias, loc⟩ : List
      Definition).map .define
  | .nonlocal loc names => (names.map fun name => ⟨name, name, .globalAlias, loc⟩ : List
      Definition).map .define
  | .delete _ targets => targets.flatMap deletionActions
  | _ => []

/-- What the analysis of a function's body finds. -/
def functionBody (env : Env) (params : List (Param Node)) (code : List Node) : Result :=
  (visitBlock (env.forBlock (paramNames params) code) none 0 code
    (.start (parameterState (paramNames params)))).result

/-- What the analysis of the body of a class finds. -/
def classBody (env : Env) (code : List Node) : Result :=
  (visitBlock (env.forBlock [] code) none 0 code (.start ∅)).result

/-- The actions of defining a function, given what the analysis of its body finds. -/
def functionActions (loc : Location) (name : String) (decorators : List Node)
    (params : List (Param Node)) (returns : Option Node) (code : List Node) (body : Result) :
    List Action :=
  [.evaluate (Node.decoratorParts decorators ++ (params.flatMap paramReads ++ returns.toList)),
    .close (body.freeNames (body.locals (paramNames params) (declaredOutside code)))
      (body.writesOutside (declaredOutside code)),
    .define ⟨name, name, .function, loc⟩]

/-- The actions of defining a class, given what the analysis of its body finds. -/
def classActions (loc : Location) (name : String) (decorators bases : List Node)
    (keywords : List (Keyword Node)) (body : Result) : List Action :=
  .evaluate (Node.decoratorParts decorators ++ (bases ++ keywords.map Keyword.value)) ::
    (body.classUses.map .use ++ [.close body.innerFree ∅, .define ⟨name, name, .classDef, loc⟩])

/-- The actions of a statement without blocks. -/
def flatActions (env : Env) : Node → List Action
  | .function loc name _ params returns code _ =>
    functionActions loc name [] params returns code (functionBody env params code)
  | .classDef loc name _ bases keywords code => classActions loc name [] bases keywords
      (classBody env code)
  | .decorated _ decorators (.function loc name _ params returns code _) =>
    functionActions loc name decorators params returns code (functionBody env params code)
  | .decorated _ decorators (.classDef loc name _ bases keywords code) =>
    classActions loc name decorators bases keywords (classBody env code)
  | n => simpleActions n

/-- The actions of entering contexts. -/
def contextActions (items : List (WithItem Node)) : List Action :=
  items.flatMap fun item => .evaluate [item.context] :: targetsActions .withTarget
    item.target.toList

/-- The actions at the head of an `except` clause. -/
def catchActions (header : Location) (type : Option Node) (name : Option String) : List Action :=
  .evaluate type.toList :: (name.toList.map fun name => ⟨name, name, .exceptTarget, header⟩ : List
    Definition).map .define

namespace Progress

/-- What a statement without blocks does between being entered and being left. -/
def perform (env : Env) (i : Nat) : Node → Progress → Progress
  | .function loc name _ params returns code _, p =>
    p.function env i loc name params returns code
      (visitBlock (env.forBlock (paramNames params) code) none 0 code
        (.start (parameterState (paramNames params)))).result
  | .classDef loc name _ bases keywords code, p =>
    p.classDef env i loc name bases keywords
      (visitBlock (env.forBlock [] code) none 0 code (.start ∅)).result
  | .decorated _ decorators (.function loc name _ params returns code _), p =>
    (p.decorate env i decorators).function env i loc name params returns code
      (visitBlock (env.forBlock (paramNames params) code) none 0 code
        (.start (parameterState (paramNames params)))).result
  | .decorated _ decorators (.classDef loc name _ bases keywords code), p =>
    (p.decorate env i decorators).classDef env i loc name bases keywords
      (visitBlock (env.forBlock [] code) none 0 code (.start ∅)).result
  | n, p => p.simple env i n

theorem perform_eq_simple (env : Env) (i : Nat) (n : Node) (p : Progress)
    (simple : n.kind.isDefinition = false) : p.perform env i n = p.simple env i n := by
  cases n
  case function => nomatch simple
  case classDef => nomatch simple
  case decorated => nomatch simple
  all_goals rfl

mutual

theorem bind_eq_acts (env : Env) (i : Nat) (kind : DefinitionKind) (target : Node) (p : Progress) :
    p.bind env i kind target = p.acts env i (targetActions kind target) := by
  cases target
  case name => rfl
  case tuple loc items => exact bindList_eq_acts env i kind items p
  case list loc items => exact bindList_eq_acts env i kind items p
  case starred loc value => exact bind_eq_acts env i kind value p
  case member => exact (acts_defines env i _ _).symm
  case subscript => exact (acts_defines env i _ _).symm
  all_goals rfl

theorem bindList_eq_acts (env : Env) (i : Nat) (kind : DefinitionKind) (targets : List Node)
    (p : Progress) : p.bindList env i kind targets =
    p.acts env i (targetsActions kind targets) := by
  cases targets with
  | nil => rfl
  | cons t rest =>
    rw [bindList, targetsActions, acts_append, ← bind_eq_acts env i kind t p]
    exact bindList_eq_acts env i kind rest _

end

theorem delete_eq_acts (env : Env) (i : Nat) (target : Node) (p : Progress) :
    p.delete env i target = p.acts env i (deletionActions target) := by
  have each : ∀ (names : List Occurrence) (p : Progress),
      names.foldl (fun p o => (p.use i ⟨o.id, o.id, .direct, o.loc⟩).define i
        ⟨o.id, o.id, .deletion, o.loc⟩) p = p.acts env i (names.flatMap fun o =>
          [.use ⟨o.id, o.id, .direct, o.loc⟩, .define ⟨o.id, o.id, .deletion, o.loc⟩]) := by
    intro names
    induction names with
    | nil => exact fun _ => rfl
    | cons o rest ih =>
      intro p
      rw [foldl_cons, flatMap_cons, acts_append]
      exact ih _
  unfold delete deletionActions
  cases target.targetNames with
  | nil => exact bind_eq_acts env i _ target p
  | cons o rest => exact each (o :: rest) p

theorem simple_eq_acts (env : Env) (i : Nat) (n : Node) (p : Progress)
    (known : n.kind ≠ .verbatim) : p.simple env i n = p.acts env i (simpleActions n) := by
  cases n
  case verbatim => exact absurd rfl known
  case imports => exact (acts_defines env i _ p).symm
  case importsFrom => exact (acts_defines env i _ p).symm
  case assign loc targets value op hint isExpression =>
    rw [simple, simpleActions]
    split
    · rfl
    · exact bindList_eq_acts env i _ targets _
  case global => exact (acts_defines env i _ p).symm
  case nonlocal => exact (acts_defines env i _ p).symm
  case delete loc targets =>
    clear known
    rw [simple, simpleActions]
    induction targets generalizing p with
    | nil => rfl
    | cons t rest ih =>
      rw [foldl_cons, flatMap_cons, acts_append, ← delete_eq_acts]
      exact ih _
  all_goals rfl

/-- Decorators are evaluated together with what follows them. -/
theorem evaluate_decorate (env : Env) (i : Nat) (decorators es : List Node) (p : Progress) :
    (p.decorate env i decorators).evaluate env i es = p.evaluate env i
    (Node.decoratorParts decorators ++ es) := by
  rw [evaluate, evaluate, readAll, readAll, foldl_append]
  rfl

theorem function_eq_acts (env : Env) (i : Nat) (loc : Location) (name : String)
    (decorators : List Node) (params : List (Param Node)) (returns : Option Node)
    (code : List Node) (body : Result)
    (p : Progress) :
      (p.decorate env i decorators).function env i loc name params returns code body =
      p.acts env i (functionActions loc name decorators params returns code body) := by
  rw [function, evaluate_decorate]
  rfl

theorem classDef_eq_acts (env : Env) (i : Nat) (loc : Location) (name : String)
    (decorators bases : List Node) (keywords : List (Keyword Node)) (body : Result) (p : Progress) :
    (p.decorate env i decorators).classDef env i loc name bases keywords body =
      p.acts env i (classActions loc name decorators bases keywords body) := by
  have nothing : ∀ names : NameSet, names ∪ ∅ = names := by
    intro names
    ext name
    simp
  rw [classDef, evaluate_decorate, classActions]
  change _ = (p.evaluate env i _).acts env i _
  rw [acts_append, acts_uses]
  simp only [acts, foldl_cons, foldl_nil, act, nothing]

/-- A statement without blocks does its actions. -/
theorem perform_eq_acts (env : Env) (i : Nat) (n : Node) (p : Progress)
    (known : n.kind ≠ .verbatim) : p.perform env i n = p.acts env i (flatActions env n) := by
  cases n
  case function => exact function_eq_acts env i _ _ [] _ _ _ _ p
  case classDef => exact classDef_eq_acts env i _ _ [] _ _ _ p
  case decorated loc decorators definition =>
    cases definition
    case function => exact function_eq_acts env i _ _ decorators _ _ _ _ p
    case classDef => exact classDef_eq_acts env i _ _ decorators _ _ _ p
    all_goals rfl
  all_goals exact simple_eq_acts env i _ p known

/-- A statement that is taken over as it stands is marked; any other does its actions. -/
theorem perform_cases (env : Env) (i : Nat) (n : Node) (p : Progress) :
    (n.kind = .verbatim ∧ p.perform env i n = p.revise i fun f => { f with dynamic := true }) ∨
      n.kind ≠ .verbatim ∧ p.perform env i n = p.acts env i (flatActions env n) := by
  by_cases known : n.kind = .verbatim
  · refine Or.inl ⟨known, ?_⟩
    obtain ⟨loc, source, rfl⟩ := Node.eq_verbatim known
    rfl
  · exact Or.inr ⟨known, p.perform_eq_acts env i n known⟩

theorem enterContexts_eq_acts (env : Env) (i : Nat) (items : List (WithItem Node)) (p : Progress) :
    p.enterContexts env i items = p.acts env i (contextActions items) := by
  unfold enterContexts contextActions
  induction items generalizing p with
  | nil => rfl
  | cons item rest ih =>
    rw [foldl_cons, flatMap_cons, acts_append, ih, bindList_eq_acts]
    rfl

theorem catchError_eq_acts (env : Env) (i : Nat) (header : Location) (type : Option Node)
    (name : Option String) (p : Progress) :
    p.catchError env i header type name = p.acts env i (catchActions header type name) :=
  (acts_defines env i _ _).symm

end Progress

/-- A statement without blocks is entered, performed and left. -/
theorem visit_flat (env : Env) (parent : Option Nat) (i : Nat) (n : Node) (p : Progress)
    (flat : n.kind.isCompound = false) :
    visit env parent i n p = ((p.enter parent i n).perform env i n).leave i n p.state := by
  cases n
  case branch => nomatch flat
  case whileLoop => nomatch flat
  case forLoop => nomatch flat
  case attempt => nomatch flat
  case context => nomatch flat
  case decorated loc decorators definition => cases definition <;> simp only [visit,
    Progress.perform]
  all_goals simp only [visit, Progress.perform]

/-! ### What the actions are -/

namespace Action

/-- The expressions that an action evaluates. -/
def parts : Action → List Node
  | .evaluate es => es
  | _ => []

/-- The names that an action binds outright. -/
def kills : Action → List String
  | .define d => if d.kind.kills then [d.name] else []
  | _ => []

/-- The names that an action tells to be assigned outside. -/
def writes : Action → NameSet
  | .close _ writes => writes
  | _ => ∅

/-- An action that evaluates something or binds a name that has the property. -/
def Binds (named : String → Prop) : Action → Prop
  | .evaluate _ => True
  | .define d => named d.name
  | _ => False

/-- What a statement without blocks may do: it binds names that stand in it, or all names; it uses
such names, or what the body of a class uses; what it tells to be assigned outside stands in it
too. -/
def Done (env : Env) (n : Node) : Action → Prop
  | .evaluate _ => True
  | .define d => d.name ∈ n.identifiers ∨ n.isStarImport = true ∧ d.name = allNames
  | .use u => u.name ∈ n.identifiers ∨ u ∈ (classBody env n.bodies).classUses
  | .close _ writes => n.kind.isDefinition = true ∧ ∀ name ∈ writes, name ∈ n.identifiers
  | .break => n.kind = .break
  | .continue => n.kind = .continue

theorem Binds.mono {named wide : String → Prop} {a : Action} (binds : a.Binds named)
    (more : ∀ name, named name → wide name) : a.Binds wide := by
  cases a with
  | define d => exact more d.name binds
  | _ => exact binds

theorem Binds.done {n : Node} {a : Action} (binds : a.Binds (· ∈ n.identifiers)) (env : Env) :
    a.Done env n := by
  cases a with
  | evaluate => trivial
  | define => exact Or.inl binds
  | _ => exact binds.elim

end Action

end Flow

/-- What a compound statement does by itself, in front of its blocks and between them. -/
def Node.headActions : Node → List Flow.Action
  | .branch _ _ test _ elifs _ => .evaluate [test] :: elifs.map fun e => .evaluate [e.test]
  | .whileLoop _ _ test _ _ => [.evaluate [test]]
  | .forLoop _ _ target iter _ _ _ => .evaluate [iter] :: Flow.targetActions .loopTarget target
  | .attempt _ _ _ handlers _ _ => handlers.flatMap fun h => Flow.catchActions h.header
      h.type h.name
  | .context _ _ items _ _ => Flow.contextActions items
  | _ => []

/-- The expressions that a compound statement evaluates by itself. -/
def Node.headParts (n : Node) : List Node :=
  n.headActions.flatMap Flow.Action.parts

namespace Flow

theorem parts_defines (ds : List Definition) : (ds.map Action.define).flatMap Action.parts =
    [] := by
  induction ds with
  | nil => rfl
  | cons d rest ih => exact ih

mutual

theorem parts_targetActions (kind : DefinitionKind) (target : Node) :
    (targetActions kind target).flatMap Action.parts = target.targetParts := by
  cases target
  case tuple loc items => exact parts_targetsActions kind items
  case list loc items => exact parts_targetsActions kind items
  case starred loc value => exact parts_targetActions kind value
  case member loc value attr => exact congrArg ([value] ++ ·) (parts_defines _)
  case subscript loc value index => exact congrArg ([value, index] ++ ·) (parts_defines _)
  all_goals rfl

theorem parts_targetsActions (kind : DefinitionKind) (targets : List Node) :
    (targetsActions kind targets).flatMap Action.parts = Node.targetPartsList targets := by
  cases targets with
  | nil => rfl
  | cons t rest =>
    rw [targetsActions, flatMap_append, parts_targetActions kind t, parts_targetsActions kind rest]
    rfl

end

theorem parts_deletionActions (target : Node) :
    (deletionActions target).flatMap Action.parts = if target.targetNames.isEmpty then
    target.targetParts else [] := by
  unfold deletionActions
  cases target.targetNames with
  | nil => exact parts_targetActions _ target
  | cons o rest =>
    rw [flatMap_assoc]
    exact flatMap_eq_nil_iff.mpr fun _ _ => rfl

/-- A statement without blocks evaluates its parts. -/
theorem parts_flatActions (env : Env) (n : Node) :
    (flatActions env n).flatMap Action.parts = n.evaluatedParts := by
  have class_ : ∀ loc name decorators bases keywords body,
      (classActions loc name decorators bases keywords body).flatMap Action.parts =
        Node.decoratorParts decorators ++ (bases ++ keywords.map Keyword.value) := by
    intro loc name decorators bases keywords body
    have uses : ∀ us : List Use, (us.map Action.use).flatMap Action.parts = [] := fun us => by
      rw [flatMap_map]
      exact flatMap_eq_nil_iff.mpr fun _ _ => rfl
    rw [classActions, flatMap_cons, flatMap_append, uses]
    exact append_nil _
  cases n
  case imports => exact parts_defines _
  case importsFrom => exact parts_defines _
  case global => exact parts_defines _
  case nonlocal => exact parts_defines _
  case assign loc targets value op hint isExpression =>
    show (_ ++ _ : List Node) = _ ++ _
    refine congrArg (_ ++ ·) ?_
    cases value with
    | none => rfl
    | some value => exact parts_targetsActions _ targets
  case delete loc targets =>
    show (targets.flatMap deletionActions).flatMap Action.parts = targets.flatMap _
    rw [flatMap_assoc]
    exact flatMap_congr fun t _ => parts_deletionActions t
  case classDef => exact class_ _ _ [] _ _ _
  case decorated loc decorators definition =>
    cases definition
    case function => exact append_nil _
    case classDef => exact class_ _ _ decorators _ _ _
    all_goals rfl
  case function | assertion | returning | raising | expression => exact append_nil _
  all_goals rfl

theorem parts_catchActions (header : Location) (type : Option Node) (name : Option String) :
    (catchActions header type name).flatMap Action.parts = type.toList := by
  rw [catchActions, flatMap_cons, parts_defines]
  exact append_nil _

theorem parts_contextActions (items : List (WithItem Node)) :
    (contextActions items).flatMap Action.parts = Node.contextParts items := by
  rw [contextActions, flatMap_assoc, Node.contextParts]
  refine flatMap_congr fun item _ => ?_
  rw [flatMap_cons, parts_targetsActions]
  rfl

theorem ownParts_flat {n : Node} (flat : n.kind.isCompound = false) :
    n.ownParts = n.evaluatedParts := by
  cases n
  case branch | whileLoop | forLoop | attempt | context => nomatch flat
  all_goals rfl

/-- A compound statement evaluates its parts at the heads of its clauses. -/
theorem mem_headParts {n : Node} (compound : n.kind.isCompound = true) {e : Node} :
    e ∈ n.headParts ↔ e ∈ n.ownParts := by
  cases n
  case branch =>
    simp only [Node.headParts, Node.headActions, Node.ownParts, Action.parts, flatMap_cons,
      flatMap_map, mem_append, mem_cons, mem_flatMap, mem_map, not_mem_nil, or_false, eq_comm]
  case whileLoop => rfl
  case forLoop loc header target iter code orelse isAsync =>
    show e ∈ iter :: (targetActions .loopTarget target).flatMap Action.parts ↔ _
    rw [parts_targetActions]
    rfl
  case attempt loc header code handlers orelse final =>
    show e ∈
      (handlers.flatMap fun h => catchActions h.header h.type h.name).flatMap Action.parts ↔ _
    rw [flatMap_assoc, flatMap_congr fun h _ => parts_catchActions h.header h.type h.name]
    rfl
  case context loc header items code isAsync =>
    show e ∈ (contextActions items).flatMap Action.parts ↔ _
    rw [parts_contextActions]
    rfl
  all_goals exact absurd compound Bool.false_ne_true

theorem headParts_subset_ownParts (n : Node) : n.headParts ⊆ n.ownParts := by
  intro e member
  by_cases compound : n.kind.isCompound = true
  · exact (mem_headParts compound).mp member
  · cases n
    case branch | whileLoop | forLoop | attempt | context => exact absurd rfl compound
    all_goals exact absurd member not_mem_nil

/-- What a statement evaluates by itself stands below it. -/
theorem ownParts_subset (n : Node) : n.ownParts ⊆ n.nodes := by
  intro e member
  have child := Node.children_subset n
  cases n
  case branch =>
    rcases mem_cons.mp member with rfl | member
    · exact child (by simp [Node.children])
    · obtain ⟨c, among, rfl⟩ := mem_map.mp member
      exact child (Node.elif_mem_children _ _ _ _ _ among)
  case whileLoop => exact child (mem_append_left _
    (List.mem_singleton.mp member ▸ mem_cons_self ..))
  case forLoop loc header target iter code orelse isAsync =>
    rcases mem_cons.mp member with rfl | member
    · exact child (by simp [Node.children])
    · exact Node.nodes_subset (child (mem_cons_self ..)) (Node.targetParts_subset target member)
  case attempt =>
    obtain ⟨h, among, member⟩ := mem_flatMap.mp member
    exact child (Node.type_mem_children _ _ _ _ _ among member)
  case context => exact Node.contextParts_subset _ _ _ _ _ member
  all_goals exact Node.evaluatedParts_subset _ member

theorem headParts_subset (n : Node) : n.headParts ⊆ n.nodes :=
  List.Subset.trans (headParts_subset_ownParts n) (ownParts_subset n)

theorem kills_outright {α : Type} (xs : List α) (f : α → Definition)
    (outright : ∀ x, (f x).kind.kills = true) :
    ((xs.map f).map Action.define).flatMap Action.kills = xs.map fun x => (f x).name := by
  induction xs with
  | nil => rfl
  | cons x rest ih =>
    have own : (Action.define (f x)).kills = [(f x).name] := if_pos (outright x)
    rw [map_cons, map_cons, flatMap_cons, own, ih, map_cons]
    rfl

theorem kills_mild {ds : List Definition} (mild : ∀ d ∈ ds, d.kind.kills = false) :
    (ds.map Action.define).flatMap Action.kills = [] := by
  rw [flatMap_map]
  exact flatMap_eq_nil_iff.mpr fun d member => if_neg (Bool.eq_false_iff.mp (mild d member))

theorem kills_mutation (loc : Location) (e : Node) :
    ((mutationOf loc e).toList.map Action.define).flatMap Action.kills = [] := by
  refine kills_mild fun d found => ?_
  obtain ⟨root, _, rfl⟩ := Option.map_eq_some_iff.mp (Option.mem_toList.mp found)
  rfl

mutual

theorem kills_targetActions (kind : DefinitionKind) (target : Node) :
    (targetActions kind target).flatMap Action.kills = if kind.kills then target.targetIds
    else [] := by
  have others : ∀ {ks : List String}, ks = [] → ks = if kind.kills then [] else [] :=
    fun none => by rw [none, ite_self]
  cases target
  case name => exact append_nil _
  case tuple loc items => exact kills_targetsActions kind items
  case list loc items => exact kills_targetsActions kind items
  case starred loc value => exact kills_targetActions kind value
  case member => exact others (kills_mutation _ _)
  case subscript => exact others (kills_mutation _ _)
  all_goals exact others rfl

theorem kills_targetsActions (kind : DefinitionKind) (targets : List Node) :
    (targetsActions kind targets).flatMap Action.kills =
      if kind.kills then (Node.targetNamesList targets).map Occurrence.id else [] := by
  cases targets with
  | nil => exact (ite_self _).symm
  | cons t rest =>
    rw [targetsActions, flatMap_append, kills_targetActions kind t, kills_targetsActions kind rest]
    split
    · rw [Node.targetNamesList, map_append]
      rfl
    · rfl

end

theorem kills_deletionActions (target : Node) : (deletionActions target).flatMap Action.kills =
    target.targetIds := by
  unfold deletionActions Node.targetIds
  cases found : target.targetNames with
  | nil => exact kills_targetActions .mutation target
  | cons o rest =>
    rw [flatMap_assoc]
    exact map_eq_flatMap.symm

/-- A statement without blocks binds its names outright. -/
theorem kills_flatActions (env : Env) (n : Node) :
    (flatActions env n).flatMap Action.kills = n.boundNames := by
  have class_ : ∀ loc name decorators bases keywords body,
      (classActions loc name decorators bases keywords body).flatMap Action.kills = [name] := by
    intro loc name decorators bases keywords body
    have uses : ∀ us : List Use, (us.map Action.use).flatMap Action.kills = [] := fun us => by
      rw [flatMap_map]
      exact flatMap_eq_nil_iff.mpr fun _ _ => rfl
    rw [classActions, flatMap_cons, flatMap_append, uses]
    rfl
  cases n
  case imports loc names => exact kills_outright names _ fun _ => rfl
  case importsFrom loc base level names =>
    show ((importDefinitions loc base level names).map Action.define).flatMap Action.kills = _
    unfold importDefinitions Node.boundNames
    dsimp only
    split
    · rfl
    · exact kills_outright names _ fun _ => rfl
  case global => exact kills_mild (forall_mem_map.mpr fun _ _ => rfl)
  case nonlocal => exact kills_mild (forall_mem_map.mpr fun _ _ => rfl)
  case assign loc targets value op hint isExpression =>
    cases value with
    | none => rfl
    | some value =>
      refine (kills_targetsActions .assignment targets).trans ?_
      rw [Node.targetNamesList_eq_flatMap, map_flatMap]
      rfl
  case delete loc targets =>
    show (targets.flatMap deletionActions).flatMap Action.kills = targets.flatMap _
    rw [flatMap_assoc]
    exact flatMap_congr fun t _ => kills_deletionActions t
  case classDef => exact class_ _ _ [] _ _ _
  case decorated loc decorators definition =>
    cases definition
    case classDef => exact class_ _ _ decorators _ _ _
    all_goals rfl
  all_goals rfl

theorem kills_contextActions (items : List (WithItem Node)) :
    (contextActions items).flatMap Action.kills = Node.contextIds items := by
  rw [contextActions, flatMap_assoc, Node.contextIds]
  exact flatMap_congr fun item _ => kills_targetsActions .withTarget _

theorem kills_catchActions (header : Location) (type : Option Node) (name : Option String) :
    (catchActions header type name).flatMap Action.kills = name.toList :=
  (kills_outright name.toList _ fun _ => rfl).trans (map_id' _)

theorem binds_defines {named : String → Prop} {ds : List Definition}
    (all : ∀ d ∈ ds, named d.name) : ∀ a ∈ ds.map Action.define, a.Binds named :=
  forall_mem_map.mpr all

theorem binds_mutation (loc : Location) (e : Node) :
    ∀ a ∈ (mutationOf loc e).toList.map Action.define, a.Binds (· ∈ e.identifiers) := by
  refine binds_defines fun d found => ?_
  obtain ⟨root, rootFound, rfl⟩ := Option.map_eq_some_iff.mp (Option.mem_toList.mp found)
  exact Node.rootName_mem_identifiers rootFound

mutual

theorem binds_targetActions (kind : DefinitionKind) (target : Node) :
    ∀ a ∈ targetActions kind target, a.Binds (· ∈ target.identifiers) := by
  cases target
  case name loc id =>
    exact forall_mem_singleton.mpr (Node.mem_identifiers_own rfl (mem_singleton_self id))
  case tuple loc items =>
    exact binds_targetsActions kind items
      fun _ member => Node.identifiers_subset_of_child member
  case list loc items =>
    exact binds_targetsActions kind items
      fun _ member => Node.identifiers_subset_of_child member
  case starred loc value =>
    exact fun a member => (binds_targetActions kind value a member).mono
      (Node.identifiers_subset_of_child (n := .starred loc value) (mem_singleton_self value))
  case member => exact forall_mem_cons.mpr ⟨trivial, binds_mutation _ _⟩
  case subscript => exact forall_mem_cons.mpr ⟨trivial, binds_mutation _ _⟩
  all_goals exact forall_mem_singleton.mpr trivial

theorem binds_targetsActions (kind : DefinitionKind) (targets : List Node) {n : Node}
    (inside : ∀ t ∈ targets, t.identifiers ⊆ n.identifiers) :
    ∀ a ∈ targetsActions kind targets, a.Binds (· ∈ n.identifiers) := by
  cases targets with
  | nil => exact forall_mem_nil _
  | cons t rest =>
    obtain ⟨own, others⟩ := forall_mem_cons.mp inside
    rw [targetsActions, forall_mem_append]
    exact ⟨fun a member => (binds_targetActions kind t a member).mono own,
      binds_targetsActions kind rest others⟩

end

/-- Compound statements evaluate and bind names that stand in them. -/
theorem binds_headActions (n : Node) : ∀ a ∈ n.headActions, a.Binds (· ∈ n.identifiers) := by
  cases n
  case branch => exact forall_mem_cons.mpr ⟨trivial, forall_mem_map.mpr fun _ _ => trivial⟩
  case whileLoop => exact forall_mem_singleton.mpr trivial
  case forLoop loc header target iter code orelse isAsync =>
    refine forall_mem_cons.mpr ⟨trivial,
      fun a member => (binds_targetActions _ target a member).mono ?_⟩
    exact Node.identifiers_subset_of_child (n :=
      .forLoop loc header target iter code orelse isAsync) (mem_cons_self ..)
  case attempt =>
    intro a member
    obtain ⟨h, among, member⟩ := mem_flatMap.mp member
    refine forall_mem_cons.mpr ⟨trivial, binds_defines fun d bound => ?_⟩ a member
    obtain ⟨own, named, rfl⟩ := mem_map.mp bound
    exact Node.mem_identifiers_own rfl (mem_filterMap.mpr ⟨h, among, Option.mem_toList.mp named⟩)
  case context loc header items code isAsync =>
    intro a member
    obtain ⟨item, among, member⟩ := mem_flatMap.mp member
    refine forall_mem_cons.mpr ⟨trivial, binds_targetsActions _ _ fun t own => ?_⟩ a member
    refine Node.identifiers_subset_of_child (mem_append_left _ ?_)
    exact mem_flatMap.mpr ⟨item, among, mem_cons_of_mem _ own⟩
  all_goals exact forall_mem_nil _

/-- Names that are declared as those of a scope around stand in the text. -/
theorem declaredOutside_subset {n : Node} {code : List Node} (inside : code ⊆ n.children)
    {name : String} (declared : name ∈ declaredOutside code) : name ∈ n.identifiers := by
  rw [declaredOutside, ExtTreeSet.mem_ofList, contains_iff_mem] at declared
  obtain ⟨m, among, own⟩ := mem_flatMap.mp declared
  obtain ⟨c, child, among⟩ := Node.mem_nodes_of_blockStatements among
  refine Node.identifiers_subset_of_child (inside child) (Node.identifiers_subset among ?_)
  cases m
  case global => exact Node.mem_identifiers_own rfl own
  case nonlocal => exact Node.mem_identifiers_own rfl own
  all_goals exact absurd own not_mem_nil

section Done

variable {env : Env} {n : Node}

theorem done_functionActions {loc header : Location} {name : String} {params : List (Param Node)}
    {returns : Option Node} {code : List Node} {isAsync : Bool}
    (defines : n.kind.isDefinition = true)
    (inside :
      (Node.function loc name header params returns code isAsync).identifiers ⊆ n.identifiers)
    (decorators : List Node) (body : Result) :
    ∀ a ∈ functionActions loc name decorators params returns code body, a.Done env n := by
  refine forall_mem_cons.mpr ⟨trivial,
    forall_mem_cons.mpr ⟨⟨defines, fun other written => inside ?_⟩,
      forall_mem_singleton.mpr (Or.inl (inside (Node.mem_identifiers_own rfl (mem_cons_self ..))))⟩⟩
  rw [Result.writesOutside, ExtTreeSet.mem_ofList, contains_iff_mem] at written
  exact declaredOutside_subset (subset_append_right _ _)
    (ExtTreeSet.contains_iff_mem.mp (mem_filter.mp written).2)

theorem done_classActions {loc header : Location} {name : String} {bases : List Node}
    {keywords : List (Keyword Node)} {code : List Node} (defines : n.kind.isDefinition = true)
    (inside : (Node.classDef loc name header bases keywords code).identifiers ⊆ n.identifiers)
    (decorators : List Node) :
    ∀ a ∈ classActions loc name decorators bases keywords (classBody env n.bodies),
    a.Done env n := by
  refine forall_mem_cons.mpr ⟨trivial,
    forall_mem_append.mpr ⟨forall_mem_map.mpr fun u used => Or.inr used, ?_⟩⟩
  refine forall_mem_cons.mpr ⟨⟨defines, fun _ none => absurd none ExtTreeSet.not_mem_empty⟩, ?_⟩
  exact forall_mem_singleton.mpr (Or.inl (inside (Node.mem_identifiers_own rfl (mem_cons_self ..))))

theorem done_deletionActions {target : Node} (inside : target.identifiers ⊆ n.identifiers) :
    ∀ a ∈ deletionActions target, a.Done env n := by
  have ids : ∀ o ∈ target.targetNames, o.id ∈ n.identifiers := fun o among =>
    inside (Node.targetIds_subset target (mem_map_of_mem among))
  unfold deletionActions
  cases found : target.targetNames with
  | nil => exact fun a member => ((binds_targetActions _ target a member).mono inside).done env
  | cons o rest =>
    intro a member
    obtain ⟨o, among, member⟩ := mem_flatMap.mp member
    have own := ids o (found ▸ among)
    simp only [mem_cons, not_mem_nil, or_false] at member
    rcases member with rfl | rfl <;> exact Or.inl own

/-- A statement without blocks does nothing else. -/
theorem done_flatActions (env : Env) (n : Node) : ∀ a ∈ flatActions env n, a.Done env n := by
  have defines : ∀ {ds : List Definition},
      (∀ d ∈ ds, d.name ∈ n.identifiers) → ∀ a ∈ ds.map Action.define, a.Done env n :=
    fun all a member => (binds_defines all a member).done env
  have targets : ∀ {kind : DefinitionKind} {ts : List Node}, ts ⊆
      n.children → ∀ a ∈ targetsActions kind ts, a.Done env n :=
    fun inside a member => (binds_targetsActions _ _ (fun _ own => Node.identifiers_subset_of_child
        (inside own)) a member).done env
  cases n
  case imports =>
    refine defines (forall_mem_map.mpr fun a among => ?_)
    exact Node.mem_identifiers_own rfl (mem_map_of_mem among)
  case importsFrom loc base level aliases =>
    refine forall_mem_map.mpr fun d member => ?_
    unfold importDefinitions at member
    dsimp only at member
    split at member
    · rename_i star
      obtain rfl := List.mem_singleton.mp member
      exact Or.inr ⟨star, rfl⟩
    · rename_i plain
      obtain ⟨a, among, rfl⟩ := mem_map.mp member
      exact Or.inl (Node.mem_identifiers_own (Bool.eq_false_iff.mpr plain) (mem_map_of_mem among))
  case global | nonlocal => exact defines (forall_mem_map.mpr
      fun name own => Node.mem_identifiers_own rfl own)
  case assign loc ts value op hint isExpression =>
    refine forall_mem_cons.mpr ⟨trivial, ?_⟩
    split
    · exact forall_mem_nil _
    · exact targets fun t own => mem_append_left _ (mem_append_left _ own)
  case delete loc ts =>
    intro a member
    obtain ⟨t, among, member⟩ := mem_flatMap.mp member
    exact done_deletionActions
      (Node.identifiers_subset_of_child (n := .delete loc ts) among) a member
  case function => exact done_functionActions rfl (List.Subset.refl _) [] _
  case classDef => exact done_classActions rfl (List.Subset.refl _) []
  case decorated loc decorators definition =>
    have inside : definition.identifiers ⊆ (Node.decorated loc decorators definition).identifiers :=
      Node.identifiers_subset_of_child (mem_append_right _ (mem_singleton_self _))
    cases definition
    case function => exact done_functionActions rfl inside decorators _
    case classDef => exact done_classActions rfl inside decorators
    all_goals exact forall_mem_nil _
  case assertion | returning | raising | expression => exact forall_mem_singleton.mpr trivial
  case «break» | «continue» => exact forall_mem_singleton.mpr rfl
  all_goals exact forall_mem_nil _

end Done

end Flow

end Lineage
