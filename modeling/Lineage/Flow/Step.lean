import Lineage.Flow.Progress

/-!
What each kind of statement does to an analysis, given what its blocks do. Statements without blocks
are done outright; functions and classes are given the result of analysing their bodies, and a loop
is given its body as a step to repeat.
-/

namespace Lineage.Flow

/-- The path of an imported name. -/
def importPath (base : String) (level : Int) : String :=
  String.ofList (List.replicate level.toNat '.') ++ base

/-- What an import from a module binds. -/
def importDefinitions (loc : Location) (base : String) (level : Int) (names : List Alias) :
    List Definition :=
  let source := importPath base level
  if Alias.isStar names then [⟨allNames, source, .starImport, loc⟩]
  else names.map fun a => ⟨a.boundName, source ++ "." ++ a.path, .imported, loc⟩

namespace Progress

/-- A statement without blocks. -/
def simple (env : Env) (i : Nat) : Node → Progress → Progress
  | .imports loc names, p => p.defineAll i
      (names.map fun a => ⟨a.boundName, a.path, .imported, loc⟩)
  | .importsFrom loc base level names, p => p.defineAll i (importDefinitions loc base level names)
  | .assign _ targets value op hint _, p =>
    let updated := if op.isSome then targets else []
    let p := p.evaluate env i (value.toList ++ hint.toList ++ updated)
    if value.isNone then p else p.bindList env i .assignment targets
  | .assertion _ condition message, p => p.evaluate env i (condition :: message.toList)
  | .returning _ value, p => p.evaluate env i value.toList
  | .raising _ exception cause, p => p.evaluate env i (exception.toList ++ cause.toList)
  | .expression _ value, p => p.evaluate env i [value]
  | .break _, p => { p with breaks := p.breaks ++ [p.state] }
  | .continue _, p => { p with continues := p.continues ++ [p.state] }
  | .global loc names, p => p.defineAll i (names.map fun name => ⟨name, name, .globalAlias, loc⟩)
  | .nonlocal loc names, p => p.defineAll i (names.map fun name => ⟨name, name, .globalAlias, loc⟩)
  | .delete _ targets, p => targets.foldl (fun p target => p.delete env i target) p
  | .verbatim .., p => p.revise i fun f => { f with dynamic := true }
  | _, p => p

/-- Leaves a statement that was entered in a state. One that runs unknown code uses every name, and
if it has neither blocks nor a body, all that is known of what it binds is that it may bind
anything. -/
def leave (i : Nat) (n : Node) (entry : State) (p : Progress) : Progress :=
  if (p.facts[i]?.map StatementFacts.dynamic).getD false then
    let p := p.revise i fun f => f.useEverything p.facts entry
    if n.kind.isCompound || n.kind.isDefinition then p
    else
      let p := p.revise i fun f => { f with definitions := [] }
      { p with state := entry }.define i ⟨allNames, allNames, .unknown, n.loc⟩
  else p

end Progress

/-- The expressions in a parameter: its default, then its hint. -/
def paramReads (p : Param Node) : List Node :=
  p.default.toList ++ p.hint.toList

/-- The names that the statements of a body declare to belong to a scope around it. -/
def declaredOutside (code : List Node) : NameSet :=
  Std.ExtTreeSet.ofList ((Node.blockStatements code).flatMap fun
    | .global _ names => names
    | .nonlocal _ names => names
    | _ => [])

namespace Result

/-- The names that a body binds outright. -/
def bound (body : Result) : List String :=
  body.statements.toList.flatMap fun f =>
    (f.definitions.filter fun d => d.kind.kills).map Definition.name

/-- The names that a function with this body assigns outside itself. -/
def writesOutside (body : Result) (declared : NameSet) : NameSet :=
  Std.ExtTreeSet.ofList (body.bound.filter declared.contains)

/-- The names that a function with this body binds for itself. -/
def locals (body : Result) (params : List String) (declared : NameSet) : NameSet :=
  Std.ExtTreeSet.ofList (params ++ body.bound.filter fun name => !declared.contains name)

/-- The names that a function with this body reads from outside when it is called, those of the
functions inside it included. -/
def freeNames (body : Result) (locals : NameSet) : NameSet :=
  body.statements.toList.foldl
    (fun free f => free ∪ f.external ∪ f.free.filter fun name => !locals.contains name) ∅

/-- What a class with this body uses: its body runs where the class stands. -/
def classUses (body : Result) : List Use :=
  body.statements.toList.flatMap fun f =>
    f.external.toList.map fun name => ⟨name, name, .direct, f.location⟩

/-- The names that the functions in this body read when they are called. -/
def innerFree (body : Result) : NameSet :=
  body.statements.toList.foldl (fun free f => free ∪ f.free) ∅

end Result

namespace Progress

/-- A result from a finished analysis. -/
def result (p : Progress) : Result :=
  ⟨p.facts, p.state⟩

/-- The definition of a function. -/
def function (env : Env) (i : Nat) (loc : Location) (name : String) (params : List (Param Node))
    (returns : Option Node) (code : List Node) (body : Result) (p : Progress) : Progress :=
  let p := p.evaluate env i (params.flatMap paramReads ++ returns.toList)
  let declared := declaredOutside code
  let free := body.freeNames (body.locals (paramNames params) declared)
  let p := p.revise i fun f =>
    { f with free := f.free ∪ free, globalWrites := f.globalWrites ∪ body.writesOutside declared }
  p.define i ⟨name, name, .function, loc⟩

/-- The definition of a class. -/
def classDef (env : Env) (i : Nat) (loc : Location) (name : String) (bases : List Node)
    (keywords : List (Keyword Node)) (body : Result) (p : Progress) : Progress :=
  let p := p.evaluate env i (bases ++ keywords.map Keyword.value)
  let p := body.classUses.foldl (fun p u => p.use i u) p
  let p := p.revise i fun f => { f with free := f.free ∪ body.innerFree }
  p.define i ⟨name, name, .classDef, loc⟩

/-- The decorators of a definition are evaluated in front of it. -/
def decorate (env : Env) (i : Nat) (decorators : List Node) (p : Progress) : Progress :=
  p.readAll env i (decorators.filterMap fun
    | .decorator _ e => some e
    | _ => none)

/-- The contexts of a `with` statement are entered one after the other. -/
def enterContexts (env : Env) (i : Nat) (items : List (WithItem Node)) (p : Progress) : Progress :=
  items.foldl
    (fun p item =>
      (p.evaluate env i [item.context]).bindList env i .withTarget item.target.toList) p

/-- The head of an `except` clause. -/
def catchError (env : Env) (i : Nat) (header : Location) (type : Option Node) (name : Option String)
    (p : Progress) : Progress :=
  (p.evaluate env i type.toList).defineAll i
    (name.toList.map fun name => ⟨name, name, .exceptTarget, header⟩)

/-- Goes on from another state. -/
def resume (p : Progress) (s : State) : Progress :=
  { p with state := s }

/-- Repeats a loop's body until the state at its head takes in what comes back from the body's end
and from every `continue`. Every pass but the last enlarges the head. -/
def settle (body : Progress → Progress) : (passes : Nat) → (head : State) → Progress →
    State × Progress
  | 0, head, p => (head, p)
  | passes + 1, head, p =>
    let q := body (p.resume head)
    let merged := State.join (head :: q.state :: q.continues)
    if merged.same head then (head, q) else settle body passes merged q

/-- A loop with a body, to which binding the target or testing the condition belongs, and an `else`
clause. It ends with the clause or in a `break`. -/
def loop (env : Env) (i : Nat) (body orelse : Progress → Progress) (p : Progress) : Progress :=
  let kept := if env.keepHeads then p.heads[i]? else none
  let head := (kept.map fun kept => State.merge kept p.state).getD p.state
  let (head, q) := settle body env.passes head { p with breaks := [], continues := [] }
  let r := orelse
    { q with state := head, heads := q.heads.insert i head, breaks := p.breaks, continues :=
      p.continues }
  r.resume (State.join (r.state :: q.breaks))

end Progress

end Lineage.Flow
