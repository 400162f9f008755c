import Lineage.Flow.Step

/-!
Which definitions of names may reach each statement of a block. The statements are visited in the
order of the source, each with its index among all statements of the block; the branches of a
statement are visited from the same state and their ends are joined. The bodies of functions and
classes are blocks of their own.
-/

namespace Lineage

namespace Node

/-- The names that a node itself mentions. -/
def ownNames : Node → List String
  | .imports _ names => names.map Alias.boundName
  | .importsFrom _ _ _ names => names.map Alias.boundName
  | .function _ own _ params _ _ _ => own :: paramNames params
  | .classDef _ own .. => [own]
  | .global _ names => names
  | .nonlocal _ names => names
  | .attempt _ _ _ handlers _ _ => handlers.filterMap Handler.name
  | .lambda _ params _ => paramNames params
  | .name _ id => [id]
  | _ => []

/-- The names that the nodes of a tree mention. -/
def mentioned (n : Node) : List String :=
  n.nodes.flatMap ownNames

/-- The number of statements that come with a statement: itself and those in its blocks. -/
def extent (n : Node) : Nat :=
  n.statements.length + 1

end Node

namespace Flow

/-- The number of statements of a block, those in the blocks of its statements included. -/
def blockExtent (code : List Node) : Nat :=
  (Node.blockStatements code).length

/-- The names that may get a value in a block whose parameters are given. -/
def vocabulary (writes : GlobalWrites) (params : List String) (code : List Node) : NameSet :=
  Std.ExtTreeSet.ofList
    (allNames :: params ++ code.flatMap Node.mentioned ++
      writes.toList.flatMap fun (_, names) => names.toList)

/-- The most passes that a loop of a block takes: each but the last gives some name one origin
more. -/
def passLimit (writes : GlobalWrites) (params : List String) (code : List Node) : Nat :=
  (vocabulary writes params code).size * (blockExtent code + 2) + 1

/-- The same environment for the analysis of another block. -/
def Env.forBlock (env : Env) (params : List String) (code : List Node) : Env :=
  { env with passes := passLimit env.writes params code }

/-- The state in which the body of a function starts. -/
def parameterState (params : List String) : State :=
  params.foldl (fun s name => s.insert name {Origin.parameter}) ∅

mutual

/-- Visits a statement with an index, in a block of the statement `parent`. -/
def visit (env : Env) (parent : Option Nat) (i : Nat) : Node → Progress → Progress
  | n@(.branch _ _ test code elifs orelse), p =>
    let q := (p.enter parent i n).evaluate env i [test]
    let r := visitBlock env (some i) (i + 1) code q
    let next := i + 1 + blockExtent code
    let (s, exits) := visitElifs env i next elifs (r.resume q.state) [r.state]
    let next := next + (Node.elifStatements elifs).length
    let t := visitClause env i next orelse s
    (t.resume (State.join (exits ++ [t.state]))).leave i n p.state
  | n@(.whileLoop _ _ test code orelse), p =>
    let q := (p.enter parent i n).evaluate env i [test]
    let body := fun q => visitBlock env (some i) (i + 1) code (q.evaluate env i [test])
    let final := fun q => visitClause env i (i + 1 + blockExtent code) orelse q
    (q.loop env i body final).leave i n p.state
  | n@(.forLoop _ _ target iter code orelse _), p =>
    let q := (p.enter parent i n).evaluate env i [iter]
    let body := fun q => visitBlock env (some i) (i + 1) code (q.bind env i .loopTarget target)
    let final := fun q => visitClause env i (i + 1 + blockExtent code) orelse q
    (q.loop env i body final).leave i n p.state
  | n@(.attempt _ _ code handlers orelse final), p =>
    let q := p.enter parent i n
    let (r, between) := visitEach env (some i) (i + 1) code q [q.state]
    let raised := State.join between
    let next := i + 1 + blockExtent code
    let (s, exits) := visitHandlers env i next raised handlers r []
    let next := next + (Node.handlerStatements handlers).length
    let t := visitClause env i next orelse (s.resume r.state)
    let next := next + (Node.clauseStatements orelse).length
    let merged := State.join (t.state :: exits)
    let t := t.resume (if final.isSome then merged.merge raised else merged)
    (visitClause env i next final t).leave i n p.state
  | n@(.context _ _ items code _), p =>
    let q := (p.enter parent i n).enterContexts env i items
    (visitBlock env (some i) (i + 1) code q).leave i n p.state
  | n@(.function loc name _ params returns code _), p =>
    let names := paramNames params
    let body := visitBlock (env.forBlock names code) none 0 code (.start (parameterState names))
    ((p.enter parent i n).function env i loc name params returns code body.result).leave i n p.state
  | n@(.classDef loc name _ bases keywords code), p =>
    let body := visitBlock (env.forBlock [] code) none 0 code (.start ∅)
    ((p.enter parent i n).classDef env i loc name bases keywords body.result).leave i n p.state
  | n@(.decorated _ decorators (.function loc name _ params returns code _)), p =>
    let names := paramNames params
    let body := visitBlock (env.forBlock names code) none 0 code (.start (parameterState names))
    let q := (p.enter parent i n).decorate env i decorators
    (q.function env i loc name params returns code body.result).leave i n p.state
  | n@(.decorated _ decorators (.classDef loc name _ bases keywords code)), p =>
    let body := visitBlock (env.forBlock [] code) none 0 code (.start ∅)
    let q := (p.enter parent i n).decorate env i decorators
    (q.classDef env i loc name bases keywords body.result).leave i n p.state
  | n, p => ((p.enter parent i n).simple env i n).leave i n p.state

/-- Visits the statements of a block. -/
def visitBlock (env : Env) (parent : Option Nat) (i : Nat) : List Node → Progress → Progress
  | [], p => p
  | n :: rest, p => visitBlock env parent (i + n.extent) rest (visit env parent i n p)

/-- Visits the statements of a block and adds the state behind each of them. -/
def visitEach (env : Env) (parent : Option Nat) (i : Nat) :
    List Node → Progress → List State → Progress × List State
  | [], p, between => (p, between)
  | n :: rest, p, between =>
    let q := visit env parent i n p
    visitEach env parent (i + n.extent) rest q (between ++ [q.state])

/-- Visits an optional clause of a statement. -/
def visitClause (env : Env) (parent i : Nat) : Option (Clause Node) → Progress → Progress
  | none, p => p
  | some ⟨_, body⟩, p => visitBlock env (some parent) i body p

/-- Visits `elif` clauses and adds the state at the end of each. Each test is evaluated where the
one before it was found false. -/
def visitElifs (env : Env) (parent i : Nat) :
    List (Elif Node) → Progress → List State → Progress × List State
  | [], p, exits => (p, exits)
  | ⟨_, test, body⟩ :: rest, p, exits =>
    let q := p.evaluate env parent [test]
    let r := visitBlock env (some parent) i body q
    visitElifs env parent (i + blockExtent body) rest (r.resume q.state) (exits ++ [r.state])

/-- Visits `except` clauses from the state in which the error was raised, and adds the state at the
end of each. -/
def visitHandlers (env : Env) (parent i : Nat) (raised : State) :
    List (Handler Node) → Progress → List State → Progress × List State
  | [], p, exits => (p, exits)
  | ⟨header, body, type, name⟩ :: rest, p, exits =>
    let q := visitBlock env (some parent) i body
      ((p.resume raised).catchError env parent header type name)
    visitHandlers env parent (i + blockExtent body) raised rest q (exits ++ [q.state])

end

/-- Analyses a block, of which the functions that its names are bound to before it are known to
assign the names in `writes`. -/
def analyzeBlock (settings : Settings) (writes : GlobalWrites) (code : List Node) : Result :=
  let env : Env := ⟨settings, writes, passLimit writes [] code, true⟩
  (visitBlock env none 0 code (.start ∅)).result

end Flow

/-- The statements of a tree: those of a module, or the tree itself. -/
def Node.code : Node → List Node
  | .module _ code => code
  | n => [n]

end Lineage
