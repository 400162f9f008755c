import Lineage.Flow.Facts
import Lineage.Names.Reads

/-!
An analysis under way: the facts found so far and the state at the point it has reached. The
operations here are what one statement does at that point. It evaluates expressions, which uses
names, and then binds names. What the calls in an expression may change is bound only when the
expression has been evaluated, so no statement depends on itself.
-/

namespace Lineage.Flow

/-- The names that the functions bound to a name assign outside themselves when they are called. -/
abbrev GlobalWrites := Std.ExtTreeMap String NameSet

/-- What an analysis is given: what calls do, what functions from before the block assign, how many
passes a loop may take, and whether a loop that is reached again starts from where it settled
before. -/
structure Env where
  settings : Settings
  writes : GlobalWrites
  passes : Nat
  keepHeads : Bool

/-- Whether the table knows a callee to be pure. -/
def Env.isPure (env : Env) (callee : Node) : Bool :=
  env.settings.effects.isPure callee.dottedPath callee.memberName

/-- How far an analysis has come. `heads` holds the states on which loops settled, by the index of
the loop; `breaks` and `continues` the states at the jumps of the loop around the point that is
reached; `pending` what the expressions evaluated so far will bind. -/
structure Progress where
  facts : Array StatementFacts
  state : State
  heads : Std.ExtTreeMap Nat State
  breaks : List State
  continues : List State
  pending : List Definition

/-- The state after a statement has bound a name. -/
def State.define (s : State) (index : Nat) (d : Definition) : State :=
  if d.kind.kills then s.insert d.name {Origin.statement index}
  else s.insert d.name ((s.reaching d.name).insert (.statement index))

namespace Progress

/-- An analysis that is about to begin. -/
def start (s : State) : Progress :=
  ⟨#[], s, ∅, [], [], []⟩

/-- Changes the facts of a statement. -/
def revise (p : Progress) (i : Nat) (f : StatementFacts → StatementFacts) : Progress :=
  { p with facts := p.facts.modify i f }

/-- The names that calling a function that comes from an origin assigns. -/
def writesFrom (env : Env) (p : Progress) (name : String) : Origin → NameSet
  | .parameter => ∅
  | .entry => env.writes.getD name ∅
  | .statement k => (p.facts[k]?.map StatementFacts.globalWrites).getD ∅

/-- The names that calling what a name holds assigns. -/
def writesOf (env : Env) (p : Progress) (name : String) : NameSet :=
  (p.state.reaching name).toList.foldl
    (fun written origin => written ∪ p.writesFrom env name origin) ∅

/-- The names assigned by the functions that a callee may be. -/
def calleeWrites (env : Env) (p : Progress) : Node → List String
  | .name _ id => (p.writesOf env id).toList
  | _ => []

/-- Reaches a statement: it is met for the first time, or again in another pass over a loop. -/
def enter (p : Progress) (parent : Option Nat) (i : Nat) (n : Node) : Progress :=
  if i < p.facts.size then p.revise i fun f => { f with entry := f.entry.merge p.state }
  else
    let f := StatementFacts.fresh i n parent p.state
    let f := match parent.bind fun k => p.facts[k]? with
      | none => f
      | some source => f.dependOn .control source none
    { p with facts := p.facts.push f }

/-- Uses a name. -/
def use (p : Progress) (i : Nat) (u : Use) : Progress :=
  p.revise i fun f => f.use p.facts p.state u

/-- Binds a name. -/
def define (p : Progress) (i : Nat) (d : Definition) : Progress :=
  { p.revise i fun f => f.define d with state := p.state.define i d }

/-- Binds several names in order. -/
def defineAll (p : Progress) (i : Nat) (ds : List Definition) : Progress :=
  ds.foldl (fun p d => p.define i d) p

/-- Binds what the expressions evaluated so far bind. -/
def flush (p : Progress) (i : Nat) : Progress :=
  { p with pending := [] }.defineAll i p.pending

end Progress

/-- Whether evaluating a node by itself runs code that is not known. -/
def Settings.runsUnknown (s : Settings) : Node → Bool
  | .call _ (.name _ id) _ _ => s.dynamicNames.contains id
  | .verbatim .. => true
  | _ => false

/-- The object whose method a callee is. -/
def receivers : Node → List Node
  | .member _ value _ => [value]
  | _ => []

/-- A change of the object at the root of an expression. -/
def mutationOf (loc : Location) (e : Node) : Option Definition :=
  e.rootName.map fun root => ⟨root, e.targetPath, .mutation, loc⟩

namespace Progress

/-- What a call may change: what the function assigns, and the objects handed to it unless it is
known to leave them alone. -/
def callDefinitions (env : Env) (p : Progress) : Node → List Definition
  | .call loc func args keywords =>
    (p.calleeWrites env func).map (fun name => ⟨name, name, .mutation, loc⟩) ++
      if env.isPure func then []
      else (receivers func ++ args ++ keywords.map Keyword.value).filterMap (mutationOf loc)
  | _ => []

/-- What evaluating an expression binds in the end: what its calls change, then what its assignment
expressions assign. -/
def evaluationDefinitions (env : Env) (p : Progress) (e : Node) : List Definition :=
  e.evaluated.flatMap (p.callDefinitions env) ++
    e.bindings.map fun o => ⟨o.id, o.id, .assignment, o.loc⟩

/-- A read of a name as a use. -/
def useOfRead (r : Read) : Use :=
  ⟨r.id, r.path, if r.touched then .unknownEffect else .direct, r.loc⟩

/-- Evaluates an expression. -/
def read (env : Env) (i : Nat) (e : Node) (p : Progress) : Progress :=
  let q := if e.evaluated.any env.settings.runsUnknown then p.revise i
    fun f => { f with dynamic := true } else p
  let q := ((e.reads env.isPure .bare).map useOfRead).foldl (fun q u => q.use i u) q
  { q with pending := q.pending ++ p.evaluationDefinitions env e }

/-- Evaluates expressions in order. -/
def readAll (env : Env) (i : Nat) (es : List Node) (p : Progress) : Progress :=
  es.foldl (fun p e => p.read env i e) p

/-- Evaluates expressions in order, then binds what they bind. -/
def evaluate (env : Env) (i : Nat) (es : List Node) (p : Progress) : Progress :=
  (p.readAll env i es).flush i

/-- Changes the object at the root of a target. -/
def mutate (i : Nat) (target : Node) (p : Progress) : Progress :=
  p.defineAll i (mutationOf target.loc target).toList

mutual

/-- Assigns to a target. An attribute or an item is no name: the object it belongs to is evaluated
and then changes. -/
def bind (env : Env) (i : Nat) (kind : DefinitionKind) : Node → Progress → Progress
  | .name loc id, p => p.define i ⟨id, id, kind, loc⟩
  | .tuple _ items, p => bindList env i kind items p
  | .list _ items, p => bindList env i kind items p
  | .starred _ value, p => bind env i kind value p
  | .member loc value attr, p => (p.evaluate env i [value]).mutate i (.member loc value attr)
  | .subscript loc value index, p => (p.evaluate env i [value, index]).mutate i
      (.subscript loc value index)
  | other, p => p.evaluate env i [other]

/-- Assigns to several targets in order. -/
def bindList (env : Env) (i : Nat) (kind : DefinitionKind) : List Node → Progress → Progress
  | [], p => p
  | n :: rest, p => bindList env i kind rest (bind env i kind n p)

end

/-- Deletes a target: a name is used and then has no value from before; anything else changes an
object. -/
def delete (env : Env) (i : Nat) (target : Node) (p : Progress) : Progress :=
  match target.targetNames with
  | [] => p.bind env i .mutation target
  | names =>
    names.foldl
      (fun p o => (p.use i ⟨o.id, o.id, .direct, o.loc⟩).define i ⟨o.id, o.id, .deletion, o.loc⟩) p

end Progress

end Lineage.Flow
