import Lineage.Log.Execution

/-!
The history of a session: executions in the order in which they happened. Ordinals increase
strictly, and what has been recorded is never changed. Three indices are kept beside the list of
executions: by ordinal, by the id of the cell, and by the names that executions may leave defined.
-/

namespace Lineage

/-- Why an execution was not recorded. -/
inductive LogError where
  | fault (fault : Fault)
  | notIncreasing (ordinal last : Int)
  | shape (error : Notebook.ShapeError)
deriving DecidableEq, Repr

/-- The history of executions. `plain` is what is done to the text of a cell before it is read. -/
structure Log where
  settings : Flow.Settings
  plain : String → String
  epoch : Epoch
  executions : List Execution
  byOrdinal : Std.ExtTreeMap Int Execution
  byId : Std.ExtTreeMap String (List Execution)
  byName : Std.ExtTreeMap String (List Int)

namespace Log

/-- A log without executions. -/
def empty (settings : Flow.Settings) (plain : String → String) (epoch : Epoch) : Log :=
  ⟨settings, plain, epoch, [], ∅, ∅, ∅⟩

/-- The number of executions. -/
def size (l : Log) : Nat :=
  l.executions.length

/-- The ordinal of the last execution, or zero. -/
def lastOrdinal (l : Log) : Int :=
  (l.executions.getLast?.map Execution.ordinal).getD 0

/-- The execution with an ordinal. -/
def at? (l : Log) (ordinal : Int) : Option Execution :=
  l.byOrdinal[ordinal]?

/-- Whether an execution is one of the log, and not only like one of it. -/
def contains (l : Log) (e : Execution) : Bool :=
  (l.at? e.ordinal).any e.same

/-- The executions of a cell, the oldest first. -/
def executionsOf (l : Log) (id : String) : List Execution :=
  l.byId.getD id []

/-- The last execution of a cell. -/
def latest? (l : Log) (id : String) : Option Execution :=
  (l.executionsOf id).getLast?

/-- The ordinals below a bound of the executions that may leave a name defined, in order. -/
def ordinalsBefore (l : Log) (name : String) (bound : Int) : List Int :=
  (l.byName.getD name []).takeWhile (· < bound)

/-- The ordinals below a bound of the executions that may have defined a name, the newest first. An
execution that may define any name is always among them. -/
def definersBefore (l : Log) (name : String) (bound : Int) : List Int :=
  let found := l.ordinalsBefore name bound
  let found := if name = Flow.allNames then found else found ++ l.ordinalsBefore Flow.allNames bound
  (Std.ExtTreeSet.ofList found : Std.ExtTreeSet Int).toList.reverse

/-- The names that executions with ordinals below a bound may leave defined. -/
def namesBefore (l : Log) (bound : Int) : List String :=
  (l.byName.toList.filter fun (name, ordinals) =>
    name != Flow.allNames && ordinals.head?.any (· < bound)).map Prod.fst

/-- The definitions that leave a name bound by an execution may stem from these origins, if it binds
the name at all. -/
def originsAt (l : Log) (name : String) (ordinal : Int) : Option Flow.Origins :=
  (l.at? ordinal).bind fun e => e.exit[name]?

/-- The names that the functions among some statements of an execution assign outside themselves. -/
def writesAt (l : Log) (ordinal : Int) (origins : Flow.Origins) : Flow.NameSet :=
  let statements := ((l.at? ordinal).map Execution.statements).getD []
  origins.toList.foldl
    (fun written origin => match origin with
      | .statement k => written ∪ (statements[k]?.map Flow.StatementFacts.globalWrites).getD ∅
      | _ => written) ∅

/-- The names assigned by any function that a name may be bound to, going back over the executions
that may have bound it until one has bound it for sure. -/
def writesBack (l : Log) (name : String) : List Int → Flow.NameSet
  | [] => ∅
  | ordinal :: older =>
    match l.originsAt name ordinal with
    | none => writesBack l name older
    | some origins =>
      let written := l.writesAt ordinal origins
      if origins.contains .entry then written ∪ writesBack l name older else written

/-- The names assigned by any function that a name may be bound to once every execution with an
ordinal below a bound has run. -/
def globalWritesBefore (l : Log) (name : String) (bound : Int) : Flow.NameSet :=
  l.writesBack name (l.definersBefore name bound)

/-- The names that a tree calls. -/
def calledNames (n : Node) : Flow.NameSet :=
  Std.ExtTreeSet.ofList (n.nodes.filterMap fun
    | .call _ (.name _ id) _ _ => some id
    | _ => none)

/-- What the functions that a tree calls by name are known to assign. -/
def calledWrites (l : Log) (n : Node) (ordinal : Int) : Flow.GlobalWrites :=
  (calledNames n).toList.foldl
    (fun writes name =>
      let written := l.globalWritesBefore name ordinal
      if written.isEmpty then writes else writes.insert name written) ∅

/-- Reads a source as the next one of the log. -/
def read (l : Log) (source : String) (ordinal : Int) : Except Fault (Except ParseError Parsed) :=
  match Node.parse source with
  | .error e => .ok (.error e)
  | .ok tree =>
    (Flow.analyze l.settings (l.calledWrites tree ordinal) tree).map fun facts => .ok ⟨tree, facts⟩

/-- The execution of a cell as it is to be recorded under an ordinal. -/
def execute (l : Log) (cell : Notebook.Cell) (ordinal : Int) : Except Fault Execution :=
  let source := l.plain cell.text
  (l.read source ordinal).map fun content =>
    { epoch := l.epoch
      id := cell.id
      ordinal := ordinal
      count := cell.count
      text := cell.text
      source := source
      content := content
      outputs := cell.outputs
      hasError := cell.hasError
      previous := (l.latest? cell.id).map Execution.ordinal }

/-- Adds an ordinal behind those of a name. -/
def addDefiner (byName : Std.ExtTreeMap String (List Int)) (ordinal : Int) (name : String) :
    Std.ExtTreeMap String (List Int) :=
  byName.insert name (byName.getD name [] ++ [ordinal])

/-- Adds an execution; its ordinal is to be greater than all others. -/
def append (l : Log) (e : Execution) : Except LogError Log :=
  if e.ordinal ≤ l.lastOrdinal then .error (.notIncreasing e.ordinal l.lastOrdinal)
  else
    .ok { l with
      executions := l.executions ++ [e]
      byOrdinal := l.byOrdinal.insert e.ordinal e
      byId := l.byId.insert e.id (l.executionsOf e.id ++ [e])
      byName := e.exit.keys.foldl (fun byName name => addDefiner byName e.ordinal name) l.byName }

/-- Records the run of a cell under a given ordinal. -/
def recordAt (l : Log) (cell : Notebook.Cell) (ordinal : Int) :
    Except LogError (Log × Execution) := do
  let e ← (l.execute cell ordinal).mapError LogError.fault
  return (← l.append e, e)

/-- Records the run of a cell under the next ordinal. -/
def record (l : Log) (cell : Notebook.Cell) : Except LogError (Log × Execution) :=
  l.recordAt cell (l.lastOrdinal + 1)

/-- Starts over. -/
def reset (l : Log) : Log :=
  empty l.settings l.plain l.epoch.next

end Log

end Lineage
