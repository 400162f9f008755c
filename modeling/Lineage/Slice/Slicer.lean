import Lineage.Slice.Basic
import Lineage.Slice.Completion
import Lineage.Slice.Tidy
import Lineage.Magic.Expand

/-!
Backward slices over a history: for an execution, the statements of it and of earlier executions
that are needed to get what it did.
-/

namespace Lineage

/-- How slices are made and shown. -/
structure SliceOptions where
  tidied : Bool
  headers : Bool
  expands : Bool
  atCall : Bool
deriving DecidableEq, Repr

namespace SliceOptions

/-- The options when nothing else is said. -/
def standard : SliceOptions := ⟨false, true, true, true⟩

/-- Sets an option by its name, if the value says yes or no. Names of no option are passed over. -/
def set (o : SliceOptions) (name : String) (v : Notebook.Value) : Option SliceOptions :=
  match name with
  | "blacken" => v.flag?.map fun b => { o with tidied := b }
  | "include_cell_headers" => v.flag?.map fun b => { o with headers := b }
  | "sanitize_magics" => v.flag?.map fun b => { o with expands := b }
  | "resolve_call_time_free_names" => v.flag?.map fun b => { o with atCall := b }
  | _ => some o

/-- What is done to the text of a cell before it is read. -/
def plain (o : SliceOptions) : String → String :=
  if o.expands then Magic.plainSource else id

/-- What is done to the text of a cell before it is shown. -/
def format (o : SliceOptions) : String → String :=
  if o.tidied then Slice.tidy else id

end SliceOptions

/-- An execution that is not one of the log. -/
structure ForeignExecution where
  execution : Execution

/-- The error in words. -/
def ForeignExecution.message (e : ForeignExecution) : String :=
  e.execution.shown ++ " does not belong to this slicer's log"

namespace Slice

/-- The ranges of lines that the needed statements contribute. -/
def rangesOf (s : Scene) (c : Closure) : Ranges :=
  c.included.toList.foldl
    (fun found t =>
      match s.log.at? t.ordinal, s.statement? t with
      | some e, some f => addRanges found e (f.spans.map fun (first, last) => ⟨first, last⟩)
      | _, _ => found) ∅

/-- All that is needed for some statements of an execution. What they define may be called later, so
it is used at the end of the execution. -/
def closureOf (s : Scene) (e : Execution) (seeds : List Flow.StatementFacts) : Closure :=
  let stamps := seeds.map fun f => (⟨e.ordinal, f.index⟩ : Timestamp)
  (Closure.empty.require s (some (Scene.exitSite e)) stamps).complete s (s.statementCount + 1)

/-- An execution whose source cannot be read, as it is. -/
def whole (e : Execution) : Slice :=
  ⟨e, [.ofRanges e [⟨1, max e.displayLines.length 1⟩]], ∅⟩

end Slice

namespace Log

/-- The slice of an execution of the log; with `lines` only for its statements on those lines. -/
def slice (l : Log) (atCall : Bool) (e : Execution) (lines : Option (List Int)) :
    Except ForeignExecution Slice :=
  if l.contains e then
    match e.facts? with
    | none => .ok (.whole e)
    | some r =>
      let scene : Slice.Scene := ⟨l, atCall⟩
      let seeds := (lines.map r.onLines).getD r.statements.toList
      let c := Slice.closureOf scene e seeds
      .ok ⟨e, Slice.partsOf (Slice.rangesOf scene c), c.unresolved⟩
  else .error ⟨e⟩

/-- The slice of the last execution of a cell, if it was ever run. -/
def sliceLatest (l : Log) (atCall : Bool) (id : String) (lines : Option (List Int)) :
    Except ForeignExecution (Option Slice) :=
  match l.latest? id with
  | none => .ok none
  | some e => (l.slice atCall e lines).map some

/-- The slices of all executions of a cell. -/
def sliceAll (l : Log) (atCall : Bool) (id : String) : Except ForeignExecution (List Slice) :=
  (l.executionsOf id).mapM fun e => l.slice atCall e none

/-- The later executions whose slices include an execution. -/
def dependents (l : Log) (atCall : Bool) (e : Execution) :
    Except ForeignExecution (List Execution) := do
  let later := l.executions.filter fun other => decide (e.ordinal < other.ordinal)
  let slices ← later.mapM fun other => l.slice atCall other none
  return ((later.zip slices).filter fun (_, s) => s.ordinals.contains e.ordinal).map Prod.fst

end Log

end Lineage
