import Lineage.Log.Record

/-!
The logs of a process. Every log takes a number of its own when it is made, and so does every
execution that is put together outside of the logs, so that the executions of different logs can be
told apart even if they are alike.
-/

namespace Lineage

/-- The logs by their numbers, and how many numbers have been taken. -/
structure LogStore where
  numbers : Nat
  logs : Std.ExtTreeMap Nat Log

namespace LogStore

/-- No logs. -/
def empty : LogStore :=
  ⟨0, ∅⟩

/-- The log with a number. -/
def log? (s : LogStore) (number : Nat) : Option Log :=
  s.logs[number]?

/-- The first epoch under the next number. -/
def fresh (s : LogStore) : Epoch :=
  ⟨s.numbers, 0⟩

/-- Takes the next number. -/
def take (s : LogStore) : LogStore :=
  { s with numbers := s.numbers + 1 }

/-- Keeps a log under its number. -/
def put (s : LogStore) (l : Log) : LogStore :=
  { s with logs := s.logs.insert l.epoch.log l }

/-- Makes a log without executions. -/
def create (s : LogStore) (settings : Flow.Settings) (plain : String → String) : LogStore :=
  s.take.put (.empty settings plain s.fresh)

/-- Makes the log that records describe. -/
def restore (s : LogStore) (settings : Flow.Settings) (plain : String → String)
    (records : List Notebook.Value) : Except LogError (LogStore × Log) :=
  (Log.ofRecords settings plain s.fresh records).map fun l => (s.take.put l, l)

/-- Records the run of a cell in a log. -/
def record (s : LogStore) (l : Log) (cell : Notebook.Cell) :
    Except LogError (LogStore × Execution) :=
  (l.record cell).map fun recorded => (s.put recorded.1, recorded.2)

/-- Starts a log over. -/
def reset (s : LogStore) (l : Log) : LogStore :=
  s.put l.reset

/-- Puts together an execution that no log has made, like one that there may be. -/
def copy (s : LogStore) (e : Execution) : LogStore × Execution :=
  (s.take, { e with epoch := s.fresh })

end LogStore

end Lineage
