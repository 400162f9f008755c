import Lineage.Flow.Check
import Lineage.Notebook.Cell
import Lineage.Text.Lines
import Lineage.Tree.Parse

/-!
One run of one cell, with what is known of its source.
-/

namespace Lineage

/-- The tree of a source and the facts about its statements. -/
structure Parsed where
  tree : Node
  facts : Flow.Result

/-- A stretch in the life of a log: the number of the log, which no other log has, and how often the
log has been reset. -/
structure Epoch where
  log : Nat
  resets : Nat
deriving DecidableEq, Repr

namespace Epoch

/-- What follows when the log is reset. -/
def next (e : Epoch) : Epoch :=
  ⟨e.log, e.resets + 1⟩

end Epoch

/-- One run of a cell. `text` is what was run and `source` what it was read as. The executions of an
epoch have different ordinals, so the two together tell executions apart. -/
structure Execution where
  epoch : Epoch
  id : String
  ordinal : Int
  count : Option Int
  text : String
  source : String
  content : Except ParseError Parsed
  outputs : List Notebook.Output
  hasError : Bool
  previous : Option Int

namespace Execution

/-- Whether two executions are one and the same, and not only alike. -/
def same (a b : Execution) : Bool :=
  a.epoch == b.epoch && a.ordinal == b.ordinal

/-- The facts about an execution whose source could be read. -/
def facts? (e : Execution) : Option Flow.Result :=
  e.content.toOption.map Parsed.facts

/-- Whether the source of an execution could be read. -/
def isParsed (e : Execution) : Bool :=
  e.facts?.isSome

/-- The statements of an execution; a source that could not be read has none. -/
def statements (e : Execution) : List Flow.StatementFacts :=
  (e.facts?.map fun r => r.statements.toList).getD []

/-- What reaches the end of an execution. -/
def exit (e : Execution) : Flow.State :=
  (e.facts?.map Flow.Result.exit).getD ∅

/-- The lines that line numbers refer to: those of the text if the source has as many, and else
those of the source. -/
def displayLines (e : Execution) : List String :=
  let textLines := Text.displayLines e.text
  let sourceLines := Text.displayLines e.source
  if textLines.length = sourceLines.length then textLines else sourceLines

/-- A count as it is shown. -/
def countShown (count : Option Int) : String :=
  (count.map toString).getD "None"

/-- An execution as it is shown. -/
def shown (e : Execution) : String :=
  "<CellExecution " ++ toString e.ordinal ++ " of " ++ e.id ++ " (count=" ++
    countShown e.count ++ ")>"

end Execution

end Lineage
