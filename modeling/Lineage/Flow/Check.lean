import Lineage.Flow.Analysis
import Lineage.Names.Fault

/-!
Analysis of any tree, one put together by hand included: it has a result unless the tree has a fault
in a place that the analysis looks at. The fault that is told is the first one that the analysis
meets.
-/

namespace Lineage

namespace Node

/-- The first fault met in evaluating expressions in order. -/
def evaluationFaults (es : List Node) : Option Fault :=
  es.findSome? evaluationFault

mutual

/-- The first fault met in assigning to a target. -/
def targetFault : Node → Option Fault
  | .name .. => none
  | .tuple _ items => targetsFault items
  | .list _ items => targetsFault items
  | .starred _ value => targetFault value
  | .member _ value _ => value.evaluationFault
  | .subscript _ value index => value.evaluationFault <|> index.evaluationFault
  | other => other.evaluationFault

/-- The first fault met in assigning to several targets. -/
def targetsFault : List Node → Option Fault
  | [] => none
  | n :: rest => targetFault n <|> targetsFault rest

end

/-- The fault of a decorator. -/
def decoratorFault : Node → Option Fault
  | .decorator _ e => e.evaluationFault
  | _ => some .notDecorator

/-- The first fault met in entering a context. -/
def contextFault (item : WithItem Node) : Option Fault :=
  item.context.evaluationFault <|> targetsFault item.target.toList

/-- The first fault met in deleting a target. -/
def deletionFault (target : Node) : Option Fault :=
  if target.targetNames.isEmpty then targetFault target else none

/-- The first fault of a statement without blocks; anything that is no statement is a fault. -/
def simpleFault : Node → Option Fault
  | .assign _ targets value op hint _ =>
    evaluationFaults (value.toList ++ hint.toList ++ if op.isSome then targets else []) <|>
      if value.isNone then none else targetsFault targets
  | .assertion _ condition message => evaluationFaults (condition :: message.toList)
  | .returning _ value => evaluationFaults value.toList
  | .raising _ exception cause => evaluationFaults (exception.toList ++ cause.toList)
  | .expression _ value => evaluationFault value
  | .delete _ targets => targets.findSome? deletionFault
  | n => if n.kind.isStatement then none else some (.notStatement n.kind)

mutual

/-- The first fault that the analysis of a statement meets. -/
def statementFault : Node → Option Fault
  | .branch _ _ test code elifs orelse =>
    evaluationFault test <|> blockFault code <|> elifsBlockFault elifs <|> clauseBlockFault orelse
  | .whileLoop _ _ test code orelse =>
    evaluationFault test <|> blockFault code <|> clauseBlockFault orelse
  | .forLoop _ _ target iter code orelse _ =>
    evaluationFault iter <|> targetFault target <|> blockFault code <|> clauseBlockFault orelse
  | .attempt _ _ code handlers orelse final =>
    blockFault code <|> handlersBlockFault handlers <|> clauseBlockFault orelse <|>
      clauseBlockFault final
  | .context _ _ items code _ => items.findSome? contextFault <|> blockFault code
  | .function _ _ _ params returns code _ =>
    evaluationFaults (params.flatMap Flow.paramReads ++ returns.toList) <|> blockFault code
  | .classDef _ _ _ bases keywords code =>
    evaluationFaults (bases ++ keywords.map Keyword.value) <|> blockFault code
  | .decorated _ decorators definition => decorators.findSome? decoratorFault <|> definitionFault
      definition
  | n => simpleFault n

/-- The first fault of what is decorated: it is to be a function or a class. -/
def definitionFault : Node → Option Fault
  | .function _ _ _ params returns code _ =>
    evaluationFaults (params.flatMap Flow.paramReads ++ returns.toList) <|> blockFault code
  | .classDef _ _ _ bases keywords code =>
    evaluationFaults (bases ++ keywords.map Keyword.value) <|> blockFault code
  | .lambda _ params _ => evaluationFaults (params.flatMap Flow.paramReads) <|> some .notDefinition
  | _ => some .notDefinition

/-- The first fault in a block. -/
def blockFault : List Node → Option Fault
  | [] => none
  | n :: rest => statementFault n <|> blockFault rest

/-- The first fault in `elif` clauses. -/
def elifsBlockFault : List (Elif Node) → Option Fault
  | [] => none
  | ⟨_, test, body⟩ :: rest => evaluationFault test <|> blockFault body <|> elifsBlockFault rest

/-- The first fault in `except` clauses. -/
def handlersBlockFault : List (Handler Node) → Option Fault
  | [] => none
  | ⟨_, body, type, _⟩ :: rest =>
    evaluationFaults type.toList <|> blockFault body <|> handlersBlockFault rest

/-- The first fault in an optional clause. -/
def clauseBlockFault : Option (Clause Node) → Option Fault
  | none => none
  | some ⟨_, body⟩ => blockFault body

end

end Node

namespace Flow

/-- Analyses a tree. -/
def analyze (settings : Settings) (writes : GlobalWrites) (n : Node) : Except Fault Result :=
  match Node.blockFault n.code with
  | some fault => .error fault
  | none => .ok (analyzeBlock settings writes n.code)

end Flow

end Lineage
