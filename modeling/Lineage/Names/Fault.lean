import Lineage.Names.Reads

/-!
Trees that no source has. A tree may be put together by hand, with an assignment in an expression
that assigns nothing, a comprehension over nothing, or an expression where a statement is needed.
Reading such a tree stops at the first fault it meets.
-/

namespace Lineage

/-- What is wrong with a tree. -/
inductive Fault where
  | notStatement (kind : Kind)
  | noValue
  | noGenerator
  | noTarget
  | notDecorator
  | notDefinition
deriving DecidableEq, Repr

namespace Node

mutual

/-- The first fault met in reading the names of a node. -/
def readFault : Node → Option Fault
  | .assign _ targets value _ hint isExpression =>
    unnamedFault targets <|> valueFault value <|>
      if isExpression then none else listFault targets <|> optionFault hint <|> optionFault value
  | .comprehension _ _ element value generators =>
    firstIterFault generators <|> generatorsFault true generators <|> readFault element <|>
      optionFault value
  | .lambda _ params body => defaultsFault params <|> readFault body
  | .member _ value _ => readFault value
  | .call _ func args keywords => readFault func <|> listFault args <|> keywordsFault keywords
  | .module _ code => listFault code
  | .decorator _ e => readFault e
  | .decorated _ decorators definition => listFault decorators <|> readFault definition
  | .function _ _ _ params returns code _ => paramsFault params <|> optionFault returns <|>
      listFault code
  | .classDef _ _ _ bases keywords code => listFault bases <|> keywordsFault keywords <|>
      listFault code
  | .assertion _ condition message => readFault condition <|> optionFault message
  | .returning _ value => optionFault value
  | .yielding _ value _ => optionFault value
  | .raising _ exception cause => optionFault exception <|> optionFault cause
  | .delete _ targets => listFault targets
  | .expression _ value => readFault value
  | .branch _ _ test code elifs orelse =>
    readFault test <|> listFault code <|> elifsFault elifs <|> clauseFault orelse
  | .whileLoop _ _ test code orelse => readFault test <|> listFault code <|> clauseFault orelse
  | .forLoop _ _ target iter code orelse _ =>
    readFault target <|> readFault iter <|> listFault code <|> clauseFault orelse
  | .attempt _ _ code handlers orelse final =>
    listFault code <|> handlersFault handlers <|> clauseFault orelse <|> clauseFault final
  | .context _ _ items code _ => itemsFault items <|> listFault code
  | .conditional _ test body orelse => readFault test <|> readFault body <|> readFault orelse
  | .unary _ _ operand => readFault operand
  | .binary _ _ left right => readFault left <|> readFault right
  | .starred _ value => readFault value
  | .tuple _ items => listFault items
  | .list _ items => listFault items
  | .set _ items => listFault items
  | .dict _ entries => entriesFault entries
  | .subscript _ value index => readFault value <|> readFault index
  | .slice _ lower upper step => optionFault lower <|> optionFault upper <|> optionFault step
  | .formatted _ values => listFault values
  | .name .. | .imports .. | .importsFrom .. | .break _ | .continue _ | .pass _ | .global ..
  | .nonlocal .. | .verbatim .. | .literal .. => none

/-- The first fault in nodes that are read in order. -/
def listFault : List Node → Option Fault
  | [] => none
  | n :: rest => readFault n <|> listFault rest

/-- The fault of a node that may be missing. -/
def optionFault : Option Node → Option Fault
  | none => none
  | some n => readFault n

/-- An assignment inside an expression needs a value. -/
def valueFault : Option Node → Option Fault
  | none => some .noValue
  | some n => readFault n

/-- The first fault in targets; a plain name is bound and not read. -/
def unnamedFault : List Node → Option Fault
  | [] => none
  | n :: rest => (if n.isName then none else readFault n) <|> unnamedFault rest

/-- The first fault in the values of keyword arguments. -/
def keywordsFault : List (Keyword Node) → Option Fault
  | [] => none
  | ⟨_, value⟩ :: rest => readFault value <|> keywordsFault rest

/-- The first fault in parameters, each read hint first. -/
def paramsFault : List (Param Node) → Option Fault
  | [] => none
  | ⟨_, default, hint, _⟩ :: rest => optionFault hint <|> optionFault default <|> paramsFault rest

/-- The first fault in parameters, each read default value first. -/
def defaultsFault : List (Param Node) → Option Fault
  | [] => none
  | ⟨_, default, hint, _⟩ :: rest => optionFault default <|> optionFault hint <|> defaultsFault rest

/-- A comprehension needs something to go over. -/
def firstIterFault : List (Generator Node) → Option Fault
  | [] => some .noGenerator
  | ⟨_, iter, _, _⟩ :: _ => readFault iter

/-- The first fault in generators; what the very first one goes over has been read before. -/
def generatorsFault : (first : Bool) → List (Generator Node) → Option Fault
  | _, [] => none
  | first, ⟨_, iter, conditions, _⟩ :: rest =>
    (if first then none else readFault iter) <|> listFault conditions <|> generatorsFault false rest

/-- The first fault in the entries of a dictionary. -/
def entriesFault : List (Entry Node) → Option Fault
  | [] => none
  | ⟨key, value⟩ :: rest => optionFault key <|> readFault value <|> entriesFault rest

/-- The first fault in the items of a context. -/
def itemsFault : List (WithItem Node) → Option Fault
  | [] => none
  | ⟨ctx, target⟩ :: rest => readFault ctx <|> optionFault target <|> itemsFault rest

/-- The first fault in further branches. -/
def elifsFault : List (Elif Node) → Option Fault
  | [] => none
  | ⟨_, test, body⟩ :: rest => readFault test <|> listFault body <|> elifsFault rest

/-- The first fault in handlers, each read type first. -/
def handlersFault : List (Handler Node) → Option Fault
  | [] => none
  | ⟨_, body, type, _⟩ :: rest => optionFault type <|> listFault body <|> handlersFault rest

/-- The fault of a clause that may be missing. -/
def clauseFault : Option (Clause Node) → Option Fault
  | none => none
  | some ⟨_, body⟩ => listFault body

end

/-- The fault of an assignment expression that has nothing to bind. -/
def walrusFault : Node → Option Fault
  | .assign _ [] _ _ _ true => some .noTarget
  | _ => none

/-- The first fault met in finding the names that a node binds. -/
def bindingFault (n : Node) : Option Fault :=
  n.evaluated.findSome? walrusFault

/-- The first fault met in evaluating a node. -/
def evaluationFault (n : Node) : Option Fault :=
  n.readFault <|> n.bindingFault

end Node

end Lineage
