import Lineage.Literal
import Lineage.Part

/-!
The tree of a cell: statements and expressions in one type of node, each with its place in the
source. Compound statements keep the lines of their clause headers apart from those of their bodies.
-/

namespace Lineage

/-- What a node is. -/
inductive Kind where
  | module
  | imports
  | importsFrom
  | decorator
  | decorated
  | function
  | classDef
  | assign
  | assertion
  | returning
  | yielding
  | raising
  | break
  | continue
  | pass
  | global
  | nonlocal
  | delete
  | expression
  | branch
  | whileLoop
  | forLoop
  | attempt
  | context
  | verbatim
  | call
  | conditional
  | lambda
  | unary
  | binary
  | starred
  | tuple
  | list
  | set
  | dict
  | name
  | literal
  | member
  | subscript
  | slice
  | comprehension
  | formatted
deriving DecidableEq, Repr

namespace Kind

/-- The word for a kind. -/
def word : Kind → String
  | module => "module"
  | imports => "import"
  | importsFrom => "from"
  | decorator => "decorator"
  | decorated => "decorate"
  | function => "def"
  | classDef => "class"
  | assign => "assign"
  | assertion => "assert"
  | returning => "return"
  | yielding => "yield"
  | raising => "raise"
  | .break => "break"
  | .continue => "continue"
  | pass => "pass"
  | global => "global"
  | nonlocal => "nonlocal"
  | delete => "del"
  | expression => "expr"
  | branch => "if"
  | whileLoop => "while"
  | forLoop => "for"
  | attempt => "try"
  | context => "with"
  | verbatim => "opaque"
  | call => "call"
  | conditional => "ifexpr"
  | lambda => "lambda"
  | unary => "unop"
  | binary => "binop"
  | starred => "starred"
  | tuple => "tuple"
  | list => "list"
  | set => "set"
  | dict => "dict"
  | name => "name"
  | literal => "literal"
  | member => "dot"
  | subscript => "index"
  | slice => "slice"
  | comprehension => "comprehension"
  | formatted => "fstring"

/-- Whether nodes of a kind are statements. An assignment may also be an expression. -/
def isStatement : Kind → Bool
  | imports | importsFrom | decorated | function | classDef | assign | assertion | returning
  | raising | .break | .continue | pass | global | nonlocal | delete | expression | branch
  | whileLoop | forLoop | attempt | context | verbatim => true
  | _ => false

/-- Whether nodes of a kind are statements with blocks that run as part of them. -/
def isCompound : Kind → Bool
  | branch | whileLoop | forLoop | attempt | context => true
  | _ => false

/-- Whether nodes of a kind define a function or a class. -/
def isDefinition : Kind → Bool
  | decorated | function | classDef => true
  | _ => false

end Kind

/-- A node of a cell's tree. A `verbatim` node is source that is not taken apart. -/
inductive Node where
  | module (loc : Location) (code : List Node)
  | imports (loc : Location) (names : List Alias)
  | importsFrom (loc : Location) (base : String) (level : Int) (names : List Alias)
  | decorator (loc : Location) (expression : Node)
  | decorated (loc : Location) (decorators : List Node) (definition : Node)
  | function (loc : Location) (name : String) (header : Location) (params : List (Param Node))
      (returns : Option Node) (code : List Node) (isAsync : Bool)
  | classDef (loc : Location) (name : String) (header : Location) (bases : List Node)
      (keywords : List (Keyword Node)) (code : List Node)
  | assign (loc : Location) (targets : List Node) (value : Option Node) (op : Option String)
      (hint : Option Node) (isExpression : Bool)
  | assertion (loc : Location) (condition : Node) (message : Option Node)
  | returning (loc : Location) (value : Option Node)
  | yielding (loc : Location) (value : Option Node) (isFrom : Bool)
  | raising (loc : Location) (exception cause : Option Node)
  | break (loc : Location)
  | continue (loc : Location)
  | pass (loc : Location)
  | global (loc : Location) (names : List String)
  | nonlocal (loc : Location) (names : List String)
  | delete (loc : Location) (targets : List Node)
  | expression (loc : Location) (value : Node)
  | branch (loc header : Location) (test : Node) (code : List Node) (elifs : List (Elif Node))
      (orelse : Option (Clause Node))
  | whileLoop (loc header : Location) (test : Node) (code : List Node)
      (orelse : Option (Clause Node))
  | forLoop (loc header : Location) (target iter : Node) (code : List Node)
      (orelse : Option (Clause Node)) (isAsync : Bool)
  | attempt (loc header : Location) (code : List Node) (handlers : List (Handler Node))
      (orelse final : Option (Clause Node))
  | context (loc header : Location) (items : List (WithItem Node)) (code : List Node)
      (isAsync : Bool)
  | verbatim (loc : Location) (source : String)
  | call (loc : Location) (func : Node) (args : List Node) (keywords : List (Keyword Node))
  | conditional (loc : Location) (test body orelse : Node)
  | lambda (loc : Location) (params : List (Param Node)) (body : Node)
  | unary (loc : Location) (op : String) (operand : Node)
  | binary (loc : Location) (op : String) (left right : Node)
  | starred (loc : Location) (value : Node)
  | tuple (loc : Location) (items : List Node)
  | list (loc : Location) (items : List Node)
  | set (loc : Location) (items : List Node)
  | dict (loc : Location) (entries : List (Entry Node))
  | name (loc : Location) (id : String)
  | literal (loc : Location) (value : Literal)
  | member (loc : Location) (value : Node) (attr : String)
  | subscript (loc : Location) (value index : Node)
  | slice (loc : Location) (lower upper step : Option Node)
  | comprehension (loc : Location) (flavor : String) (element : Node) (value : Option Node)
      (generators : List (Generator Node))
  | formatted (loc : Location) (values : List Node)

instance : Inhabited Node := ⟨.pass default⟩

namespace Node

/-- Where a node stands. -/
def loc : Node → Location
  | .module loc .. | .imports loc .. | .importsFrom loc .. | .decorator loc .. | .decorated loc ..
  | .function loc .. | .classDef loc .. | .assign loc .. | .assertion loc .. | .returning loc ..
  | .yielding loc .. | .raising loc .. | .break loc | .continue loc | .pass loc | .global loc ..
  | .nonlocal loc .. | .delete loc .. | .expression loc .. | .branch loc .. | .whileLoop loc ..
  | .forLoop loc .. | .attempt loc .. | .context loc .. | .verbatim loc .. | .call loc ..
  | .conditional loc .. | .lambda loc .. | .unary loc .. | .binary loc .. | .starred loc ..
  | .tuple loc .. | .list loc .. | .set loc .. | .dict loc .. | .name loc .. | .literal loc ..
  | .member loc .. | .subscript loc .. | .slice loc .. | .comprehension loc ..
  | .formatted loc .. => loc

/-- What a node is. -/
def kind : Node → Kind
  | .module .. => .module
  | .imports .. => .imports
  | .importsFrom .. => .importsFrom
  | .decorator .. => .decorator
  | .decorated .. => .decorated
  | .function .. => .function
  | .classDef .. => .classDef
  | .assign .. => .assign
  | .assertion .. => .assertion
  | .returning .. => .returning
  | .yielding .. => .yielding
  | .raising .. => .raising
  | .break .. => .break
  | .continue .. => .continue
  | .pass .. => .pass
  | .global .. => .global
  | .nonlocal .. => .nonlocal
  | .delete .. => .delete
  | .expression .. => .expression
  | .branch .. => .branch
  | .whileLoop .. => .whileLoop
  | .forLoop .. => .forLoop
  | .attempt .. => .attempt
  | .context .. => .context
  | .verbatim .. => .verbatim
  | .call .. => .call
  | .conditional .. => .conditional
  | .lambda .. => .lambda
  | .unary .. => .unary
  | .binary .. => .binary
  | .starred .. => .starred
  | .tuple .. => .tuple
  | .list .. => .list
  | .set .. => .set
  | .dict .. => .dict
  | .name .. => .name
  | .literal .. => .literal
  | .member .. => .member
  | .subscript .. => .subscript
  | .slice .. => .slice
  | .comprehension .. => .comprehension
  | .formatted .. => .formatted

/-- Whether a node is an assignment expression. -/
def isWalrus : Node → Bool
  | .assign _ _ _ _ _ isExpression => isExpression
  | _ => false

end Node

end Lineage
