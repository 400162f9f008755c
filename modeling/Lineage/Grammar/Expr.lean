import Lineage.Literal
import Lineage.Part

/-!
Expressions as the grammar reads them. The location of an expression runs from its first token to
its last; parentheses around it belong to it only where they are part of what it is.
-/

namespace Lineage.Grammar

/-- The kinds of comprehension. -/
inductive Flavor where
  | list
  | set
  | dict
  | generator
deriving DecidableEq, Repr

/-- The word for a kind of comprehension. -/
def Flavor.word : Flavor → String
  | .list => "list"
  | .set => "set"
  | .dict => "dict"
  | .generator => "generator"

/-- An expression. Operators are given by their symbols. The signs of a chain of comparisons stand
apart from its operands and the keys of a dictionary apart from its values, of which an unpacked
mapping has no key. -/
inductive Expr where
  | boolean (loc : Location) (op : String) (first : Expr) (rest : List Expr)
  | named (loc : Location) (target value : Expr)
  | binary (loc : Location) (op : String) (left right : Expr)
  | unary (loc : Location) (op : String) (operand : Expr)
  | lambda (loc : Location) (params : Arguments Expr) (body : Expr)
  | conditional (loc : Location) (test body orelse : Expr)
  | dict (loc : Location) (keys : List (Option Expr)) (values : List Expr)
  | set (loc : Location) (items : List Expr)
  | comprehension (loc : Location) (flavor : Flavor) (element : Expr) (value : Option Expr)
      (generators : List (Generator Expr))
  | await (loc : Location) (value : Expr)
  | yield (loc : Location) (value : Option Expr)
  | yieldFrom (loc : Location) (value : Expr)
  | compare (loc : Location) (left : Expr) (ops : List String) (comparators : List Expr)
  | call (loc : Location) (func : Expr) (args : List Expr) (keywords : List (Keyword Expr))
  | joined (loc : Location) (values : List Expr)
  | formatted (loc : Location) (value : Expr) (spec : Option Expr)
  | constant (loc : Location) (value : Literal)
  | member (loc : Location) (value : Expr) (attr : String)
  | subscript (loc : Location) (value index : Expr)
  | starred (loc : Location) (value : Expr)
  | name (loc : Location) (id : String)
  | list (loc : Location) (items : List Expr)
  | tuple (loc : Location) (items : List Expr)
  | slice (loc : Location) (lower upper step : Option Expr)

/-- Where an expression stands. -/
def Expr.loc : Expr → Location
  | .boolean loc .. | .named loc .. | .binary loc .. | .unary loc .. | .lambda
      loc .. | .conditional loc ..
  | .dict loc .. | .set loc .. | .comprehension loc .. | .await loc .. | .yield
      loc .. | .yieldFrom loc ..
  | .compare loc .. | .call loc .. | .joined loc .. | .formatted loc .. | .constant loc ..
  | .member loc .. | .subscript loc .. | .starred loc .. | .name loc .. | .list
      loc .. | .tuple loc ..
  | .slice loc .. => loc

end Lineage.Grammar
