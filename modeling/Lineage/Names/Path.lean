import Lineage.Tree.Node

/-!
Names at the root of attribute and subscript chains, paths written out, and the names that a target
binds.
-/

namespace Lineage

/-- A name as it stands in a tree. -/
structure Occurrence where
  id : String
  loc : Location
deriving DecidableEq, Repr

namespace Node

/-- The name a chain of attributes, subscripts and stars hangs on. -/
def rootName : Node → Option String
  | .name _ id => some id
  | .member _ value _ => rootName value
  | .subscript _ value _ => rootName value
  | .starred _ value => rootName value
  | _ => none

/-- A name with attributes, written with dots. -/
def dottedPath : Node → Option String
  | .name _ id => some id
  | .member _ value attr => (dottedPath value).map fun base => base ++ "." ++ attr
  | _ => none

/-- A target written out; what is subscripted ends in brackets. -/
def targetPath : Node → String
  | .name _ id => id
  | .member _ value attr => targetPath value ++ "." ++ attr
  | .subscript _ value _ => targetPath value ++ "[]"
  | .starred _ value => targetPath value
  | _ => "<expr>"

mutual

/-- The names that assigning to a target binds. -/
def targetNames : Node → List Occurrence
  | .name loc id => [⟨id, loc⟩]
  | .tuple _ items => targetNamesList items
  | .list _ items => targetNamesList items
  | .starred _ value => targetNames value
  | _ => []

/-- The names that assigning to several targets binds. -/
def targetNamesList : List Node → List Occurrence
  | [] => []
  | n :: rest => targetNames n ++ targetNamesList rest

end

/-- Whether a node is a plain name. -/
def isName : Node → Bool
  | .name .. => true
  | _ => false

/-- The attribute a node reads, if it reads one. -/
def memberName : Node → Option String
  | .member _ _ attr => some attr
  | _ => none

/-- Whether a node opens a scope of its own inside an expression. -/
def opensScope : Node → Bool
  | .lambda .. | .comprehension .. => true
  | _ => false

end Node

/-- The names of parameters. -/
def paramNames (params : List (Param Node)) : List String :=
  params.map Param.name

end Lineage
