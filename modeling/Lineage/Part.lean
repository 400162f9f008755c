import Lineage.Location

/-!
Parts of expressions and statements that are neither: parameters, arguments by keyword, entries of a
dictionary, clauses of compound statements and the like. Each is a record over the type of the
syntax it holds, so that the grammar and the tree share them.
-/

namespace Lineage

/-- A name brought in by an import: the dotted path that is imported and the name it is given. -/
structure Alias where
  path : String
  asName : Option String
deriving DecidableEq, Repr

/-- The name an import binds: the one given to it, or else the first component of its path. -/
def Alias.boundName (a : Alias) : String :=
  a.asName.getD (String.ofList (a.path.toList.takeWhile (· ≠ '.')))

/-- Whether an import brings in all names of a module. -/
def Alias.isStar : List Alias → Bool
  | [a] => a.path == "*"
  | _ => false

/-- A parameter; `star` is empty, `*` or `**`. -/
structure Param (α : Type) where
  name : String
  default : Option α
  hint : Option α
  star : String

/-- The name of a parameter and its annotation. -/
structure Arg (α : Type) where
  name : String
  hint : Option α

/-- The parameters of a definition as they are written: those given by position only, those given by
position or keyword, the one for all further positions, those given by keyword only, and the one for
all further keywords. `kwDefaults` has a place for each parameter that is given by keyword only;
`defaults` are those of the last parameters that are given by position. -/
structure Arguments (α : Type) where
  posonly : List (Arg α)
  args : List (Arg α)
  vararg : Option (Arg α)
  kwonly : List (Arg α)
  kwDefaults : List (Option α)
  kwarg : Option (Arg α)
  defaults : List α

/-- A parameter with a default and a star. -/
def Arg.param {α : Type} (star : String) (arg : Arg α) (default : Option α) : Param α :=
  ⟨arg.name, default, arg.hint, star⟩

namespace Arguments

variable {α : Type} (a : Arguments α)

/-- The parameters that are given by position. -/
def positional : List (Arg α) :=
  a.posonly ++ a.args

/-- The defaults of the parameters that are given by position; the first of these have none. -/
def positionalDefaults : List (Option α) :=
  List.replicate (a.positional.length - a.defaults.length) none ++ a.defaults.map some

/-- All parameters, each with its default. -/
def params : List (Param α) :=
  List.zipWith (Arg.param "") a.positional a.positionalDefaults
    ++ (a.vararg.map fun arg => arg.param "*" none).toList
    ++ List.zipWith (Arg.param "") a.kwonly a.kwDefaults
    ++ (a.kwarg.map fun arg => arg.param "**" none).toList

end Arguments

/-- An argument given by keyword, or an unpacked mapping if it has no name. -/
structure Keyword (α : Type) where
  name : Option String
  value : α

/-- A context entered by a `with` statement and the target it is bound to. -/
structure WithItem (α : Type) where
  context : α
  target : Option α

/-- An entry of a dictionary, or an unpacked mapping if it has no key. -/
structure Entry (α : Type) where
  key : Option α
  value : α

/-- One `for` of a comprehension with its conditions. -/
structure Generator (α : Type) where
  target : α
  iter : α
  conditions : List α
  isAsync : Bool

/-- An `else` or `finally` clause: the lines of its header and its body. -/
structure Clause (α : Type) where
  header : Location
  body : List α

/-- An `elif` clause. -/
structure Elif (α : Type) where
  header : Location
  test : α
  body : List α

/-- An `except` clause. -/
structure Handler (α : Type) where
  header : Location
  body : List α
  type : Option α
  name : Option String

end Lineage
