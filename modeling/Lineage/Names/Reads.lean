import Lineage.Names.Path
import Lineage.Tree.Walk

/-!
The names that an expression reads from the scope around it, and the names that it binds there.
Names bound by lambdas and comprehensions are their own. Every read also tells how it is read: by
which path, and whether the object may be changed by a call on the way.
-/

namespace Lineage

/-- A name read by an expression. `path` is the longest dotted path that starts with it, and
`touched` tells whether the object it names is handed to a call that may change it. -/
structure Read where
  id : String
  loc : Location
  path : String
  touched : Bool
deriving DecidableEq, Repr

/-- The occurrence that a read reads. -/
def Read.occurrence (r : Read) : Occurrence :=
  ⟨r.id, r.loc⟩

/-- What the nodes around an expression say about the names in it. `deferred` holds inside a lambda,
whose calls do not happen now; `receiver` holds for the callee of a call that may change the object
whose method it is; `path` is the path of the attribute chain around a node. -/
structure View where
  deferred : Bool
  touched : Bool
  receiver : Bool
  path : Option String
deriving DecidableEq, Repr

namespace View

/-- Nothing is known from around. -/
def bare : View := ⟨false, false, false, none⟩

/-- The view of a node inside another that is no part of an attribute chain. -/
def inner (v : View) : View := { v with receiver := false, path := none }

/-- The view of the arguments of a call that changes them if `live` holds. -/
def argument (v : View) (live : Bool) : View := { v.inner with touched := v.touched || live }

/-- The view of the callee of a call. -/
def callee (v : View) (live : Bool) : View := { v.inner with receiver := live }

/-- The view of the object of an attribute, given the path of the attribute. -/
def object (v : View) (path : Option String) : View :=
  { deferred := v.deferred
    touched := v.touched || v.receiver
    receiver := false
    path := if v.deferred then none else v.path <|> path }

/-- The view of the inside of a lambda. -/
def later (v : View) : View := { v.inner with deferred := true }

end View

namespace Node

variable (pure : Node → Bool)

mutual

/-- The names that evaluating a node reads from the scope around it, in order. `pure` tells which
callees leave the objects they are given alone. -/
def reads : View → Node → List Read
  | v, .name loc id => [⟨id, loc, v.path.getD id, v.touched⟩]
  | v, .member loc value attr => reads (v.object (dottedPath (.member loc value attr))) value
  | v, .call _ func args keywords =>
    let live := !v.deferred && !pure func
    reads (v.callee live) func ++ readsList (v.argument live) args ++
      readsKeywords (v.argument live) keywords
  | v, .lambda _ params body =>
    readsDefaults v.later params ++
      (reads v.later body).filter fun r => !(paramNames params).contains r.id
  | v, .comprehension _ _ element value generators =>
    let bound := generators.flatMap fun g => (targetNames g.target).map Occurrence.id
    readsFirstIter v.inner generators ++
      (readsGenerators v.inner true generators ++ reads v.inner element ++
        readsOption v.inner value).filter fun r => !bound.contains r.id
  | v, .assign _ targets value _ hint isExpression =>
    readsUnnamed v.inner targets ++ readsOption v.inner value ++
      if isExpression then []
      else readsList v.inner targets ++ readsOption v.inner hint ++ readsOption v.inner value
  | v, .module _ code => readsList v.inner code
  | v, .decorator _ e => reads v.inner e
  | v, .decorated _ decorators definition => readsList v.inner decorators ++
      reads v.inner definition
  | v, .function _ _ _ params returns code _ =>
    readsParams v.inner params ++ readsOption v.inner returns ++ readsList v.inner code
  | v, .classDef _ _ _ bases keywords code =>
    readsList v.inner bases ++ readsKeywords v.inner keywords ++ readsList v.inner code
  | v, .assertion _ condition message => reads v.inner condition ++ readsOption v.inner message
  | v, .returning _ value => readsOption v.inner value
  | v, .yielding _ value _ => readsOption v.inner value
  | v, .raising _ exception cause => readsOption v.inner exception ++ readsOption v.inner cause
  | v, .delete _ targets => readsList v.inner targets
  | v, .expression _ value => reads v.inner value
  | v, .branch _ _ test code elifs orelse =>
    reads v.inner test ++ readsList v.inner code ++ readsElifs v.inner elifs ++
      readsClause v.inner orelse
  | v, .whileLoop _ _ test code orelse =>
    reads v.inner test ++ readsList v.inner code ++ readsClause v.inner orelse
  | v, .forLoop _ _ target iter code orelse _ =>
    reads v.inner target ++ reads v.inner iter ++ readsList v.inner code ++
      readsClause v.inner orelse
  | v, .attempt _ _ code handlers orelse final =>
    readsList v.inner code ++ readsHandlers v.inner handlers ++ readsClause v.inner orelse ++
      readsClause v.inner final
  | v, .context _ _ items code _ => readsItems v.inner items ++ readsList v.inner code
  | v, .conditional _ test body orelse =>
    reads v.inner test ++ reads v.inner body ++ reads v.inner orelse
  | v, .unary _ _ operand => reads v.inner operand
  | v, .binary _ _ left right => reads v.inner left ++ reads v.inner right
  | v, .starred _ value => reads v.inner value
  | v, .tuple _ items => readsList v.inner items
  | v, .list _ items => readsList v.inner items
  | v, .set _ items => readsList v.inner items
  | v, .dict _ entries => readsEntries v.inner entries
  | v, .subscript _ value index => reads v.inner value ++ reads v.inner index
  | v, .slice _ lower upper step =>
    readsOption v.inner lower ++ readsOption v.inner upper ++ readsOption v.inner step
  | v, .formatted _ values => readsList v.inner values
  | _, .imports .. | _, .importsFrom .. | _, .break _ | _, .continue _ | _, .pass _ | _, .global ..
  | _, .nonlocal .. | _, .verbatim .. | _, .literal .. => []

/-- The reads of several nodes. -/
def readsList : View → List Node → List Read
  | _, [] => []
  | v, n :: rest => reads v n ++ readsList v rest

/-- The reads of an optional node. -/
def readsOption : View → Option Node → List Read
  | _, none => []
  | v, some n => reads v n

/-- The reads of the targets that are no plain names. -/
def readsUnnamed : View → List Node → List Read
  | _, [] => []
  | v, n :: rest => (if n.isName then [] else reads v n) ++ readsUnnamed v rest

/-- The reads of the values of keywords. -/
def readsKeywords : View → List (Keyword Node) → List Read
  | _, [] => []
  | v, ⟨_, value⟩ :: rest => reads v value ++ readsKeywords v rest

/-- The reads of the hints and defaults of a function's parameters. -/
def readsParams : View → List (Param Node) → List Read
  | _, [] => []
  | v, ⟨_, default, hint, _⟩ :: rest => readsOption v hint ++ readsOption v default ++
      readsParams v rest

/-- The reads of the defaults and hints of a lambda's parameters. -/
def readsDefaults : View → List (Param Node) → List Read
  | _, [] => []
  | v, ⟨_, default, hint, _⟩ :: rest =>
    readsOption v default ++ readsOption v hint ++ readsDefaults v rest

/-- The reads of what the first `for` of a comprehension goes over: it belongs to the scope
around. -/
def readsFirstIter : View → List (Generator Node) → List Read
  | _, [] => []
  | v, ⟨_, iter, _, _⟩ :: _ => reads v iter

/-- The reads inside the `for`s of a comprehension, except for what the first goes over. -/
def readsGenerators : View → (first : Bool) → List (Generator Node) → List Read
  | _, _, [] => []
  | v, first, ⟨_, iter, conditions, _⟩ :: rest =>
    (if first then [] else reads v iter) ++ readsList v conditions ++ readsGenerators v false rest

/-- The reads of entries of a dictionary. -/
def readsEntries : View → List (Entry Node) → List Read
  | _, [] => []
  | v, ⟨key, value⟩ :: rest => readsOption v key ++ reads v value ++ readsEntries v rest

/-- The reads of contexts. -/
def readsItems : View → List (WithItem Node) → List Read
  | _, [] => []
  | v, ⟨ctx, target⟩ :: rest => reads v ctx ++ readsOption v target ++ readsItems v rest

/-- The reads of `elif` clauses. -/
def readsElifs : View → List (Elif Node) → List Read
  | _, [] => []
  | v, ⟨_, test, body⟩ :: rest => reads v test ++ readsList v body ++ readsElifs v rest

/-- The reads of `except` clauses. -/
def readsHandlers : View → List (Handler Node) → List Read
  | _, [] => []
  | v, ⟨_, body, type, _⟩ :: rest => readsOption v type ++ readsList v body ++ readsHandlers v rest

/-- The reads of an optional clause. -/
def readsClause : View → Option (Clause Node) → List Read
  | _, none => []
  | v, some ⟨_, body⟩ => readsList v body

end

/-- The names that evaluating a node reads from the scope around it, in order. -/
def freeNames (n : Node) : List Occurrence :=
  (n.reads (fun _ => true) .bare).map Read.occurrence

/-- Whether a node is a lambda. -/
def isLambda : Node → Bool
  | .lambda .. => true
  | _ => false

/-- The nodes that are evaluated when a node is: all but those inside lambdas. -/
def evaluated (n : Node) : List Node :=
  n.walk isLambda

/-- The names an assignment expression binds. -/
def walrusNames : Node → List Occurrence
  | .assign _ (target :: _) _ _ _ true => targetNames target
  | _ => []

/-- The names that the assignment expressions in a node bind. -/
def bindings (n : Node) : List Occurrence :=
  n.evaluated.flatMap walrusNames

end Node

end Lineage
