import Lineage.Grammar.Pattern

/-!
Rules for statements. As with expressions, the rule for the blocks nested in a statement is given to
the rules, and the whole grammar ties it to them.
-/

namespace Lineage.Grammar

/-- The rules for what is nested in a statement. -/
structure Blocks where
  expressions : Nested
  patterns : Patterns
  block : Rule (List Stmt)

namespace Blocks

open Rule

/-- An assignment of any form, or an expression that stands as a statement. -/
def assignment (b : Blocks) : Rule Stmt := do
  let n := b.expressions
  let start ← here
  let first ← n.starExpressions
  if ← hasOp ":" then
    check first.isSingleTarget
    let hint ← n.expression
    let value ← if ← hasOp "=" then some <$> n.assigned else pure none
    return .annotate (← since start) first hint value
  match ← maybe (oneOf ["+=", "-=", "*=", "@=", "/=", "%=", "&=", "|=", "^=", "<<=", ">>=", "**=",
      "//="]) with
  | some op =>
    check first.isSingleTarget
    let value ← n.assigned
    return .augment (← since start) first op value
  | none =>
    let more ← many (op "=" *> n.assigned)
    match more.getLast? with
    | none => return .expression (← since start) first
    | some value =>
      let targets := first :: more.dropLast
      check (Expr.areTargets targets)
      return .assign (← since start) targets value

/-- A dotted path. -/
def dottedPath : Rule String := do
  let first ← name
  let rest ← many (op "." *> name)
  return ".".intercalate (first :: rest)

/-- A path or name and what it is called here. -/
def aliased (path : Rule String) : Rule Alias := do
  let path ← path
  let asName ← if ← hasKeyword "as" then some <$> name else pure none
  return ⟨path, asName⟩

/-- An import of whole modules. -/
def imports : Rule Stmt := do
  let start ← here
  keyword "import"
  let names ← separated (aliased dottedPath)
  return .imports (← since start) names

/-- The names imported from a module. -/
def importedNames : Rule (List Alias) :=
  (do op "*"; return [⟨"*", none⟩])
    <|> (op "(" *> listed (aliased name) <* op ")")
    <|> separated (aliased name)

/-- An import of names from a module; every dot in front of its path goes one package up. -/
def importsFrom : Rule Stmt := do
  let start ← here
  keyword "from"
  let dots ← many (oneOf [".", "..."])
  let level := (String.join dots).length
  let base ← if level = 0 then some <$> dottedPath else maybe dottedPath
  keyword "import"
  let names ← importedNames
  return .importsFrom (← since start) (base.getD "") level names

/-- A declaration of names as global or nonlocal. -/
def declaration (word : String) (make : Location → List String → Stmt) : Rule Stmt := do
  let start ← here
  keyword word
  let names ← separated name
  return make (← since start) names

/-- A statement that is one word. -/
def single (word : String) (make : Location → Stmt) : Rule Stmt := do
  let start ← here
  keyword word
  return make (← since start)

/-- A `return`. -/
def returning (b : Blocks) : Rule Stmt := do
  let start ← here
  keyword "return"
  let value ← maybe b.expressions.starExpressions
  return .returning (← since start) value

/-- A `raise`. -/
def raising (b : Blocks) : Rule Stmt := do
  let start ← here
  keyword "raise"
  match ← maybe b.expressions.expression with
  | none => return .raising (← since start) none none
  | some exception =>
    let cause ← if ← hasKeyword "from" then some <$> b.expressions.expression else pure none
    return .raising (← since start) (some exception) cause

/-- A `del`. -/
def deletion (b : Blocks) : Rule Stmt := do
  let start ← here
  keyword "del"
  let targets ← listed b.expressions.primary
  check (Expr.areDeletable targets)
  return .delete (← since start) targets

/-- An `assert`. -/
def assertion (b : Blocks) : Rule Stmt := do
  let start ← here
  keyword "assert"
  let test ← b.expressions.expression
  let message ← if ← hasOp "," then some <$> b.expressions.expression else pure none
  return .assertion (← since start) test message

/-- A `yield` that stands as a statement. -/
def yielding (b : Blocks) : Rule Stmt := do
  let start ← here
  let value ← b.expressions.yielding
  return .expression (← since start) value

/-- A statement without a block. -/
def simple (b : Blocks) : Rule Stmt :=
  b.assignment <|> b.returning <|> imports <|> importsFrom <|> b.raising <|> single "pass" .pass
    <|> b.deletion <|> b.yielding <|> b.assertion <|> single "break" .break
    <|> single "continue" .continue <|> declaration "global" .global
    <|> declaration "nonlocal" .nonlocal

/-- Simple statements on one line. -/
def simpleLine (b : Blocks) : Rule (List Stmt) := do
  let first ← b.simple
  let rest ← many (op ";" *> b.simple)
  let _ ← hasOp ";"
  layout .newline
  return first :: rest

/-- The block of a clause: statements on the line of its colon, or an indented block. -/
def body (b : Blocks) : Rule (List Stmt) :=
  op ":" *> b.block

/-- An `else` clause, if there is one. -/
def orElse (b : Blocks) : Rule (List Stmt) := do
  if ← hasKeyword "else" then b.body else return []

/-- A branch taken on a condition: its start, its condition and its body. -/
def guarded (b : Blocks) (word : String) : Rule (Position × Expr × List Stmt) := do
  let start ← here
  keyword word
  let test ← b.expressions.namedExpression
  return (start, test, ← b.body)

/-- An `if` with its further branches, each of which is the alternative of the one in front of
it. -/
def branch (b : Blocks) : Rule Stmt := do
  let (start, test, body) ← b.guarded "if"
  let branches ← many (b.guarded "elif")
  let last ← b.orElse
  let orelse ← branches.foldrM
    (fun (start, test, body) orelse => do return [.branch (← since start) test body orelse]) last
  return .branch (← since start) test body orelse

/-- A `while`. -/
def whileLoop (b : Blocks) : Rule Stmt := do
  let (start, test, body) ← b.guarded "while"
  let orelse ← b.orElse
  return .whileLoop (← since start) test body orelse

/-- A `for`, behind its first word if that is `async`. -/
def forLoop (b : Blocks) (start : Position) (isAsync : Bool) : Rule Stmt := do
  keyword "for"
  let target ← b.expressions.targets
  keyword "in"
  let iter ← b.expressions.starExpressions
  let body ← b.body
  let orelse ← b.orElse
  return .forLoop (← since start) target iter body orelse isAsync

/-- A context and its target. -/
def contextItem (b : Blocks) : Rule (WithItem Expr) := do
  let context ← b.expressions.expression
  let bound ← maybe (do
    keyword "as"
    let target ← b.expressions.target
    check (← ahead (oneOf [",", ")", ":"]))
    return target)
  return ⟨context, bound⟩

/-- The contexts of a `with`, in parentheses or not, up to its colon. -/
def contextItems (b : Blocks) : Rule (List (WithItem Expr)) :=
  (op "(" *> listed b.contextItem <* op ")" <* op ":") <|> (separated b.contextItem <* op ":")

/-- A `with`, behind its first word if that is `async`. -/
def context (b : Blocks) (start : Position) (isAsync : Bool) : Rule Stmt := do
  keyword "with"
  let items ← b.contextItems
  let body ← b.block
  return .context (← since start) items body isAsync

/-- An `except` clause. In a group clause the word is followed by a star. -/
def handler (b : Blocks) (group : Bool) : Rule (ExceptClause Expr Stmt) := do
  let start ← here
  keyword "except"
  if group then op "*"
  let type ← if group then some <$> b.expressions.expression else maybe b.expressions.expression
  let bound ← if type.isSome then (if ← hasKeyword "as" then some <$> name else pure none)
    else pure none
  let body ← b.body
  return ⟨← since start, type, bound, body⟩

/-- A `finally` clause, if there is one. -/
def finally? (b : Blocks) : Rule (List Stmt) := do
  if ← hasKeyword "finally" then b.body else return []

/-- A `try`. It has a handler or a `finally` clause, and an `else` clause only behind a handler. -/
def attempt (b : Blocks) : Rule Stmt := do
  let start ← here
  keyword "try"
  let body ← b.body
  let group ← ahead (keyword "except" *> op "*")
  let handlers ← many (b.handler group)
  let orelse ← if handlers.isEmpty then pure [] else b.orElse
  let final ← b.finally?
  check (!handlers.isEmpty || !final.isEmpty)
  return .attempt (← since start) body handlers orelse final

/-- A function, behind its first word if that is `async`. -/
def function (b : Blocks) (start : Position) (isAsync : Bool) (decorators : List Expr) :
    Rule Stmt := do
  keyword "def"
  let id ← name
  op "("
  let params ← b.expressions.parameters true
  op ")"
  let returns ← if ← hasOp "->" then some <$> b.expressions.expression else pure none
  let body ← b.body
  return .functionDef (← since start) id params returns body decorators isAsync

/-- A class. -/
def class? (b : Blocks) (decorators : List Expr) : Rule Stmt := do
  let start ← here
  keyword "class"
  let id ← name
  let arguments ← if ← hasOp "(" then b.expressions.arguments else pure []
  let body ← b.body
  return .classDef (← since start) id (Nested.positionals arguments)
    (Nested.byKeyword arguments) body decorators

/-- One decorator on a line of its own. -/
def decorator (b : Blocks) : Rule Expr :=
  op "@" *> b.expressions.namedExpression <* layout .newline

/-- A function or class with its decorators. -/
def definition (b : Blocks) : Rule Stmt := do
  let decorators ← many b.decorator
  b.class? decorators <|> (do
    let start ← here
    let isAsync ← hasKeyword "async"
    b.function start isAsync decorators)

/-- A loop or context that may be asynchronous. -/
def asyncable (b : Blocks) : Rule Stmt := do
  let start ← here
  let isAsync ← hasKeyword "async"
  b.forLoop start isAsync <|> b.context start isAsync

/-- One case of a `match`. -/
def case (b : Blocks) : Rule Unit := do
  softKeyword "case"
  b.patterns.top
  if ← hasKeyword "if" then
    let _ ← b.expressions.namedExpression
  let _ ← b.body

/-- A `match`. -/
def matching (b : Blocks) : Rule Stmt := do
  let start ← here
  softKeyword "match"
  let first ← b.expressions.element
  if ← hasOp "," then
    let _ ← maybe (listed b.expressions.element)
  else check (!Nested.isStarred first)
  op ":"
  layout .newline
  layout .indent
  let _ ← many1 b.case
  layout .dedent
  return .matching (← since start)

/-- A statement with blocks. -/
def compound (b : Blocks) : Rule Stmt :=
  b.definition <|> b.branch <|> b.asyncable <|> b.attempt <|> b.whileLoop <|> b.matching

/-- One compound statement, or the simple statements of one line. -/
def statement (b : Blocks) : Rule (List Stmt) :=
  (do return [← b.compound]) <|> b.simpleLine

/-- At least one statement. -/
def statements (b : Blocks) : Rule (List Stmt) := do
  return (← many1 b.statement).flatten

/-- An indented block, or the simple statements behind a colon. -/
def blockRule (b : Blocks) : Rule (List Stmt) :=
  (do
    layout .newline
    layout .indent
    let found ← b.statements
    layout .dedent
    return found)
    <|> b.simpleLine

/-- The rules for statements nested at most `depth` deep, with the given rules for expressions. -/
def upTo (expressions : Nested) (patterns : Patterns) : (depth : Nat) → Blocks
  | 0 => ⟨expressions, patterns, fail⟩
  | depth + 1 => ⟨expressions, patterns, (upTo expressions patterns depth).blockRule⟩

/-- All statements of a text, up to its end. -/
def module (b : Blocks) : Rule Module := do
  let body ← many b.statement
  layout .endOfText
  return ⟨body.flatten⟩

end Blocks

/-- Why a text is not a module. -/
inductive ParseFailure where
  | refused (r : Token.Refused)
  | ungrammatical

/-- The module that some tokens spell. `depth` bounds how deep its parts are nested. -/
def Module.ofTokens? (depth : Nat) (tokens : List Token) : Option Module :=
  let expressions := Nested.upTo depth
  let patterns := Patterns.upTo expressions depth
  ((Blocks.upTo expressions patterns depth).module.run (Input.ofTokens tokens)).map Prod.fst

/-- The module that a text spells. No part of it is nested deeper than the text has characters. -/
def Module.parse (text : String) : Except ParseFailure Module :=
  match Token.scan text with
  | .error r => .error (.refused r)
  | .ok tokens =>
    match Module.ofTokens? (text.length + 2) tokens with
    | none => .error .ungrammatical
    | some m => .ok m

end Lineage.Grammar
