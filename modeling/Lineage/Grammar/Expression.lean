import Lineage.Grammar.Target
import Lineage.Grammar.Text
import Lineage.Token.Scan

/-!
Rules for expressions, from atoms up to lists of starred expressions. The rules that an expression
needs for the expressions inside it are given to them as a `Nested`, which the whole grammar ties
together.
-/

namespace Lineage.Grammar

/-- The rules for what is nested in an expression. Each is only used after a token has been read,
apart from `replacement`, which reads the text of an expression inside a string. -/
structure Nested where
  expression : Rule Expr
  disjunction : Rule Expr
  inversion : Rule Expr
  bitwiseOr : Rule Expr
  factor : Rule Expr
  primary : Rule Expr
  replacement : List Char → Position → Option Expr

namespace Nested

open Rule

/-- No rules at all. -/
def nothing : Nested :=
  ⟨fail, fail, fail, fail, fail, fail, fun _ _ => none⟩

/-- Whether a name and `:=` come next. -/
def namedAhead : Rule Bool :=
  ahead (name *> op ":=")

/-- An assignment expression. -/
def assignment (n : Nested) : Rule Expr := do
  let start ← here
  let id ← name
  let target := Expr.name (← since start) id
  op ":="
  let value ← n.expression
  return .named (← since start) target value

/-- An expression or an assignment expression. -/
def namedExpression (n : Nested) : Rule Expr := do
  if ← namedAhead then n.assignment else n.expression

/-- A star and what it unpacks. -/
def starred (value : Rule Expr) : Rule Expr := do
  let start ← here
  op "*"
  let value ← value
  return .starred (← since start) value

/-- An element of a display: starred, named or plain. -/
def element (n : Nested) : Rule Expr := do
  if ← ahead (op "*") then starred n.bitwiseOr else n.namedExpression

/-- A plain or starred expression. -/
def starExpression (n : Nested) : Rule Expr := do
  if ← ahead (op "*") then starred n.bitwiseOr else n.expression

/-- One expression, or a tuple if there is a comma. -/
def tupled (item : Rule Expr) : Rule Expr := do
  let start ← here
  let first ← item
  let rest ← many (op "," *> item)
  let trailing ← hasOp ","
  if rest.isEmpty && !trailing then return first
  return .tuple (← since start) (first :: rest)

/-- Plain or starred expressions with commas between. -/
def starExpressions (n : Nested) : Rule Expr :=
  tupled n.starExpression

/-- A `yield`. -/
def yielding (n : Nested) : Rule Expr := do
  let start ← here
  keyword "yield"
  if ← hasKeyword "from" then
    let value ← n.expression
    return .yieldFrom (← since start) value
  let value ← maybe n.starExpressions
  return .yield (← since start) value

/-- What may stand on the right of an assignment. -/
def assigned (n : Nested) : Rule Expr := do
  if ← ahead (keyword "yield") then n.yielding else n.starExpressions

/-- A target, perhaps starred. -/
def target (n : Nested) : Rule Expr := do
  let e ← if ← ahead (op "*") then starred n.primary else n.primary
  check e.isTarget
  return e

/-- The targets of a loop. -/
def targets (n : Nested) : Rule Expr :=
  tupled n.target

/-- Whether another `for` of a comprehension comes next. -/
def forAhead : Rule Bool :=
  ahead (maybe (keyword "async") *> keyword "for")

/-- One `for` of a comprehension with its conditions. -/
def generator (n : Nested) : Rule (Generator Expr) := do
  let isAsync ← hasKeyword "async"
  keyword "for"
  let target ← n.targets
  keyword "in"
  let iter ← n.disjunction
  let conditions ← many (keyword "if" *> n.disjunction)
  return ⟨target, iter, conditions, isAsync⟩

/-- Whether an expression is starred. -/
def isStarred : Expr → Bool
  | .starred .. => true
  | _ => false

/-- A tuple, a generator or an expression in parentheses. -/
def parenthesized (n : Nested) : Rule Expr := do
  let start ← here
  op "("
  if ← hasOp ")" then return .tuple (← since start) []
  if ← ahead (keyword "yield") then
    let e ← n.yielding
    op ")"
    return e
  let first ← n.element
  if ← forAhead then
    check (!isStarred first)
    let generators ← many1 n.generator
    op ")"
    return .comprehension (← since start) .generator first none generators
  if ← hasOp "," then
    let rest ← maybe (listed n.element)
    op ")"
    return .tuple (← since start) (first :: rest.getD [])
  check (!isStarred first)
  op ")"
  return first

/-- A list or a list comprehension. -/
def bracketed (n : Nested) : Rule Expr := do
  let start ← here
  op "["
  if ← hasOp "]" then return .list (← since start) []
  let first ← n.element
  if ← forAhead then
    check (!isStarred first)
    let generators ← many1 n.generator
    op "]"
    return .comprehension (← since start) .list first none generators
  let rest ← many (op "," *> n.element)
  let _ ← hasOp ","
  op "]"
  return .list (← since start) (first :: rest)

/-- An entry of a dictionary. -/
def entry (n : Nested) : Rule (Entry Expr) := do
  if ← hasOp "**" then return ⟨none, ← n.bitwiseOr⟩
  let key ← n.expression
  op ":"
  return ⟨some key, ← n.expression⟩

/-- The rest of a dictionary behind its first entry. -/
def dictRest (n : Nested) (start : Position) (first : Entry Expr) : Rule Expr := do
  let rest ← many (op "," *> n.entry)
  let _ ← hasOp ","
  op "\x7d"
  let entries := first :: rest
  return .dict (← since start) (entries.map Entry.key) (entries.map Entry.value)

/-- The rest of a set behind its first element. -/
def setRest (n : Nested) (start : Position) (first : Expr) : Rule Expr := do
  if ← forAhead then
    check (!isStarred first)
    let generators ← many1 n.generator
    op "\x7d"
    return .comprehension (← since start) .set first none generators
  let rest ← many (op "," *> n.element)
  let _ ← hasOp ","
  op "\x7d"
  return .set (← since start) (first :: rest)

/-- A dictionary, a set or a comprehension of one. -/
def braced (n : Nested) : Rule Expr := do
  let start ← here
  op "\x7b"
  if ← hasOp "\x7d" then return .dict (← since start) [] []
  if ← ahead (op "**") then n.dictRest start (← n.entry)
  else if (← ahead (op "*")) || (← namedAhead) then n.setRest start (← n.element)
  else
    let first ← n.expression
    if ← hasOp ":" then
      let value ← n.expression
      if ← forAhead then
        let generators ← many1 n.generator
        op "\x7d"
        return .comprehension (← since start) .dict first (some value) generators
      n.dictRest start ⟨some first, value⟩
    else n.setRest start first

/-- A number. -/
def numeral : Rule Expr := do
  let start ← here
  let t ← token fun t => t.kind == .number
  match Literal.ofNumber? t.text.toList with
  | none => fail
  | some value => return .constant (← since start) value

/-- Neighbouring string literals. -/
def strings (n : Nested) : Rule Expr := do
  let start ← here
  let tokens ← many1 (token fun t => t.kind == .string)
  match stringExpr n.replacement (← since start) tokens with
  | none => fail
  | some e => return e

/-- A constant written as a word. -/
def constant (word : String) (value : Literal) : Rule Expr := do
  let start ← here
  keyword word
  return .constant (← since start) value

/-- An atom. -/
def atom (n : Nested) : Rule Expr := do
  let start ← here
  (do let id ← name; return .name (← since start) id)
    <|> n.parenthesized <|> n.bracketed <|> n.braced <|> numeral <|> n.strings
    <|> constant "None" .nil <|> constant "True" (.bool true) <|> constant "False" (.bool false)
    <|> (do op "..."; return .constant (← since start) .ellipsis)

/-- An argument of a call. -/
inductive Argument where
  | positional (e : Expr)
  | unpacked (e : Expr)
  | keyword (k : Keyword Expr)
  | unpackedMapping (e : Expr)

/-- One argument. -/
def argument (n : Nested) : Rule Argument := do
  if ← ahead (op "*") then return .unpacked (← starred n.expression)
  if ← hasOp "**" then return .unpackedMapping (← n.expression)
  match ← maybe (name <* op "=") with
  | some word => return .keyword ⟨some word, ← n.expression⟩
  | none => return .positional (← n.namedExpression)

/-- Whether arguments stand in an order that a call admits: a plain one never behind a keyword, and
behind an unpacked mapping only keywords and such mappings. -/
def inOrder (keywords mappings : Bool) : List Argument → Bool
  | [] => true
  | .positional _ :: rest => !keywords && !mappings && inOrder keywords mappings rest
  | .unpacked _ :: rest => !mappings && inOrder keywords mappings rest
  | .keyword _ :: rest => inOrder true mappings rest
  | .unpackedMapping _ :: rest => inOrder keywords true rest

/-- The arguments by position. -/
def positionals (as : List Argument) : List Expr :=
  as.filterMap fun
    | .positional e | .unpacked e => some e
    | _ => none

/-- The arguments by keyword. -/
def byKeyword (as : List Argument) : List (Keyword Expr) :=
  as.filterMap fun
    | .keyword k => some k
    | .unpackedMapping e => some ⟨none, e⟩
    | _ => none

/-- The arguments of a call, up to its closing parenthesis. -/
def arguments (n : Nested) : Rule (List Argument) := do
  if ← hasOp ")" then return []
  let found ← listed n.argument
  check (inOrder false false found)
  op ")"
  return found

/-- The inside of a call. A generator needs no parentheses of its own if it is the only argument. -/
def called (n : Nested) : Rule (List Expr × List (Keyword Expr)) := do
  let start ← here
  op "("
  if ← hasOp ")" then return ([], [])
  let first ← n.argument
  match first, ← forAhead with
  | .positional element, true =>
    let generators ← many1 n.generator
    op ")"
    return ([.comprehension (← since start) .generator element none generators], [])
  | _, _ =>
    let rest ← many (op "," *> n.argument)
    let _ ← hasOp ","
    check (inOrder false false (first :: rest))
    op ")"
    return (positionals (first :: rest), byKeyword (first :: rest))

/-- One part of a subscript: a slice, a starred or a plain expression. -/
def subscriptPart (n : Nested) : Rule Expr := do
  if ← ahead (op "*") then starred n.expression
  else if ← namedAhead then n.assignment
  else
    let start ← here
    let lower ← maybe n.expression
    if ← hasOp ":" then
      let upper ← maybe n.expression
      let step ← if ← hasOp ":" then maybe n.expression else pure none
      return .slice (← since start) lower upper step
    else
      match lower with
      | some e => return e
      | none => fail

/-- What stands between the brackets of a subscript. -/
def subscript (n : Nested) : Rule Expr := do
  let start ← here
  let first ← n.subscriptPart
  let rest ← many (op "," *> n.subscriptPart)
  let trailing ← hasOp ","
  if rest.isEmpty && !trailing && !isStarred first then return first
  return .tuple (← since start) (first :: rest)

/-- What follows an atom: an attribute, a call or a subscript. -/
inductive Suffix where
  | member (attr : String)
  | call (args : List Expr) (keywords : List (Keyword Expr))
  | subscript (index : Expr)

/-- One suffix, with the end of what has been read after it. -/
def suffix (n : Nested) (start : Position) : Rule (Suffix × Location) := do
  let found ←
    (do op "."; return Suffix.member (← name))
      <|> (do let (args, keywords) ← n.called; return Suffix.call args keywords)
      <|> (do op "["; let index ← n.subscript; op "]"; return Suffix.subscript index)
  return (found, ← since start)

/-- Hangs a suffix on an expression. -/
def Suffix.apply (e : Expr) : Suffix × Location → Expr
  | (.member attr, loc) => .member loc e attr
  | (.call args keywords, loc) => .call loc e args keywords
  | (.subscript index, loc) => .subscript loc e index

/-- An atom with its suffixes. -/
def primaryRule (n : Nested) : Rule Expr := do
  let start ← here
  let first ← n.atom
  let suffixes ← many (n.suffix start)
  return suffixes.foldl Suffix.apply first

/-- A primary, perhaps awaited. -/
def awaited (n : Nested) : Rule Expr := do
  let start ← here
  if ← hasKeyword "await" then
    let value ← n.primaryRule
    return .await (← since start) value
  n.primaryRule

/-- A power. -/
def power (n : Nested) : Rule Expr := do
  let start ← here
  let base ← n.awaited
  if ← hasOp "**" then
    let exponent ← n.factor
    return .binary (← since start) "**" base exponent
  return base

/-- A signed or inverted power. -/
def factorRule (n : Nested) : Rule Expr := do
  let start ← here
  match ← maybe (oneOf ["+", "-", "~"]) with
  | some sign =>
    let operand ← n.factor
    return .unary (← since start) sign operand
  | none => n.power

/-- Operands joined to the left by some operators. -/
def joined (operand : Rule Expr) (operators : List String) : Rule Expr := do
  let start ← here
  let first ← operand
  let rest ← many (do
    let op ← oneOf operators
    let right ← operand
    return (op, right, ← since start))
  return rest.foldl (fun left (op, right, loc) => .binary loc op left right) first

/-- Everything that binds closer than a comparison. -/
def bitwiseOrRule (n : Nested) : Rule Expr :=
  let term := joined n.factorRule ["*", "/", "//", "%", "@"]
  let sum := joined term ["+", "-"]
  let shift := joined sum ["<<", ">>"]
  let both := joined shift ["&"]
  let either := joined both ["^"]
  joined either ["|"]

/-- The sign of a comparison. -/
def comparator : Rule String :=
  oneOf ["==", "!=", "<=", "<", ">=", ">"]
    <|> (keyword "in" *> pure "in")
    <|> (keyword "not" *> keyword "in" *> pure "not in")
    <|> (do
      keyword "is"
      if ← hasKeyword "not" then return "is not"
      return "is")

/-- A chain of comparisons. -/
def comparison (n : Nested) : Rule Expr := do
  let start ← here
  let left ← n.bitwiseOrRule
  let rest ← many (do
    let sign ← comparator
    return (sign, ← n.bitwiseOrRule))
  if rest.isEmpty then return left
  return .compare (← since start) left (rest.map Prod.fst) (rest.map Prod.snd)

/-- A comparison, perhaps negated. -/
def inversionRule (n : Nested) : Rule Expr := do
  let start ← here
  if ← hasKeyword "not" then
    let operand ← n.inversion
    return .unary (← since start) "not" operand
  n.comparison

/-- Operands with one word between them all. -/
def chained (operand : Rule Expr) (word : String) : Rule Expr := do
  let start ← here
  let first ← operand
  let rest ← many (keyword word *> operand)
  if rest.isEmpty then return first
  return .boolean (← since start) word first rest

/-- Conditions joined by `and` and `or`. -/
def disjunctionRule (n : Nested) : Rule Expr :=
  chained (chained n.inversionRule "and") "or"

/-- A parameter as it is read: a parameter with its default, the end of those given by position
only, or a star, perhaps with the parameter that takes the remaining arguments. -/
inductive Parameter where
  | plain (arg : Arg Expr) (default : Option Expr)
  | slash
  | star (arg : Option (Arg Expr))
  | doubleStar (arg : Arg Expr)

/-- A name with its annotation, where annotations are admitted. -/
def annotated (hint : Option (Rule Expr)) : Rule (Arg Expr) := do
  let id ← name
  let note ← match hint with
    | none => pure none
    | some rule => if ← hasOp ":" then some <$> rule else pure none
  return ⟨id, note⟩

/-- One parameter. -/
def parameter (n : Nested) (annotates : Bool) : Rule Parameter := do
  let plainNote := if annotates then some n.expression else none
  let starNote := if annotates then some n.starExpression else none
  if ← hasOp "/" then return .slash
  if ← hasOp "**" then return .doubleStar (← annotated plainNote)
  if ← hasOp "*" then return .star (← maybe (annotated starNote))
  let arg ← annotated plainNote
  if ← hasOp "=" then return .plain arg (some (← n.expression))
  return .plain arg none

/-- Whether parameters stand in an order that a definition admits. `before` tells whether a
parameter has been seen, `defaulted` whether one with a default, `slash` and `star` whether these
have been seen. -/
def parametersInOrder (before defaulted slash star : Bool) : List Parameter → Bool
  | [] => true
  | .plain _ default :: rest =>
    (star || default.isSome || !defaulted) &&
      parametersInOrder true (defaulted || default.isSome) slash star rest
  | .slash :: rest => before && !slash && !star && parametersInOrder before defaulted true star rest
  | .star (some _) :: rest => !star && parametersInOrder before defaulted slash true rest
  | .star none :: rest =>
    !star && (match rest with
      | .plain .. :: _ => parametersInOrder before defaulted slash true rest
      | _ => false)
  | .doubleStar _ :: rest => rest.isEmpty

namespace Parameter

/-- Whether a star ends the parameters that are given by position. -/
def isStar : Parameter → Bool
  | star _ => true
  | _ => false

/-- Whether it ends the parameters that are given by position only. -/
def isSlash : Parameter → Bool
  | slash => true
  | _ => false

/-- A plain parameter with its default. -/
def plain? : Parameter → Option (Arg Expr × Option Expr)
  | plain arg default => some (arg, default)
  | _ => none

/-- The parameter behind a star. -/
def starArg? : Parameter → Option (Arg Expr)
  | star arg => arg
  | _ => none

/-- The parameter behind two stars. -/
def doubleStarArg? : Parameter → Option (Arg Expr)
  | doubleStar arg => some arg
  | _ => none

end Parameter

/-- What has been read, told apart by the slash and the star. -/
def gathered (ps : List Parameter) : Arguments Expr :=
  let front := ps.takeWhile fun p => !p.isStar
  let positional := front.filterMap Parameter.plain?
  let only :=
    if front.any Parameter.isSlash then (front.takeWhile fun p => !p.isSlash).filterMap
      Parameter.plain? else []
  let named := (ps.dropWhile fun p => !p.isStar).filterMap Parameter.plain?
  { posonly := only.map Prod.fst
    args := (positional.drop only.length).map Prod.fst
    vararg := ps.findSome? Parameter.starArg?
    kwonly := named.map Prod.fst
    kwDefaults := named.map Prod.snd
    kwarg := ps.findSome? Parameter.doubleStarArg?
    defaults := positional.filterMap Prod.snd }

/-- The parameters of a definition, if there are any. -/
def parameters (n : Nested) (annotates : Bool) : Rule (Arguments Expr) := do
  let found ← maybe (listed (n.parameter annotates))
  let found := found.getD []
  check (parametersInOrder false false false false found)
  return gathered found

/-- A function without a name. -/
def lambda (n : Nested) : Rule Expr := do
  let start ← here
  keyword "lambda"
  let params ← n.parameters false
  op ":"
  let body ← n.expression
  return .lambda (← since start) params body

/-- The two alternatives of a conditional expression, behind its first. -/
def conditionalRest (n : Nested) : Rule (Expr × Expr) := do
  keyword "if"
  let test ← n.disjunctionRule
  keyword "else"
  return (test, ← n.expression)

/-- An expression. -/
def expressionRule (n : Nested) : Rule Expr := do
  if ← ahead (keyword "lambda") then n.lambda
  else
    let start ← here
    let body ← n.disjunctionRule
    match ← maybe n.conditionalRest with
    | none => return body
    | some (test, orelse) => return .conditional (← since start) test body orelse

/-- Reads the text of an expression that stands in braces at the given place. It is read as if the
braces were parentheses. -/
def replacementRule (n : Nested) (text : List Char) (brace : Position) : Option Expr :=
  match Token.scanFrom ('(' :: text ++ [')']) brace with
  | .error _ => none
  | .ok tokens => ((tupled (starExpression { n with expression := n.expressionRule })).run
      (Input.ofTokens tokens)).map Prod.fst

/-- The rules one level further out. -/
def outward (n : Nested) : Nested where
  expression := n.expressionRule
  disjunction := n.disjunctionRule
  inversion := n.inversionRule
  bitwiseOr := n.bitwiseOrRule
  factor := n.factorRule
  primary := n.primaryRule
  replacement := n.replacementRule

/-- The rules for expressions that are nested at most `depth` deep. -/
def upTo : (depth : Nat) → Nested
  | 0 => nothing
  | depth + 1 => (upTo depth).outward

end Nested

end Lineage.Grammar
