import Lineage.Grammar.Expression

/-!
Rules for the patterns of `match` statements. Nothing is kept of a pattern: the rules only tell
whether one stands there.
-/

namespace Lineage.Grammar

/-- The rules for patterns, given those for nested expressions and for nested patterns. -/
structure Patterns where
  nested : Nested
  inner : Rule Unit

namespace Patterns

open Rule

/-- The name a pattern captures under. -/
def capture : Rule Unit := do
  let id ← name
  check (id != "_")
  check !(← ahead (oneOf [".", "(", "="]))

/-- A number of the wanted kind: imaginary or not. -/
def numberOf (imaginary : Bool) : Rule Unit := do
  let t ← token fun t => t.kind == .number
  match Literal.ofNumber? t.text.toList with
  | some (.complex ..) => check imaginary
  | some _ => check !imaginary
  | none => fail

/-- A number, perhaps negative, or a sum of a real and an imaginary one. -/
def number : Rule Unit := do
  let _ ← hasOp "-"
  (do numberOf false; let _ ← oneOf ["+", "-"]; numberOf true)
    <|> (do (numberOf false <|> numberOf true); check !(← ahead (oneOf ["+", "-"])))

/-- A literal. -/
def literal (p : Patterns) : Rule Unit :=
  number <|> (p.nested.strings *> pure ()) <|> keyword "None" <|> keyword "True" <|> keyword "False"

/-- A name and the attributes behind it; tells whether there are any. -/
def dotted : Rule Bool := do
  let _ ← name
  let attrs ← many (op "." *> name)
  return !attrs.isEmpty

/-- A pattern or a star with the name that takes the remaining items. Tells whether it is
starred. -/
def starrable (p : Patterns) : Rule Bool := do
  if ← hasOp "*" then
    softKeyword "_" <|> capture
    return true
  p.inner
  return false

/-- A group or a sequence in parentheses. -/
def parenthesized (p : Patterns) : Rule Unit := do
  op "("
  if ← hasOp ")" then return
  let starred ← p.starrable
  if ← hasOp "," then
    let _ ← maybe (listed p.starrable)
    op ")"
  else
    check !starred
    op ")"

/-- A sequence in brackets. -/
def bracketed (p : Patterns) : Rule Unit := do
  op "["
  let _ ← maybe (listed p.starrable)
  op "]"

/-- An entry of a mapping; tells whether it takes the remaining entries. -/
def entry (p : Patterns) : Rule Bool := do
  if ← hasOp "**" then
    capture
    return true
  p.literal <|> (do check (← dotted))
  op ":"
  p.inner
  return false

/-- A mapping. -/
def braced (p : Patterns) : Rule Unit := do
  op "\x7b"
  let entries ← maybe (listed p.entry)
  check (!(entries.getD []).dropLast.any id)
  op "\x7d"

/-- An argument of a class pattern; tells whether it is given by keyword. -/
def argument (p : Patterns) : Rule Bool := do
  let word ← maybe (name <* op "=")
  p.inner
  return word.isSome

/-- A name: a capture, a value with attributes, or a class with its arguments. -/
def named (p : Patterns) : Rule Unit := do
  let _ ← dotted
  if ← hasOp "(" then
    let arguments ← maybe (listed p.argument)
    check (!((arguments.getD []).dropWhile (!·)).any (!·))
    op ")"
  else check !(← ahead (oneOf [".", "(", "="]))

/-- A pattern without alternatives. -/
def closed (p : Patterns) : Rule Unit :=
  p.literal <|> p.named <|> p.parenthesized <|> p.bracketed <|> p.braced

/-- Alternatives, perhaps captured as a whole. -/
def pattern (p : Patterns) : Rule Unit := do
  p.closed
  let _ ← many (op "|" *> p.closed)
  if ← hasKeyword "as" then capture

/-- What stands behind `case`: a pattern, or several with commas. -/
def top (p : Patterns) : Rule Unit := do
  let starred ← (do
    if ← hasOp "*" then
      softKeyword "_" <|> capture
      return true
    p.pattern
    return false)
  if ← hasOp "," then
    let _ ← maybe (listed ({ p with inner := p.pattern } : Patterns).starrable)
  else check !starred

/-- The rules for patterns nested at most `depth` deep. -/
def upTo (nested : Nested) : (depth : Nat) → Patterns
  | 0 => ⟨nested, fail⟩
  | depth + 1 => ⟨nested, (upTo nested depth).pattern⟩

end Patterns

end Lineage.Grammar
