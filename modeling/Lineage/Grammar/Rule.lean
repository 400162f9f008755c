import Lineage.Grammar.Stmt
import Lineage.Token.Basic

/-!
Rules of the grammar. A rule reads tokens from the front of its input and gives back what they say,
or fails and leaves the input to another rule. Alternatives are tried in order, and the first that
succeeds is taken.
-/

namespace Lineage.Grammar

/-- Tokens still to be read, how many they are, and the end of the last token read that is no
layout. -/
structure Input where
  rest : List Token
  left : Nat
  last : Position

/-- The input that holds all of some tokens. -/
def Input.ofTokens (ts : List Token) : Input :=
  ⟨ts, ts.length, Position.start⟩

/-- A rule that reads an `α`. -/
abbrev Rule (α : Type) := StateT Input Option α

namespace Rule

/-- Always fails. -/
def fail {α : Type} : Rule α := fun _ => none

/-- Succeeds, reading nothing, if the condition holds. -/
def check (condition : Bool) : Rule Unit := fun s =>
  if condition then some ((), s) else none

/-- Reads one token that satisfies `accepts`. -/
def token (accepts : Token → Bool) : Rule Token := fun s =>
  match s.rest with
  | [] => none
  | t :: rest =>
    if accepts t then some (t, ⟨rest, s.left - 1, if t.isLayout then s.last else t.stop⟩) else none

/-- Reads an operator or delimiter. -/
def op (text : String) : Rule Unit := do
  let _ ← token fun t => t.kind == .operator && t.text == text

/-- Reads one of some operators and tells which. -/
def oneOf (texts : List String) : Rule String := do
  let t ← token fun t => t.kind == .operator && texts.contains t.text
  pure t.text

/-- Reads a keyword. -/
def keyword (text : String) : Rule Unit := do
  let _ ← token fun t => t.kind == .keyword && t.text == text

/-- Reads a word that is a keyword only here. -/
def softKeyword (text : String) : Rule Unit := do
  let _ ← token fun t => t.kind == .name && t.text == text

/-- Reads a name. -/
def name : Rule String := do
  let t ← token fun t => t.kind == .name
  pure t.text

/-- Reads a layout token. -/
def layout (kind : Token.Kind) : Rule Unit := do
  let _ ← token fun t => t.kind == kind

/-- Where the next token starts. -/
def here : Rule Position := fun s =>
  some ((s.rest.head?.map Token.start).getD s.last, s)

/-- From a given point to the end of what has been read. -/
def since (start : Position) : Rule Location := fun s =>
  some (start.upTo s.last, s)

/-- Whether the rule would succeed; reads nothing. -/
def ahead {α : Type} (r : Rule α) : Rule Bool := fun s =>
  some ((r s).isSome, s)

/-- Reads by the rule if it succeeds. -/
def maybe {α : Type} (r : Rule α) : Rule (Option α) := fun s =>
  match r s with
  | none => some (none, s)
  | some (a, t) => some (some a, t)

/-- Whether the next token is the operator; reads it if so. -/
def hasOp (text : String) : Rule Bool := do
  return (← maybe (op text)).isSome

/-- Whether the next token is the keyword; reads it if so. -/
def hasKeyword (text : String) : Rule Bool := do
  return (← maybe (keyword text)).isSome

/-- All that can be read by repeating a rule; stops when it fails or reads nothing. -/
def repeats {α : Type} (r : Rule α) (s : Input) : List α × Input :=
  match r s with
  | none => ([], s)
  | some (a, t) =>
    if t.left < s.left then
      let more := repeats r t
      (a :: more.1, more.2)
    else ([a], t)
termination_by s.left

/-- Any number of repetitions. -/
def many {α : Type} (r : Rule α) : Rule (List α) := fun s =>
  some (repeats r s)

/-- At least one repetition. -/
def many1 {α : Type} (r : Rule α) : Rule (List α) := do
  let first ← r
  return first :: (← many r)

/-- At least one, with commas between. -/
def separated {α : Type} (r : Rule α) : Rule (List α) := do
  let first ← r
  return first :: (← many (op "," *> r))

/-- At least one, with commas between and perhaps one behind. -/
def listed {α : Type} (r : Rule α) : Rule (List α) := do
  let items ← separated r
  let _ ← hasOp ","
  return items

end Rule

end Lineage.Grammar
