import Lineage.Text.Blank
import Lineage.Text.Dedent
import Lineage.Text.Word

/-!
Prompts pasted in front of code from an interactive session. There are two kinds: arrows with dots
on the lines that go on, as in documentation, and numbered prompts of a notebook's terminal.
-/

namespace Lineage.Magic

open Lineage.Text

/-- What is behind some text in front of a line. -/
def afterFront (front line : List Char) : Option (List Char) :=
  if front.isPrefixOf line then some (line.drop front.length) else none

/-- Drops one space or tab in front. -/
def dropIndent : List Char → List Char
  | c :: rest => if isIndent c then rest else c :: rest
  | [] => []

/-- What is behind the arrow prompt. -/
def afterArrow (line : List Char) : Option (List Char) :=
  (afterFront ['>', '>', '>'] (trimStart line)).map dropIndent

/-- What is behind the dots of a line that goes on. -/
def afterDots (line : List Char) : Option (List Char) :=
  (afterFront ['.', '.', '.'] (trimStart line)).map dropIndent

/-- The letters that may stand in front of a string. -/
def isStringLetter (c : Char) : Bool :=
  ['r', 'u', 'b', 'f'].contains c.toLower

/-- Three quotes in front of a text, and what is behind them. -/
def afterTripleQuote : List Char → Option (List Char × List Char)
  | '\'' :: '\'' :: '\'' :: rest => some (['\'', '\'', '\''], rest)
  | '"' :: '"' :: '"' :: rest => some (['"', '"', '"'], rest)
  | _ => none

/-- A string in triple quotes that starts a line, perhaps behind a prompt: whether there is a
prompt, the quotes, and what is behind them. -/
def openedString (line : List Char) : Option (Bool × List Char × List Char) :=
  let prompted := (afterArrow line).orElse fun _ => afterDots line
  let rest := (trimStart (prompted.getD line)).dropWhile isStringLetter
  (afterTripleQuote rest).map fun (quotes, behind) => (prompted.isSome, quotes, behind)

/-- Whether some text occurs in another. -/
def occursIn (text : List Char) : List Char → Bool
  | [] => text.isEmpty
  | c :: rest => text.isPrefixOf (c :: rest) || occursIn text rest

/-- Marks the lines that belong to strings in triple quotes, in which nothing is a prompt. A string
behind a prompt is part of a session if an arrow came before it, and is then not marked. `quotes`
closes the string around the first line, and `arrow` tells whether an arrow came before. -/
def markStrings (quotes : Option (List Char)) (arrow : Bool) :
    List (List Char) → List (Bool × List Char)
  | [] => []
  | line :: rest =>
    match quotes with
    | some q => (true, line) :: markStrings (if occursIn q line then none else some q) arrow rest
    | none =>
      let plain := (false, line) :: markStrings none (arrow || (afterArrow line).isSome) rest
      match openedString line with
      | none => plain
      | some (prompted, q, behind) =>
        if prompted && arrow then plain
        else (true, line) :: markStrings (if occursIn q behind then none else some q) arrow rest

/-- Joins lines that are marked and stand together. -/
def joinMarked : List (Bool × List Char) → List (Bool × List Char)
  | [] => []
  | (false, line) :: rest => (false, line) :: joinMarked rest
  | (true, line) :: rest =>
    match joinMarked rest with
    | (true, more) :: lines => (true, line ++ more) :: lines
    | lines => (true, line) :: lines

/-- Takes an arrow or dots off a line that is in no string, and tells whether there were any. -/
def dropArrow : Bool × List Char → Bool × List Char
  | (true, line) => (false, line)
  | (false, line) =>
    match (afterArrow line).orElse fun _ => afterDots line with
    | none => (false, line)
    | some rest => (true, rest)

/-- Takes arrows and dots off if there is an arrow. Lines that lost them and stand together are
dedented anew. -/
def dropArrows (lines : List (List Char)) : List (List Char) :=
  let marked := markStrings none false lines
  if marked.any fun (inString, line) => !inString && (afterArrow line).isSome then
    (joinMarked (marked.map dropArrow)).flatMap fun (dropped, text) =>
      if dropped then keptLines (dedent text) else [text]
  else lines

/-- What is behind the number and the bracket of a numbered prompt. -/
def afterNumber (cs : List Char) : Option (List Char) :=
  if cs.head?.any isDecimalDigit then afterFront [']', ':', ' '] (cs.dropWhile isDecimalDigit)
    else none

/-- The marks of an editing mode in front of a numbered prompt. -/
def editingModes : List (List Char) :=
  ["[nav] ".toList, "[ins] ".toList, " ".toList, []]

/-- What is behind a numbered prompt. -/
def afterNumbered (line : List Char) : Option (List Char) :=
  editingModes.findSome? fun mode =>
    (afterFront mode line).bind fun rest => (afterFront "In [".toList rest).bind afterNumber

/-- What is behind the dots and the colon of a line that goes on under a numbered prompt. -/
def afterDottedColon (line : List Char) : Option (List Char) :=
  let rest := trimStart line
  if (rest.takeWhile (· == '.')).length < 3 then none
  else
    match rest.dropWhile (· == '.') with
    | ':' :: ' ' :: more => some more
    | ':' :: more => some more
    | _ => none

/-- What is behind a prompt of a notebook's terminal. -/
def afterPrompt (line : List Char) : Option (List Char) :=
  (afterNumbered line).orElse fun _ => afterDottedColon line

/-- Takes numbered prompts off if one of the first two lines has one. -/
def dropNumbered (lines : List (List Char)) : List (List Char) :=
  if (lines.take 2).any fun line => (afterPrompt line).isSome then
    lines.map fun line => (afterPrompt line).getD line
  else lines

end Lineage.Magic
