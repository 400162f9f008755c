import Lineage.Magic.Token
import Lineage.Text.Quoted

/-!
Lines that are no source but commands to the notebook: magics behind a percent sign, lines for the
system's shell, requests for help, and calls written without brackets. Each is found by its tokens
and replaced by the call that it stands for.
-/

namespace Lineage.Magic

open Lineage.Text

/-- Why the commands of a cell cannot be replaced. -/
inductive Obstacle where
  | misaligned
  | cutShort
  | endless
deriving DecidableEq, Repr

/-- A command that was found: what it is, and where it starts. A request for help at the end of a
line also has the line of its question mark. -/
inductive Command where
  | magicValue (line column : Nat)
  | shellValue (line column : Nat)
  | escaped (line column : Nat)
  | help (line column last : Nat)
deriving DecidableEq, Repr

namespace Command

/-- The line a command starts on. -/
def line : Command → Nat
  | magicValue line _ | shellValue line _ | escaped line _ | help line _ _ => line

/-- Whether a command goes before another: it starts on an earlier line, or on the same one and asks
for help. -/
def before (a b : Command) : Bool :=
  a.line < b.line || (a.line == b.line && match a, b with
    | help .., _ => true
    | _, help .. => false
    | _, _ => true)

end Command

/-- The first assignment sign outside brackets, and the tokens behind it. -/
def afterAssignment (depth : Nat) : List RoughToken → Option (RoughToken × List RoughToken)
  | [] => none
  | t :: rest =>
    if t.text = ['='] && depth = 0 then some (t, rest)
    else
      let step := bracketStep t.text
      afterAssignment (if 0 < step then depth + 1 else if step < 0 then depth - 1 else depth) rest

/-- The tokens that are assigned by a statement. A line that starts with the sign assigns
nothing. -/
def assignedTokens (lines : List (List Char)) (statement : List RoughToken) :
    Option (List RoughToken) :=
  (afterAssignment 0 statement).bind fun (sign, rest) =>
    if (lines[sign.line]?.map trimStart).getD [] |>.head? |>.any (· == '=') then none else some rest

/-- A magic that is assigned. -/
def magicValue? (lines : List (List Char)) (statement : List RoughToken) :
    Except Obstacle (Option Command) :=
  match assignedTokens lines statement with
  | some (sign :: rest) =>
    if sign.text = ['%'] then
      match rest with
      | [] => .error .cutShort
      | t :: _ => .ok (if t.kind = .name then some (.magicValue sign.line sign.column) else none)
    else .ok none
  | _ => .ok none

/-- A shell line that is assigned. -/
def shellValue? (lines : List (List Char)) (statement : List RoughToken) : Option Command :=
  match ((assignedTokens lines statement).getD []).dropWhile fun t =>
    t.kind = .stray && t.text.all isBlank with
  | t :: _ => if t.kind = .stray && t.text = ['!'] then some (.shellValue t.line t.column) else none
  | [] => none

/-- The first token of a statement behind the marks of blocks. -/
def firstToken? (statement : List RoughToken) : Option RoughToken :=
  statement.find? fun t => t.kind != .indent && t.kind != .dedent

/-- The signs that make a whole line a command. -/
def isEscape (text : List Char) : Bool :=
  [['!'], ['?'], ['%'], [','], [';'], ['/']].contains text

/-- A line that is a command. -/
def escaped? (statement : List RoughToken) : Option Command :=
  (firstToken? statement).bind fun t =>
    if isEscape t.text then some (.escaped t.line t.column) else none

/-- A request for help at the end of a line. -/
def help? (statement : List RoughToken) : Option Command :=
  match statement.reverse with
  | _ :: mark :: _ :: _ =>
    if mark.text = ['?'] then
      (firstToken? statement).map fun t => .help t.line t.column mark.line
    else none
  | _ => none

/-- The first magic that is assigned by one of some statements. -/
def firstMagicValue (lines : List (List Char)) : List (List RoughToken) →
    Except Obstacle (Option Command)
  | [] => .ok none
  | statement :: rest =>
    match magicValue? lines statement with
    | .ok none => firstMagicValue lines rest
    | found => found

/-- The first command of each sort, in the order in which they are to be replaced. -/
def commands (lines : List (List Char)) : Except Obstacle (List Command) := do
  let statements ← match statementTokens lines with
    | some statements => pure statements
    | none => throw .misaligned
  let magic ← firstMagicValue lines statements
  let shell := statements.findSome? (shellValue? lines)
  let escaped := statements.findSome? escaped?
  let help := statements.findSome? help?
  return (magic.toList ++ shell.toList ++ escaped.toList ++ help.toList).mergeSort Command.before

/-- Whether a line goes on behind its end. -/
def goesOn (line : List Char) : Bool :=
  ['\n', '\\'].isPrefixOf line.reverse

/-- The lines of a command that starts on the first of some lines, and the lines behind it. -/
def commandLines : List (List Char) → List (List Char) × List (List Char)
  | [] => ([], [])
  | line :: rest =>
    if goesOn line then
      let (more, behind) := commandLines rest
      (line :: more, behind)
    else ([line], rest)

/-- The text of a command on several lines: the backslashes go, and a space joins the lines. -/
def joinContinued : List (List Char) → List Char
  | [] => []
  | [line] => trimEnd line
  | line :: rest => (trimEnd line).dropLast ++ ' ' :: joinContinued rest

/-- Splits a text at its first space. -/
def splitAtSpace (cs : List Char) : List Char × List Char :=
  (cs.takeWhile (· != ' '), (cs.dropWhile (· != ' ')).drop 1)

/-- The words of a text. -/
def words : List Char → List (List Char)
  | [] => []
  | c :: rest =>
    if isBlank c then words rest
    else
      match rest with
      | [] => [[c]]
      | d :: _ =>
        if isBlank d then [c] :: words rest
        else
          match words rest with
          | [] => [[c]]
          | word :: more => (c :: word) :: more

/-- Puts a text between others. -/
def joinWith (separator : List Char) : List (List Char) → List Char
  | [] => []
  | [text] => text
  | text :: rest => text ++ separator ++ joinWith separator rest

/-- A call of the notebook with texts as arguments. -/
def notebookCall (method : String) (args : List (List Char)) : List Char :=
  "get_ipython().".toList ++ method.toList ++ '(' :: joinWith ", ".toList (args.map quoted) ++ [')']

/-- The call of a magic. -/
def magicCall (text : List Char) : List Char :=
  let (name, args) := splitAtSpace text
  notebookCall "run_line_magic" [name, args]

/-- The call that gives help on something; a doubled mark asks for more of it, and a star
searches. -/
def helpCall (target : List Char) (doubled : Bool) : List Char :=
  let method := if doubled then "pinfo2" else if target.contains '*' then "psearch" else "pinfo"
  notebookCall "run_line_magic" [method.toList, target]

/-- The help that a line which starts with a mark asks for. -/
def helpLine (target : List Char) (doubled : Bool) : List Char :=
  if target.isEmpty then notebookCall "show_usage" [] else helpCall target doubled

/-- The call that a line with a sign in front stands for. A slash needs the name of a function. -/
def escapedCall : List Char → Option (List Char)
  | '!' :: '!' :: text => some (notebookCall "getoutput" [text])
  | '!' :: text => some (notebookCall "system" [text])
  | '?' :: '?' :: text => some (helpLine text true)
  | '?' :: text => some (helpLine text false)
  | '%' :: text => some (magicCall text)
  | ',' :: text =>
    let (name, args) := splitAtSpace text
    some (name ++ "(\"".toList ++ joinWith "\", \"".toList (words args) ++ "\")".toList)
  | ';' :: text =>
    let (name, args) := splitAtSpace text
    some (name ++ "(\"".toList ++ args ++ "\")".toList)
  | '/' :: text =>
    let (name, args) := splitAtSpace text
    if name.isEmpty then none else some (name ++ '(' :: joinWith ", ".toList (words args) ++ [')'])
  | _ => some []

/-- Whether a character may stand in a name that help is asked for. -/
def isHelpChar (c : Char) : Bool :=
  isWordChar c || c == '*'

/-- Takes a name that help is asked for off the front. -/
def afterHelpName : List Char → Option (List Char)
  | c :: rest => if isHelpChar c && !isDecimalDigit c then some (rest.dropWhile isHelpChar)
      else none
  | [] => none

/-- Takes a number in brackets off the front, the opening one already taken. -/
def afterIndex (cs : List Char) : Option (List Char) :=
  let digits := match cs with
    | '-' :: rest => rest
    | _ => cs
  if digits.head?.any Char.isDigit then
    match digits.dropWhile Char.isDigit with
    | ']' :: rest => some rest
    | _ => none
  else none

/-- Whether a text is made of attributes and indices only. -/
def isHelpPath : (fuel : Nat) → List Char → Bool
  | _, [] => true
  | fuel + 1, '.' :: rest => (afterHelpName rest).any (isHelpPath fuel)
  | fuel + 1, '[' :: rest => (afterIndex rest).any (isHelpPath fuel)
  | _, _ => false

/-- Whether help can be had on a text: a name, or a magic with its signs, with attributes and
indices. -/
def isHelpTarget (cs : List Char) : Bool :=
  let name := match cs with
    | '%' :: '%' :: rest => rest
    | '%' :: rest => rest
    | _ => cs
  (afterHelpName name).any fun rest => isHelpPath rest.length rest

/-- The longest end of a text that help can be had on. -/
def helpTarget : List Char → Option (List Char)
  | [] => none
  | c :: rest => if isHelpTarget (c :: rest) then some (c :: rest) else helpTarget rest

/-- The help that is asked for at the end of a text. -/
def helpAtEnd (text : List Char) : Option (List Char) :=
  let text := match text.reverse with
    | '\n' :: front => front
    | back => back
  match text with
  | '?' :: '?' :: front => (helpTarget front.reverse).map fun target => helpCall target true
  | '?' :: front => (helpTarget front.reverse).map fun target => helpCall target false
  | _ => none

/-- Replaces the command that starts in a column of a line and goes on to its end. -/
def replaceFrom (lines : List (List Char)) (line column : Nat)
    (call : List Char → Option (List Char)) : Option (List (List Char)) :=
  match commandLines (lines.drop line) with
  | ([], _) => none
  | (first :: more, behind) =>
    (call (joinContinued (first.drop column :: more))).map fun text =>
      lines.take line ++ (first.take column ++ text ++ ['\n']) :: behind

/-- The lines with a command replaced by the call that it stands for, if it stands for one. -/
def Command.replace (lines : List (List Char)) : Command → Option (List (List Char))
  | magicValue line column => replaceFrom lines line column
      fun text => some (magicCall (text.drop 1))
  | shellValue line column =>
    replaceFrom lines line column fun text => some (notebookCall "getoutput" [text.drop 1])
  | escaped line column => replaceFrom lines line column escapedCall
  | help line column last =>
    let piece := ((lines.drop line).take (last + 1 - line)).flatten
    (helpAtEnd (piece.drop column)).map fun call =>
      lines.take line ++ (piece.take column ++ call ++ ['\n']) :: lines.drop (last + 1)

/-- Replaces the first command that stands for a call, if there is one. -/
def replaceOne (lines : List (List Char)) : Except Obstacle (Option (List (List Char))) := do
  return (← commands lines).findSome? (Command.replace lines)

/-- Replaces commands until none is left, but only so many. -/
def replaceAll : (limit : Nat) → List (List Char) → Except Obstacle (List (List Char))
  | 0, _ => .error .endless
  | limit + 1, lines =>
    match replaceOne lines with
    | .error obstacle => .error obstacle
    | .ok none => .ok lines
    | .ok (some replaced) => replaceAll limit replaced

end Lineage.Magic
