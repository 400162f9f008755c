import Lineage.Text.Blank
import Lineage.Text.Identifier
import Lineage.Text.Lines
import Lineage.Text.Word
import Lineage.Token.Lexeme

/-!
A rough reading of a cell's lines, which need not be correct source: enough to know where statements
start and end, and what stands outside strings and comments. Whatever fits nowhere is a token of one
character.
-/

namespace Lineage.Magic

open Lineage.Text

/-- What a token is, as far as it matters here. A `stray` is a character that fits nowhere, and a
`feed` is the end of a line that does not end a statement. -/
inductive RoughKind where
  | name
  | stray
  | indent
  | dedent
  | newline
  | feed
  | other
deriving DecidableEq, Repr

/-- A token, with the line it starts on and its column there, both counted from zero. Of a string
only the quote is kept. -/
structure RoughToken where
  kind : RoughKind
  text : List Char
  line : Nat
  column : Nat
deriving DecidableEq, Repr

/-- A string that goes on over the end of a line. -/
structure OpenString where
  quote : Char
  triple : Bool
  line : Nat
  column : Nat
deriving DecidableEq, Repr

/-- What is known at some point of the reading. `continued` is set behind a backslash at the end of
a line; `strict` once a string in single quotes had to go on over the end of a line; `indents` holds
the columns of the blocks that are open, the innermost first, and `tokens` what was found, the last
first. -/
structure Reading where
  parens : Int
  continued : Bool
  string : Option OpenString
  strict : Bool
  indents : List Nat
  tokens : List RoughToken
deriving Repr

namespace Reading

/-- Nothing has been read. -/
def start : Reading := ⟨0, false, none, false, [0], []⟩

/-- Adds a token. -/
def push (r : Reading) (kind : RoughKind) (text : List Char) (line column : Nat) : Reading :=
  { r with tokens := ⟨kind, text, line, column⟩ :: r.tokens }

end Reading

/-- White space between tokens. -/
def isGap (c : Char) : Bool :=
  c == ' ' || c == '\t' || c == '\x0c'

/-- What follows the closing quote of a string that must close on this line, or may go on behind a
backslash (`none` in the result). -/
def closeShort (quote : Char) : List Char → Option (Option (List Char))
  | [] => none
  | '\\' :: '\n' :: _ => some none
  | '\\' :: '\r' :: '\n' :: _ => some none
  | '\\' :: _ :: rest => closeShort quote rest
  | c :: rest => if c = quote then some (some rest)
      else if c = '\n' then none else closeShort quote rest

/-- What follows the closing quote of a string in single quotes that was open in front of the
line. -/
def closeResumed (quote : Char) : List Char → Option (List Char)
  | [] => none
  | '\\' :: '\n' :: _ => none
  | '\\' :: _ :: rest => closeResumed quote rest
  | c :: rest => if c = quote then some rest else closeResumed quote rest

/-- What follows the closing quotes of a string in triple quotes. -/
def closeTriple (quote : Char) : List Char → Option (List Char)
  | [] => none
  | '\\' :: '\n' :: _ => none
  | '\\' :: _ :: rest => closeTriple quote rest
  | c :: rest =>
    if c = quote && rest.take 2 = [quote, quote] then some (rest.drop 2) else closeTriple quote rest

/-- What follows the end of an open string. -/
def OpenString.close (s : OpenString) (line : List Char) : Option (List Char) :=
  if s.triple then closeTriple s.quote line else closeResumed s.quote line

/-- Drops the letters in front of a string, if a string follows them. -/
def dropStringMark (cs : List Char) : List Char :=
  let letters := cs.takeWhile Char.isAlpha
  if letters.isEmpty || Token.isStringMark letters then cs.drop letters.length else cs

/-- What stands at the front of some text behind its gap. -/
inductive Piece where
  | nothing
  | continuation (rest : List Char)
  | lineEnd (text rest : List Char)
  | comment (rest : List Char)
  | string (quote : Char) (rest : List Char)
  | openString (quote : Char) (triple : Bool)
  | operator (text rest : List Char)
  | word (text rest : List Char)
  | stray (c : Char) (rest : List Char)
deriving DecidableEq, Repr

/-- A string at the front of some text, if there is one. -/
def stringPiece (cs : List Char) : Option Piece :=
  match dropStringMark cs with
  | quote :: rest =>
    if quote != '\'' && quote != '"' then none
    else if rest.take 2 = [quote, quote] then
      match closeTriple quote (rest.drop 2) with
      | some behind => some (.string quote behind)
      | none => some (.openString quote true)
    else
      match closeShort quote rest with
      | some (some behind) => some (.string quote behind)
      | some none => some (.openString quote false)
      | none => none
  | [] => none

/-- A word or an operator at the front of some text, or else a single character. -/
def plainPiece : List Char → Piece
  | [] => .nothing
  | c :: rest =>
    if isWordChar c then .word (c :: rest.takeWhile isWordChar) (rest.dropWhile isWordChar)
    else if c = '<' && rest.head? = some '>' then .operator [c] rest
    else
      match Token.operator (c :: rest) with
      | some (text, behind) => .operator text behind
      | none => .stray c rest

/-- What stands at the front of some text. A gap in front of a stray character is stray itself. -/
def piece (cs : List Char) : Piece :=
  match cs.dropWhile isGap with
  | [] => .nothing
  | '\\' :: '\n' :: rest => .continuation rest
  | '\\' :: '\r' :: '\n' :: rest => .continuation rest
  | '\n' :: rest => .lineEnd ['\n'] rest
  | '\r' :: '\n' :: rest => .lineEnd ['\r', '\n'] rest
  | '#' :: rest => .comment (rest.dropWhile fun c => !isNarrowBreak c)
  | front =>
    match (stringPiece front).getD (plainPiece front), cs with
    | .stray _ _, c :: rest => .stray c rest
    | found, _ => found

/-- The change that an operator makes to the depth of brackets. -/
def bracketStep (text : List Char) : Int :=
  if text = ['('] || text = ['['] || text = ['\x7b'] then 1
  else if text = [')'] || text = [']'] || text = ['\x7d'] then -1
  else 0

namespace Reading

/-- Reads the rest of a line, of which `width` is the length of the whole. -/
def readRest (line width : Nat) : (fuel : Nat) → List Char → Reading → Reading
  | 0, _, r => r
  | fuel + 1, cs, r =>
    let column := width - (cs.dropWhile isGap).length
    match piece cs with
    | .nothing => r
    | .continuation rest => readRest line width fuel rest { r with continued := true }
    | .lineEnd text rest =>
      readRest line width fuel rest (r.push (if 0 < r.parens then .feed else .newline) text
        line column)
    | .comment rest => readRest line width fuel rest (r.push .other ['#'] line column)
    | .string quote rest => readRest line width fuel rest (r.push .other [quote] line column)
    | .openString quote triple =>
      { r with string := some ⟨quote, triple, line, column⟩, strict := r.strict || !triple }
    | .operator text rest =>
      readRest line width fuel rest
        ({ r with parens := r.parens + bracketStep text }.push .other text line column)
    | .word text rest =>
      let kind := if text.head?.any isIdentifierStart then .name else .other
      readRest line width fuel rest (r.push kind text line column)
    | .stray c rest => readRest line width fuel rest (r.push .stray [c] line (width - cs.length))

/-- Reads what is behind some point of a line. -/
def readFrom (line : Nat) (text rest : List Char) (r : Reading) : Reading :=
  readRest line text.length rest.length rest r

end Reading

/-- The column that leading white space comes to: a tab goes to the next multiple of eight, and a
form feed starts anew. -/
def indentColumn : (column : Nat) → List Char → Nat
  | column, [] => column
  | column, c :: rest =>
    if c = ' ' then indentColumn (column + 1) rest
    else if c = '\t' then indentColumn ((column / 8 + 1) * 8) rest
    else if c = '\x0c' then indentColumn 0 rest
    else column

/-- How a reading ends: with the tokens of all lines, in the midst of a string or of brackets, or at
a line whose indentation fits no block. -/
inductive Outcome where
  | complete (tokens : List RoughToken)
  | unfinished (tokens : List RoughToken)
  | misaligned
deriving Repr

/-- Closes the blocks that a line in some column leaves. -/
def closeBlocks (line offset column : Nat) : List Nat → Reading → Option Reading
  | [], _ => none
  | top :: below, r =>
    if column < top then
      if column ∈ top :: below then
        closeBlocks line offset column below
          ({ r with indents := below }.push .dedent [] line offset)
      else none
    else some r

/-- Opens or closes blocks in front of a statement. -/
def align (line offset column : Nat) (r : Reading) : Option Reading :=
  if r.indents.head?.any (· < column) then
    some ({ r with indents := column :: r.indents }.push .indent [] line 0)
  else closeBlocks line offset column r.indents r

/-- The tokens at the end of a text: a missing line end is made up for, and all blocks are
closed. -/
def finish (line : Nat) (last : List Char) (r : Reading) : Outcome :=
  let unended := last.getLast?.any (fun c => !isNarrowBreak c) && (trimStart last).head? != some '#'
  let r := if unended then r.push .newline [] (line - 1) last.length else r
  let r := (r.indents.drop 1).foldl (fun r _ => r.push .dedent [] line 0) r
  .complete (r.push .other [] line 0).tokens.reverse

/-- Whether a line ends in a backslash. -/
def endsInBackslash (line : List Char) : Bool :=
  match line.reverse with
  | '\n' :: '\\' :: _ => true
  | '\n' :: '\r' :: '\\' :: _ => true
  | _ => false

/-- Reads lines; `last` is the line in front of them. A line that holds nothing, not even an end,
ends the reading. -/
def readLines (line : Nat) (last : List Char) : List (List Char) → Reading → Outcome
  | [], r =>
    if r.string.isSome || r.parens != 0 || r.continued then .unfinished r.tokens.reverse
      else finish line last r
  | text :: rest, r =>
    match r.string with
    | some s =>
      match s.close text with
      | some behind =>
        let r := { r with string := none, strict := false }.push .other [s.quote] s.line s.column
        readLines (line + 1) text rest (r.readFrom line text behind)
      | none =>
        if r.strict && !endsInBackslash text then
          readLines (line + 1) text rest ({ r with string := none }.push .stray
            [s.quote] s.line s.column)
        else readLines (line + 1) text rest r
    | none =>
      if r.parens == 0 && !r.continued then
        let front := text.dropWhile isGap
        let offset := text.length - front.length
        match front with
        | [] => finish line last r
        | c :: more =>
          if c = '#' then
            let ending := more.dropWhile fun c => !isNarrowBreak c
            let r := r.push .other ['#'] line offset
            readLines (line + 1) text rest (r.push .feed ending line (text.length - ending.length))
          else if isNarrowBreak c then readLines (line + 1) text rest
            (r.push .feed front line offset)
          else
            match align line offset (indentColumn 0 text) r with
            | none => .misaligned
            | some r => readLines (line + 1) text rest (r.readFrom line text front)
      else readLines (line + 1) text rest ({ r with continued := false }.readFrom line text text)

/-- Reads the lines of a cell. -/
def readTokens (lines : List (List Char)) : Outcome :=
  readLines 0 [] lines .start

/-- Puts the tokens of a statement together. `depth` counts the brackets that are open. -/
def groupTokens (depth : Nat) (current : List RoughToken) : List RoughToken → List (List RoughToken)
  | [] => if current.isEmpty then [] else [current]
  | t :: rest =>
    let current := current ++ [t]
    if t.kind = .newline || (t.kind = .feed && depth = 0) then current :: groupTokens depth [] rest
    else
      let step := bracketStep t.text
      groupTokens (if 0 < step then depth + 1 else if step < 0 then depth - 1 else depth)
        current rest

/-- The statements of some lines, each as its tokens, unless the lines are not aligned. -/
def statementTokens (lines : List (List Char)) : Option (List (List RoughToken)) :=
  match readTokens lines with
  | .complete tokens => some (groupTokens 0 [] tokens)
  | .unfinished tokens => some (groupTokens 0 [] tokens)
  | .misaligned => none

end Lineage.Magic
