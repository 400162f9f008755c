import Lineage.Text.Normal
import Lineage.Text.Quoted
import Lineage.Token.Basic
import Lineage.Token.Lexeme

/-!
From text to tokens. A source is first brought to one newline convention and closed by a newline.
Between brackets line ends are blank; elsewhere the end of a line that holds a token is a token, and
a change of indentation at the start of a line opens or closes blocks.
-/

namespace Lineage.Token

/-- Why a text has no tokens. -/
inductive Refusal where
  | nulCharacter
  | strayCharacter
  | badIdentifier
  | badNumber
  | openString
  | badContinuation
  | unmatchedBracket
  | openBracket
  | tooManyBrackets
  | unmatchedDedent
  | unevenIndentation
  | tooManyIndents
deriving DecidableEq, Repr

/-- The reason in words. -/
def Refusal.message : Refusal → String
  | .nulCharacter => "source code string cannot contain null bytes"
  | .strayCharacter => "invalid character"
  | .badIdentifier => "invalid character in identifier"
  | .badNumber => "invalid number literal"
  | .openString => "unterminated string literal"
  | .badContinuation => "unexpected character after line continuation character"
  | .unmatchedBracket => "unmatched bracket"
  | .openBracket => "bracket was never closed"
  | .tooManyBrackets => "too many nested parentheses"
  | .unmatchedDedent => "unindent does not match any outer indentation level"
  | .unevenIndentation => "inconsistent use of tabs and spaces in indentation"
  | .tooManyIndents => "too many levels of indentation"

/-- A refused text, with the place where reading stopped. -/
structure Refused where
  reason : Refusal
  place : Position
deriving Repr

/-- Turns every line ending into a line feed. -/
def unifyNewlines : List Char → List Char
  | [] => []
  | '\r' :: '\n' :: rest => '\n' :: unifyNewlines rest
  | '\r' :: rest => '\n' :: unifyNewlines rest
  | c :: rest => c :: unifyNewlines rest

/-- Closes the last line. -/
def closeLastLine (cs : List Char) : List Char :=
  if cs.getLast? = some '\n' then cs else cs ++ ['\n']

/-- How far a line is indented, once with tabs to every eighth column and once with tabs as one
column. -/
structure Indent where
  wide : Nat
  tight : Nat
deriving DecidableEq, Repr

/-- The indentation in front of a line's first token. A line that is continued while still blank
keeps the indentation of the first such line, if it has any. -/
def indentAhead (i : Indent) (held : Nat) : List Char → Option (Indent × List Char)
  | ' ' :: rest => indentAhead ⟨i.wide + 1, i.tight + 1⟩ held rest
  | '\t' :: rest => indentAhead ⟨(i.wide / 8 + 1) * 8, i.tight + 1⟩ held rest
  | '\x0c' :: rest => indentAhead ⟨0, 0⟩ held rest
  | ['\\'] => none
  | ['\\', _] => none
  | '\\' :: c :: d :: rest =>
    if c = '\n' then indentAhead i (if held = 0 then i.wide else held) (d :: rest) else none
  | rest => some (if held = 0 then i else ⟨held, held⟩, rest)

/-- What has been read of a text and what is still to read. -/
structure Scanner where
  rest : List Char
  place : Position
  indents : List Indent
  brackets : List Char
  lineStart : Bool
  found : List Token

namespace Scanner

/-- A scanner at the start of some characters. -/
def atStart (cs : List Char) (place : Position) : Scanner :=
  ⟨cs, place, [], [], true, []⟩

/-- Stops the scan for a reason, at the place it has come to. -/
def refuse {α : Type} (s : Scanner) (reason : Refusal) : Except Refused α :=
  .error ⟨reason, s.place⟩

/-- Passes over characters. -/
def skip (s : Scanner) (front rest : List Char) : Scanner :=
  { s with rest, place := s.place.afterAll front }

/-- Takes a lexeme as a token with the given text. -/
def take (s : Scanner) (kind : Kind) (text : String) (lexeme rest : List Char) : Scanner :=
  let stop := s.place.afterAll lexeme
  { s with rest, place := stop, found := ⟨kind, text, s.place, stop⟩ :: s.found }

/-- Adds a token without characters. -/
def mark (s : Scanner) (kind : Kind) : Scanner :=
  { s with found := ⟨kind, "", s.place, s.place⟩ :: s.found }

/-- The indentation of the innermost open block. -/
def level (s : Scanner) : Indent :=
  s.indents.headD ⟨0, 0⟩

/-- Closes the blocks indented further than `i`; the indentation left must be that of an open
block. -/
def close (i : Indent) : List Indent → Scanner → Except Refused Scanner
  | [], s =>
    if i.wide ≠ 0 then s.refuse .unmatchedDedent
    else if i.tight ≠ 0 then s.refuse .unevenIndentation
    else .ok { s with indents := [] }
  | top :: outer, s =>
    if i.wide < top.wide then close i outer (s.mark .dedent)
    else if i.wide ≠ top.wide then s.refuse .unmatchedDedent
    else if i.tight ≠ top.tight then s.refuse .unevenIndentation
    else .ok { s with indents := top :: outer }

/-- Opens or closes blocks for a line indented by `i`. -/
def indentTo (s : Scanner) (i : Indent) : Except Refused Scanner :=
  if s.level.wide < i.wide then
    if s.indents.length + 1 ≥ 100 then s.refuse .tooManyIndents
    else if i.tight ≤ s.level.tight then s.refuse .unevenIndentation
    else .ok { s.mark .indent with indents := i :: s.indents }
  else close i s.indents s

/-- Reads the indentation of a line. Lines without a token are passed over and start no block. -/
def startLine (s : Scanner) : Except Refused Scanner :=
  match indentAhead ⟨0, 0⟩ 0 s.rest with
  | none => s.refuse .badContinuation
  | some (i, rest) =>
    let t := { s.skip (s.rest.take (s.rest.length - rest.length)) rest with lineStart := false }
    match rest with
    | '\n' :: after => .ok { t.skip ['\n'] after with lineStart := true }
    | '#' :: _ =>
      let comment := rest.takeWhile (· ≠ '\n')
      let after := rest.dropWhile (· ≠ '\n')
      .ok { t.skip (comment ++ after.take 1) (after.drop 1) with lineStart := true }
    | _ => if s.brackets.isEmpty then t.indentTo i else .ok t

/-- The opening bracket that a closing one answers. -/
def opening : Char → Option Char
  | ')' => some '('
  | ']' => some '['
  | '\x7d' => some '\x7b'
  | _ => none

/-- Keeps account of brackets. -/
def bracket (s : Scanner) (c : Char) : Except Refused Scanner :=
  if c = '(' || c = '[' || c = '\x7b' then
    if s.brackets.length ≥ 200 then s.refuse .tooManyBrackets
    else .ok { s with brackets := c :: s.brackets }
  else
    match opening c with
    | none => .ok s
    | some o =>
      match s.brackets with
      | [] => s.refuse .unmatchedBracket
      | b :: bs => if b = o then .ok { s with brackets := bs } else s.refuse .unmatchedBracket

/-- Reads a word: a name, a keyword, or the mark in front of a string. -/
def word (s : Scanner) : Except Refused Scanner :=
  let front := s.rest.takeWhile isWordPart
  let rest := s.rest.dropWhile isWordPart
  if isStringMark front && (rest.head? = some '"' || rest.head? = some '\'') then
    match quotedString rest with
    | none => s.refuse .openString
    | some (lexeme, after) => .ok (s.take .string (String.ofList (front ++ lexeme))
        (front ++ lexeme) after)
  else
    let spelled := String.ofList front
    if keywords.contains spelled then .ok (s.take .keyword spelled front rest)
    else if front.any (·.toNat ≥ 128) then
      if Text.isIdentifier front then
        .ok (s.take .name (String.ofList (Text.compatibilityForm front)) front rest)
      else s.refuse .badIdentifier
    else .ok (s.take .name spelled front rest)

/-- Reads an operator or delimiter. -/
def symbol (s : Scanner) : Except Refused Scanner :=
  match operator s.rest with
  | none => s.refuse .strayCharacter
  | some (lexeme, rest) => do
    let t ← s.bracket (lexeme.headD ' ')
    .ok (t.take .operator (String.ofList lexeme) lexeme rest)

/-- Reads the next token inside a line, or passes over blank characters, a comment or a line's
end. -/
def inLine (s : Scanner) : Except Refused Scanner :=
  match s.rest with
  | [] => .ok s
  | c :: rest =>
    if c = ' ' || c = '\t' || c = '\x0c' then .ok (s.skip [c] rest)
    else if c = '#' then
      .ok (s.skip (s.rest.takeWhile (· ≠ '\n')) (s.rest.dropWhile (· ≠ '\n')))
    else if c = '\n' then
      if s.brackets.isEmpty then .ok { s.take .newline "" [c] rest with lineStart := true }
      else .ok { s.skip [c] rest with lineStart := true }
    else if c = '\\' then
      match rest with
      | '\n' :: d :: after => .ok (s.skip [c, '\n'] (d :: after))
      | _ => s.refuse .badContinuation
    else if c = '"' || c = '\'' then
      match quotedString s.rest with
      | none => s.refuse .openString
      | some (lexeme, after) => .ok (s.take .string (String.ofList lexeme) lexeme after)
    else if c.isDigit || (c = '.' && rest.head?.any Char.isDigit) then
      match number s.rest with
      | none => s.refuse .badNumber
      | some (lexeme, after) => .ok (s.take .number (String.ofList lexeme) lexeme after)
    else if isWordPart c then s.word
    else s.symbol

/-- Reads on to the end of the characters; every second step at least passes over one. -/
def run : (fuel : Nat) → Scanner → Except Refused (List Token)
  | 0, s => s.refuse .strayCharacter
  | fuel + 1, s =>
    if s.rest.isEmpty then
      if s.brackets.isEmpty then do
        let t ← if s.lineStart then close ⟨0, 0⟩ s.indents s else .ok s
        .ok ((t.mark .endOfText).found.reverse)
      else s.refuse .openBracket
    else do
      let t ← if s.lineStart then s.startLine else s.inLine
      run fuel t

end Scanner

/-- The tokens of a stretch of source that starts at a given place. -/
def scanFrom (cs : List Char) (place : Position) : Except Refused (List Token) :=
  let cs := closeLastLine cs
  (Scanner.atStart cs place).run (2 * cs.length + 2)

/-- The tokens of a source. -/
def scan (text : String) : Except Refused (List Token) :=
  if text.toList.contains '\x00' then .error ⟨.nulCharacter, Position.start⟩
  else scanFrom (unifyNewlines text.toList) Position.start

end Lineage.Token
