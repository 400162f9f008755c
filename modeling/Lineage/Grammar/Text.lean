import Lineage.Grammar.Rule
import Lineage.Literal.Escape

/-!
String literals. Neighbouring literals are one. A formatted literal is a sequence of texts and of
expressions between braces, each of which may carry a format that is such a sequence again.
-/

namespace Lineage.Grammar

/-- A string token taken apart: its marks, what stands between its quotes, and where that starts. -/
structure Quote where
  isBytes : Bool
  isRaw : Bool
  isFormatted : Bool
  body : List Char
  start : Position

/-- Takes a string token apart. -/
def Quote.ofToken (t : Token) : Quote :=
  let cs := t.text.toList
  let isQuote (c : Char) : Bool := c == '"' || c == '\''
  let marks := (cs.takeWhile fun c => !isQuote c).map Char.toLower
  let rest := cs.dropWhile fun c => !isQuote c
  let width := if rest.length ≥ 6 && rest.take 1 == (rest.drop 1).take 1 &&
    rest.take 1 == (rest.drop 2).take 1 then 3 else 1
  let front := cs.take (marks.length + width)
  { isBytes := marks.contains 'b'
    isRaw := marks.contains 'r'
    isFormatted := marks.contains 'f'
    body := (rest.drop width).take (rest.length - 2 * width)
    start := t.start.afterAll front }

/-- A part of a formatted literal. -/
inductive Piece where
  | text (codes : List Nat)
  | value (e : Expr)

/-- How a run of plain text in a formatted literal ends. -/
inductive RunEnd where
  | atEnd
  | atBrace
  | doubled

/-- Where a run of plain text stands with respect to a character given by name: outside one, behind
its escape, or inside its name. -/
inductive Naming where
  | outside
  | announced
  | inside
deriving DecidableEq

/-- The plain text in front of the next brace, and how it ends. Outside a format a brace written
twice stands for itself and a closing brace alone is refused. -/
def plainRun (raw nested : Bool) : Naming → List Char → Option (List Char × RunEnd × List Char)
  | _, [] => some ([], .atEnd, [])
  | naming, c :: rest =>
    let go (naming : Naming) :=
      (plainRun raw nested naming rest).map fun (run, stop, after) => (c :: run, stop, after)
    if naming = .inside then go (if c = '\x7d' then .outside else .inside)
    else if naming = .announced && c == '\x7b' then go .inside
    else if !raw && c == '\\' then
      match rest with
      | [] => some ([c], .atEnd, [])
      | d :: more =>
        if d == '\x7b' || d == '\x7d' then go .outside
        else
          (plainRun raw nested (if d == 'N' then .announced else .outside) more).map
            fun (run, stop, after) => (c :: d :: run, stop, after)
    else if c == '\x7b' || c == '\x7d' then
      if nested then some ([], .atBrace, c :: rest)
      else if rest.head? == some c then some ([c], .doubled, rest.drop 1)
      else if c == '\x7d' then none
      else some ([], .atBrace, c :: rest)
    else go .outside

/-- A string inside an expression of a formatted literal: its quote and whether that is written
thrice. -/
structure OpenQuote where
  quote : Char
  long : Bool

/-- The text of an expression inside a formatted literal, up to the `!`, `:`, `=` or closing brace
that ends it outside all brackets and strings. `skip` counts characters already accounted for. -/
def replacementRun (inside : Option OpenQuote) (brackets : List Char) :
    (skip : Nat) → List Char → Option (List Char × List Char)
  | _, [] => none
  | skip + 1, c :: rest =>
    (replacementRun inside brackets skip rest).map fun (run, after) => (c :: run, after)
  | 0, c :: rest =>
    let go (inside : Option OpenQuote) (brackets : List Char) (skip : Nat) :=
      (replacementRun inside brackets skip rest).map fun (run, after) => (c :: run, after)
    if c == '\\' then none
    else
      match inside with
      | some q =>
        if c == q.quote then
          if q.long then
            if rest.take 2 == [c, c] then go none brackets 2 else go inside brackets 0
          else go none brackets 0
        else go inside brackets 0
      | none =>
        if c == '"' || c == '\'' then
          if rest.take 2 == [c, c] then go (some ⟨c, true⟩) brackets 2
          else go (some ⟨c, false⟩) brackets 0
        else if c == '(' || c == '[' || c == '\x7b' then go none (c :: brackets) 0
        else if c == '#' then none
        else if brackets.isEmpty &&
            (c == '!' || c == ':' || c == '\x7d' || c == '=' || c == '<' || c == '>') then
          if (c == '!' || c == '=' || c == '<' || c == '>') && rest.head? == some '=' then
            go none [] 1
          else if c == '<' || c == '>' then go none [] 0
          else some ([], c :: rest)
        else if c == ')' || c == ']' || c == '\x7d' then
          match brackets with
          | b :: bs =>
            if (b == '(' && c == ')') || (b == '[' && c == ']') || (b == '\x7b' && c == '\x7d') then
              go none bs 0
            else none
          | [] => none
        else go none brackets 0

/-- Blank characters inside an expression. -/
def isInnerBlank (c : Char) : Bool :=
  c == ' ' || c == '\t' || c == '\n' || c == '\x0c'

/-- The `!` mark of a conversion and its letter. -/
def afterConversion : List Char → Option (List Char)
  | '!' :: c :: rest => if c == 's' || c == 'r' || c == 'a' then some rest else none
  | ['!'] => none
  | rest => some rest

/-- Joins neighbouring texts and drops empty ones; every text becomes a constant at the given
place. -/
def joinPieces (loc : Location) (pieces : List Piece) : List Expr :=
  let close (codes : List Nat) (out : List Expr) : List Expr :=
    if codes.isEmpty then out else .constant loc (.text codes) :: out
  let (codes, out) := pieces.foldr
    (fun piece (codes, out) =>
      match piece with
      | .text more => (more ++ codes, out)
      | .value e => ([], e :: close codes out))
    ([], [])
  close codes out

/-- The pieces of a formatted body. `read` reads an expression given its text and the place of the
brace in front of it. `depth` is the number of formats around the body, of which there may be one;
inside a format the body ends at a closing brace, which is left in the rest. -/
def pieces (read : List Char → Position → Option Expr) (loc : Location) (raw : Bool) :
    (fuel depth : Nat) → List Char → Position → Option (List Piece × List Char × Position)
  | 0, _, _, _ => none
  | fuel + 1, depth, cs, place => do
    let (run, stop, rest) ← plainRun raw (depth != 0) .outside cs
    let codes ← if raw then some (Literal.rawCodes run) else Literal.textCodes 0 run
    let place := place.afterAll run
    match stop with
    | .atEnd => some ([.text codes], [], place)
    | .doubled =>
      let (more, after, stop) ← pieces read loc raw fuel depth rest
        (place.afterAll (run.reverse.take 1))
      some (.text codes :: more, after, stop)
    | .atBrace =>
      match rest with
      | '\x7b' :: inner =>
        if depth ≥ 2 then none
        let (text, after) ← replacementRun none [] 0 inner
        if text.all isInnerBlank then none
        let e ← read text place
        let place := (place.after '\x7b').afterAll text
        let shown := match after with
          | '=' :: more => '=' :: more.takeWhile fun c => isInnerBlank c || c == '\r' || c == '\x0b'
          | _ => []
        let after := after.drop shown.length
        let place := place.afterAll shown
        let label := if shown.isEmpty then [] else Literal.rawCodes (text ++ shown)
        let unconverted ← afterConversion after
        let place := place.afterAll (after.take (after.length - unconverted.length))
        let (spec, after, place) ← match unconverted with
          | ':' :: more => do
            let (inner, after, place) ← pieces read loc raw fuel (depth + 1) more (place.after ':')
            some (some (Expr.joined loc (joinPieces loc inner)), after, place)
          | after => some (none, after, place)
        match after with
        | '\x7d' :: after =>
          let (more, after, stop) ← pieces read loc raw fuel depth after (place.after '\x7d')
          some (.text codes :: .text label :: .value (.formatted loc e spec) :: more, after, stop)
        | _ => none
      | _ => some ([.text codes], rest, place)

/-- The pieces of one string token. -/
def Quote.pieces (read : List Char → Position → Option Expr) (loc : Location) (q : Quote) :
    Option (List Piece) :=
  if q.isFormatted then do
    let (found, rest, _) ← Grammar.pieces read loc q.isRaw (2 * q.body.length + 2) 0 q.body q.start
    if rest.isEmpty then some found else none
  else if q.isRaw then some [.text (Literal.rawCodes q.body)]
  else do return [.text (← Literal.textCodes 0 q.body)]

/-- The bytes of one string token. -/
def Quote.bytes (q : Quote) : Option (List Nat) :=
  if q.isRaw then Literal.rawBytes q.body else Literal.byteCodes 0 q.body

/-- The expression that neighbouring string tokens make together. Texts and bytes do not mix. -/
def stringExpr (read : List Char → Position → Option Expr) (loc : Location) (tokens : List Token) :
    Option Expr :=
  let quotes := tokens.map Quote.ofToken
  if quotes.all Quote.isBytes then do
    let codes ← quotes.mapM Quote.bytes
    some (.constant loc (.bytes (codes.flatten.map Nat.toUInt8)))
  else if quotes.any Quote.isBytes then none
  else do
    let found ← quotes.mapM (Quote.pieces read loc)
    if quotes.any Quote.isFormatted then some (.joined loc (joinPieces loc found.flatten))
    else
      let codes := found.flatten.flatMap fun
        | .text codes => codes
        | .value _ => []
      some (.constant loc (.text codes))

end Lineage.Grammar
