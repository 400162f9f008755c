import Lineage.Text.Identifier

/-!
The shapes of single tokens. Each reader takes the characters in front of it and gives back the
lexeme it found and the characters behind it, or nothing if no token of its shape stands there.
-/

namespace Lineage.Token

/-- A lexeme and the characters behind it. -/
abbrev Split := List Char × List Char

/-- Puts characters in front of a lexeme. -/
def Split.push (front : List Char) (s : Split) : Split :=
  (front ++ s.1, s.2)

/-- Characters of which a word is made before it is known to be an identifier. -/
def isWordPart (c : Char) : Bool :=
  c.isAlphanum || c == '_' || c.toNat ≥ 128

/-- Digits of a kind, in which single underscores may stand in front of a digit. -/
def digits (isDigit : Char → Bool) : List Char → Option Split
  | [] => some ([], [])
  | ['_'] => none
  | '_' :: d :: rest => if isDigit d then (digits isDigit rest).map (Split.push ['_', d]) else none
  | c :: rest => if isDigit c then (digits isDigit rest).map (Split.push [c])
      else some ([], c :: rest)

/-- As `digits`, with at least one digit. -/
def someDigits (isDigit : Char → Bool) (cs : List Char) : Option Split :=
  match digits isDigit cs with
  | some ([], _) => none
  | found => found

/-- Whether a number may end in front of these characters: no word part may follow it, except one of
the keywords that can stand behind an operand. -/
def numberMayEnd : List Char → Bool
  | 'a' :: 'n' :: 'd' :: _ => true
  | 'e' :: 'l' :: 's' :: 'e' :: _ => true
  | 'f' :: 'o' :: 'r' :: _ => true
  | 'i' :: 'f' :: _ => true
  | 'i' :: 'n' :: _ => true
  | 'i' :: 's' :: _ => true
  | 'o' :: 'r' :: _ => true
  | 'n' :: 'o' :: 't' :: _ => true
  | c :: _ => !isWordPart c
  | [] => true

/-- Keeps a number if it may end where it does. -/
def endNumber (s : Split) : Option Split :=
  if numberMayEnd s.2 then some s else none

/-- The digits of base eight. -/
def isOctal (c : Char) : Bool := '0' ≤ c && c ≤ '7'

/-- The digits of base two. -/
def isBinary (c : Char) : Bool := c == '0' || c == '1'

/-- The digits of base sixteen, in either case. -/
def isHex (c : Char) : Bool := c.isDigit || ('a' ≤ c && c ≤ 'f') || ('A' ≤ c && c ≤ 'F')

/-- The digits of a number in a base named by its second character. -/
def radixNumber (isDigit : Char → Bool) (mark : Char) (cs : List Char) : Option Split := do
  let s ← someDigits isDigit cs
  if (s.2.head?.any Char.isDigit) then none
  endNumber (s.push ['0', mark])

/-- The end of a decimal number: an imaginary mark or nothing. -/
def imaginaryMark : List Char → Option Split
  | 'j' :: rest => endNumber (['j'], rest)
  | 'J' :: rest => endNumber (['J'], rest)
  | rest => endNumber ([], rest)

/-- The exponent of a decimal number, if there is one, and its end. The mark of an exponent may also
be the first letter of a keyword behind the number. -/
def exponentPart : List Char → Option Split
  | e :: rest =>
    if e == 'e' || e == 'E' then
      match rest with
      | sign :: d :: more =>
        if (sign == '+' || sign == '-') then
          if d.isDigit then do
            let s ← digits Char.isDigit (d :: more)
            let t ← imaginaryMark s.2
            some (t.push (e :: sign :: s.1))
          else none
        else if sign.isDigit then do
          let s ← digits Char.isDigit rest
          let t ← imaginaryMark s.2
          some (t.push (e :: s.1))
        else endNumber ([], e :: rest)
      | [d] =>
        if d.isDigit then some ([e, d], []) else endNumber ([], [e, d])
      | [] => none
    else imaginaryMark (e :: rest)
  | [] => imaginaryMark []

/-- The fraction of a decimal number, its point already read, and what follows it. -/
def fractionPart (cs : List Char) : Option Split :=
  if cs.head?.any Char.isDigit then do
    let s ← digits Char.isDigit cs
    let t ← exponentPart s.2
    some (t.push s.1)
  else exponentPart cs

/-- Whether a run of digits has a zero in front without being zero. -/
def hasIdleZero (ds : List Char) : Bool :=
  ds.head? == some '0' && ds.any fun d => d != '0' && d != '_'

/-- A number that starts with a digit and has no mark of a base. -/
def decimalNumber (cs : List Char) : Option Split := do
  let s ← digits Char.isDigit cs
  match s.2 with
  | '.' :: rest => (← fractionPart rest).push (s.1 ++ ['.'])
  | rest =>
    let t ← exponentPart rest
    if t.1.isEmpty && hasIdleZero s.1 then none
    t.push s.1

/-- A number. -/
def number : List Char → Option Split
  | '0' :: 'x' :: rest => radixNumber isHex 'x' rest
  | '0' :: 'X' :: rest => radixNumber isHex 'X' rest
  | '0' :: 'o' :: rest => radixNumber isOctal 'o' rest
  | '0' :: 'O' :: rest => radixNumber isOctal 'O' rest
  | '0' :: 'b' :: rest => radixNumber isBinary 'b' rest
  | '0' :: 'B' :: rest => radixNumber isBinary 'B' rest
  | '.' :: rest => (fractionPart rest).map (Split.push ['.'])
  | cs => decimalNumber cs

/-- The rest of a string on one line, its opening quote already read. A backslash keeps the
character behind it, the end of a line included. -/
def shortString (quote : Char) : List Char → Option Split
  | [] => none
  | ['\\'] => none
  | '\\' :: c :: rest => (shortString quote rest).map (Split.push ['\\', c])
  | c :: rest =>
    if c = quote then some ([c], rest)
    else if c = '\n' then none
    else (shortString quote rest).map (Split.push [c])

/-- The rest of a string between three quotes, the opening ones already read. -/
def longString (quote : Char) : List Char → Option Split
  | [] => none
  | ['\\'] => none
  | '\\' :: c :: rest => (longString quote rest).map (Split.push ['\\', c])
  | c :: rest =>
    if c = quote && rest.take 2 = [quote, quote] then some ([c, c, c], rest.drop 2)
    else (longString quote rest).map (Split.push [c])

/-- A string from its opening quote on. -/
def quotedString : List Char → Option Split
  | quote :: rest =>
    if rest.take 2 = [quote, quote] then
      (longString quote (rest.drop 2)).map (Split.push [quote, quote, quote])
    else (shortString quote rest).map (Split.push [quote])
  | [] => none

/-- The letters that may stand in front of a string's quote. -/
def isStringMark (word : List Char) : Bool :=
  ["b", "u", "r", "f", "br", "rb", "fr", "rf"].contains (String.ofList (word.map Char.toLower))

/-- The operators and delimiters, longer ones first. -/
def operators : List String :=
  ["**=", "//=", ">>=", "<<=", "...", "!=", "%=", "&=", "**", "*=", "+=", "-=", "->", "//",
    "/=", ":=", "<<", "<=", "<>", "==", ">=", ">>", "@=", "^=", "|=", "%", "&", "(", ")", "*", "+",
    ",", "-", ".", "/", ":", ";", "<", "=", ">", "@", "[", "]", "^", "\x7b", "|", "\x7d", "~"]

/-- The longest operator in front of the characters. -/
def operator (cs : List Char) : Option Split :=
  (operators.find? fun op => op.toList.isPrefixOf cs).map fun op =>
    (op.toList, cs.drop op.length)

end Lineage.Token
