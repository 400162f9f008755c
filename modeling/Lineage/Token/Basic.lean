import Lineage.Location

/-!
Tokens of a source and the positions they stand at.
-/

namespace Lineage

/-- A point of a source: its line, counted from one, and the number of bytes of the line's text in
front of it. -/
structure Position where
  line : Nat
  column : Nat
deriving DecidableEq, Repr, Inhabited

namespace Position

/-- The start of a text. -/
def start : Position := ⟨1, 0⟩

/-- The point behind a character. -/
def after (p : Position) (c : Char) : Position :=
  if c = '\n' then ⟨p.line + 1, 0⟩ else ⟨p.line, p.column + c.utf8Size⟩

/-- The point behind a run of characters. -/
def afterAll (p : Position) (cs : List Char) : Position :=
  cs.foldl after p

/-- The later of two points. -/
def later (p q : Position) : Position :=
  if p.line < q.line ∨ p.line = q.line ∧ p.column ≤ q.column then q else p

/-- The stretch between two points, empty if the second stands in front of the first. -/
def upTo (first last : Position) : Location :=
  let last := first.later last
  ⟨first.line, first.column, last.line, last.column⟩

theorem firstLine_upTo_le (first last : Position) :
    (first.upTo last).firstLine ≤ (first.upTo last).lastLine := by
  simp only [upTo, later]
  split <;> omega

end Position

namespace Token

/-- What a token is, apart from its text. -/
inductive Kind where
  | name
  | keyword
  | number
  | string
  | operator
  | newline
  | indent
  | dedent
  | endOfText
deriving DecidableEq, Repr

end Token

/-- A token: its text as the grammar reads it, and where it stands. -/
structure Token where
  kind : Token.Kind
  text : String
  start : Position
  stop : Position
deriving Repr

namespace Token

/-- The words that are never names. -/
def keywords : List String :=
  ["False", "None", "True", "and", "as", "assert", "async", "await", "break", "class",
    "continue", "def", "del", "elif", "else", "except", "finally", "for", "from", "global", "if",
    "import", "in", "is", "lambda", "nonlocal", "not", "or", "pass", "raise", "return", "try",
    "while", "with", "yield"]

/-- Layout tokens mark lines and blocks, and the end; all others are words of the source. -/
def isLayout (t : Token) : Bool :=
  match t.kind with
  | .newline | .indent | .dedent | .endOfText => true
  | _ => false

end Token

end Lineage
