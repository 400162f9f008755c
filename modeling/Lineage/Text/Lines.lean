/-!
Breaking text into lines. A line keeps its own ending, so the lines of a text put together are the
text again. Two conventions are in use: the narrow one of the grammar, which numbers the lines of a
source, and the wide one, in which every vertical separator ends a line and by which text is
displayed.
-/

namespace Lineage.Text

/-- One line: its characters and the characters that end it (none on a last line left open). -/
structure Line where
  content : List Char
  ending : List Char
deriving DecidableEq, Repr

/-- A line as it stands in the text. -/
def Line.chars (l : Line) : List Char := l.content ++ l.ending

/-- The characters that end a line of source. -/
def isNarrowBreak (c : Char) : Bool :=
  c == '\n' || c == '\r'

/-- The characters that end a line on display: the narrow ones, vertical tab, form feed, the file,
group and record separators, next line, and the line and paragraph separators. -/
def isWideBreak (c : Char) : Bool :=
  c == '\n' || c == '\r' || c == '\x0b' || c == '\x0c' || c == '\x1c' || c == '\x1d' || c ==
    '\x1e' || c == '\u0085' || c == '\u2028' || c == '\u2029'

/-- Breaks `text` after every character that `isBreak` accepts; a carriage return and the line feed
behind it end one line together. -/
def breakLines (isBreak : Char → Bool) : List Char → List Line
  | [] => []
  | '\r' :: '\n' :: rest =>
    ⟨[], ['\r', '\n']⟩ :: breakLines isBreak rest
  | c :: rest =>
    if isBreak c then ⟨[], [c]⟩ :: breakLines isBreak rest
    else
      match breakLines isBreak rest with
      | [] => [⟨[c], []⟩]
      | line :: lines => ⟨c :: line.content, line.ending⟩ :: lines

/-- The lines of a text under the wide convention. -/
def wideLines (text : String) : List Line :=
  breakLines isWideBreak text.toList

/-- The lines of a text under the narrow convention. -/
def narrowLines (text : String) : List Line :=
  breakLines isNarrowBreak text.toList

/-- What is on each line of display, endings left out. -/
def displayLines (text : String) : List String :=
  (wideLines text).map fun l => String.ofList l.content

/-- Nothing is lost in breaking a text. -/
theorem flatMap_chars_breakLines (isBreak : Char → Bool) (text : List Char) :
    (breakLines isBreak text).flatMap Line.chars = text := by
  fun_induction breakLines isBreak text with
  | case1 => rfl
  | case2 rest ih => simp [Line.chars, ih]
  | case3 c rest _ _ ih => simp [Line.chars, ih]
  | case4 c rest _ _ h ih =>
    rw [h] at ih
    simp [Line.chars, ← ih]
  | case5 c rest _ _ line lines h ih =>
    rw [h] at ih
    simp [Line.chars, ← ih]

end Lineage.Text
