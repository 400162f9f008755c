import Lineage.Text.Lines

/-!
Taking the white space away that all lines of a text start with. Lines end at line feeds here, and
only spaces and tabs count as indentation.
-/

namespace Lineage.Text

/-- The lines of a text under the wide convention, each with its ending. -/
def keptLines (text : List Char) : List (List Char) :=
  (breakLines isWideBreak text).map Line.chars

/-- The lines of a text that line feeds end, without their ends. -/
def feedLines : List Char → List (List Char)
  | [] => [[]]
  | c :: rest =>
    if c = '\n' then [] :: feedLines rest
    else
      match feedLines rest with
      | [] => [[c]]
      | line :: lines => (c :: line) :: lines

/-- Puts line feeds between lines. -/
def joinFeeds : List (List Char) → List Char
  | [] => []
  | [line] => line
  | line :: rest => line ++ '\n' :: joinFeeds rest

/-- Spaces and tabs. -/
def isIndent (c : Char) : Bool :=
  c == ' ' || c == '\t'

/-- What two texts start with in common. -/
def commonFront : List Char → List Char → List Char
  | a :: as, b :: bs => if a = b then a :: commonFront as bs else []
  | _, _ => []

/-- The indentation that all lines share; lines of nothing but indentation have no say. -/
def margin (lines : List (List Char)) : List Char :=
  match (lines.filter fun l => !l.all isIndent).map (List.takeWhile isIndent) with
  | [] => []
  | first :: rest => rest.foldl commonFront first

/-- Takes the margin off every line; lines of nothing but indentation become empty. -/
def dedent (text : List Char) : List Char :=
  let lines := feedLines text
  let width := (margin lines).length
  joinFeeds (lines.map fun l => if l.all isIndent then [] else l.drop width)

end Lineage.Text
