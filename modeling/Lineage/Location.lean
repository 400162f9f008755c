/-!
Places in a source text: a first and a last line, counted from one, and a column on each, counted
from zero.
-/

namespace Lineage

/-- A stretch of source, from a column of its first line to a column of its last line. -/
structure Location where
  firstLine : Int
  firstColumn : Int
  lastLine : Int
  lastColumn : Int
deriving DecidableEq, Repr, Inhabited

namespace Location

/-- The lines a location lies on, in order. -/
def lines (l : Location) : List Int :=
  (List.range (l.lastLine - l.firstLine + 1).toNat).map fun k : Nat => l.firstLine + k

/-- Whether a line is one of the location's lines. -/
def containsLine (l : Location) (line : Int) : Bool :=
  decide (l.firstLine ≤ line ∧ line ≤ l.lastLine)

end Location

end Lineage
