import Lineage.Location

/-!
Ranges of lines, and the shortest list of ranges for a set of lines.
-/

namespace Lineage

/-- The lines from a first to a last one, both included; none if they stand the wrong way round. -/
structure LineRange where
  first : Int
  last : Int
deriving DecidableEq, Repr

namespace LineRange

/-- Whether two ranges overlap or follow each other without a line between them. -/
def touches (a b : LineRange) : Bool :=
  decide (b.first ≤ a.last + 1 ∧ a.first ≤ b.last + 1)

/-- The lines of a range, in order. -/
def lines (r : LineRange) : List Int :=
  (List.range (r.last - r.first + 1).toNat).map fun k : Nat => r.first + k

/-- Whether a range goes before another: by first line, then by last line. -/
def before (a b : LineRange) : Bool :=
  decide (a.first < b.first ∨ (a.first = b.first ∧ a.last ≤ b.last))

/-- Joins ranges that are in order: each with those behind it as long as they touch. -/
def joinFrom (current : LineRange) : List LineRange → List LineRange
  | [] => [current]
  | r :: rest =>
    if current.touches r then joinFrom ⟨current.first, max current.last r.last⟩ rest
    else current :: joinFrom r rest

/-- Joins ranges that are in order. -/
def join : List LineRange → List LineRange
  | [] => []
  | r :: rest => joinFrom r rest

/-- The fewest ranges for the lines of some ranges, in order. -/
def merge (rs : List LineRange) : List LineRange :=
  join (rs.mergeSort before)

/-- A range as it is shown. -/
def shown (r : LineRange) : String :=
  toString r.first ++ "-" ++ toString r.last

end LineRange

end Lineage
