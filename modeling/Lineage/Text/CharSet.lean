/-!
Sets of characters given by ranges of code points, with a membership test by bisection. Large sets
are written as tables: lists of lines of entries that end in semicolons, where an entry is a list of
numbers in base thirty-six.
-/

namespace Lineage.Text

/-- The value of a digit in base thirty-six, in lower case. -/
def digitValue (c : Char) : Nat :=
  if c.isDigit then c.toNat - '0'.toNat else c.toNat - 'a'.toNat + 10

/-- The entries of a table. `entry` holds the numbers of the entry that is being read, the last
first. -/
def tableEntries (entry : List Nat) (value : Nat) : List Char → List (List Nat)
  | [] => []
  | c :: rest =>
    if c = ';' then (value :: entry).reverse :: tableEntries [] 0 rest
    else if c = ' ' then tableEntries (value :: entry) 0 rest
    else tableEntries entry (value * 36 + digitValue c) rest

/-- A set of code points, as ascending and disjoint closed ranges. -/
structure CharSet where
  ranges : Array (Nat × Nat)

namespace CharSet

/-- Whether a range with index in `[lo, hi)` holds `code`; `fuel` bounds the number of halvings. -/
def search (s : CharSet) (code : Nat) : (fuel lo hi : Nat) → Bool
  | 0, _, _ => false
  | fuel + 1, lo, hi =>
    if lo < hi then
      let mid := (lo + hi) / 2
      match s.ranges[mid]? with
      | none => false
      | some (first, last) =>
        if code < first then s.search code fuel lo mid
        else if last < code then s.search code fuel (mid + 1) hi
        else true
    else false

/-- Membership of a character. -/
def contains (s : CharSet) (c : Char) : Bool :=
  s.search c.toNat (s.ranges.size + 1) 0 s.ranges.size

/-- The ranges behind `last`, given by how far each starts behind the one before and how far it
reaches. -/
def rangesFrom (last : Nat) : List (List Nat) → List (Nat × Nat)
  | [gap, reach] :: rest => (last + gap, last + gap + reach) :: rangesFrom (last + gap + reach) rest
  | _ => []

/-- The set that a table of gaps and reaches tells of. -/
def ofTable (table : List String) : CharSet :=
  ⟨(rangesFrom 0 (tableEntries [] 0 (table.flatMap String.toList))).toArray⟩

end CharSet

end Lineage.Text
