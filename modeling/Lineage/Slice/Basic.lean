import Lineage.Log.Execution
import Lineage.Slice.LineRange

/-!
Slices: of each execution the lines that are needed, in the order of the executions, and their text.
-/

namespace Lineage

/-- The part of an execution that a slice needs. -/
structure CellSlice where
  execution : Execution
  ranges : List LineRange

namespace CellSlice

/-- The part that some ranges of lines cover. -/
def ofRanges (e : Execution) (rs : List LineRange) : CellSlice :=
  ⟨e, LineRange.merge rs⟩

/-- The ordinal of the execution. -/
def ordinal (c : CellSlice) : Int :=
  c.execution.ordinal

/-- A line of a text by its number, counted from one. -/
def line? (lines : List String) (n : Int) : Option String :=
  if 1 ≤ n then lines[(n - 1).toNat]? else none

/-- The lines of the part. -/
def lines (c : CellSlice) : List String :=
  c.ranges.flatMap fun r => r.lines.filterMap (line? c.execution.displayLines)

/-- The text of the part. -/
def text (c : CellSlice) : String :=
  "\n".intercalate c.lines

/-- The line that is put in front of a part: it names the cell by its count, or else by its
ordinal. -/
def header (c : CellSlice) : String :=
  "# Cell " ++ toString (c.execution.count.getD c.ordinal) ++ "\n"

/-- A part as it is shown. -/
def shown (c : CellSlice) : String :=
  "<CellSlice " ++ toString c.ordinal ++ " of " ++ c.execution.id ++ " [" ++
    ", ".intercalate (c.ranges.map LineRange.shown) ++ "]>"

end CellSlice

/-- What has to be run again to get what an execution did, and the names that nothing in the history
defines. -/
structure Slice where
  target : Execution
  parts : List CellSlice
  unresolved : Flow.NameSet

namespace Slice

/-- The ordinals of the executions, in order. -/
def ordinals (s : Slice) : List Int :=
  s.parts.map CellSlice.ordinal

/-- The part of the execution with an ordinal. -/
def part? (s : Slice) (ordinal : Int) : Option CellSlice :=
  s.parts.find? fun c => c.ordinal == ordinal

/-- Ranges of lines by the ordinals of the executions they belong to. -/
abbrev Ranges := Std.ExtTreeMap Int (Execution × List LineRange)

/-- Adds ranges of an execution. -/
def addRanges (found : Ranges) (e : Execution) (rs : List LineRange) : Ranges :=
  found.insert e.ordinal (e, ((found[e.ordinal]?.map Prod.snd).getD []) ++ rs)

/-- The parts that ranges make up, in the order of the ordinals. -/
def partsOf (found : Ranges) : List CellSlice :=
  found.toList.map fun (_, e, rs) => .ofRanges e rs

/-- The later of two executions; the first if they have the same ordinal. -/
def later (a b : Execution) : Execution :=
  if a.ordinal < b.ordinal then b else a

/-- The union of slices, for the latest of their targets; of no slices there is none. -/
def merge : List Slice → Option Slice
  | [] => none
  | first :: rest =>
    let all := first :: rest
    some {
      target := rest.foldl (fun e s => later e s.target) first.target
      parts :=
      partsOf ((all.flatMap parts).foldl (fun found c => addRanges found c.execution c.ranges) ∅)
      unresolved := all.foldl (fun names s => names ∪ s.unresolved) ∅ }

/-- What is told when there are no slices to merge. -/
def nothingToMerge : String := "need at least one slice to merge"

/-- The text of a slice, with what is done to the text of each cell before it is shown. -/
def toText (s : Slice) (format : String → String) (headers : Bool) : String :=
  let content (c : CellSlice) : String :=
    if headers then c.header ++ format c.text else format c.text
  let separator := if headers then "\n\n" else "\n"
  String.ofList (Text.trim (separator.intercalate (s.parts.map content)).toList)

/-- A slice as it is shown. -/
def shown (s : Slice) : String :=
  "<Slice of " ++ s.target.shown ++ " over [" ++ ", ".intercalate (s.ordinals.map toString) ++ "]>"

end Slice

end Lineage
