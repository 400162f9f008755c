import Lineage.Text.CharSet
import Lineage.Text.NormalTable
import Std.Data.ExtTreeMap

/-!
One form for all ways to write an identifier. Characters are taken apart into what they stand for,
marks are put in order, and what can be put together is put together again.
-/

namespace Lineage.Text

/-- What code points stand for, from `code` on: the entries of the table, and what they are of.
`before` is the entry in front. -/
def decompositionsFrom (code : Nat) (before : List Nat) : List (List Nat) → List (Nat × List Nat)
  | [] => []
  | [0] :: rest => (code, before) :: decompositionsFrom (code + 1) before rest
  | [1] :: rest =>
    let lower := before.modifyHead (· + 32)
    (code, lower) :: decompositionsFrom (code + 1) lower rest
  | [start, 0] :: rest => decompositionsFrom start before rest
  | [first, 0, last] :: rest =>
    let count := last + 1 - first
    (List.range count).map (fun k => (code + k, [first + k])) ++
      decompositionsFrom (code + count) before rest
  | parts :: rest => (code, parts) :: decompositionsFrom (code + 1) parts rest

/-- What code points stand for, in their order. -/
def decompositionList : List (Nat × List Nat) :=
  decompositionsFrom 0 [] (tableEntries [] 0 (decompositionTable.flatMap String.toList))

/-- What each code point stands for. -/
def decompositions : Std.ExtTreeMap Nat (List Nat) :=
  decompositionList.foldl (fun m (code, parts) => m.insert code parts) ∅

/-- The marks of the ranges behind `last`, with their classes. -/
def marksFrom (last : Nat) : List (List Nat) → List (Nat × Nat)
  | [gap, reach, kind] :: rest =>
    (List.range (reach + 1)).map (fun k => (last + gap + k, kind)) ++
      marksFrom (last + gap + reach) rest
  | _ => []

/-- The class of each mark. -/
def markClasses : Std.ExtTreeMap Nat Nat :=
  (marksFrom 0 (tableEntries [] 0 (markTable.flatMap String.toList))).foldl
    (fun m (code, kind) => m.insert code kind) ∅

/-- A number for a pair of code points. -/
def pairKey (a b : Nat) : Nat :=
  a * 0x110000 + b

/-- Puts together what a code point stands for: all but the last of it, and then the last. -/
def addComposition (m : Std.ExtTreeMap Nat Nat) : Nat × List Nat → Std.ExtTreeMap Nat Nat
  | (code, first :: rest) =>
    let front := rest.dropLast.foldl (fun a b => m.getD (pairKey a b) 0) first
    m.insert (pairKey front (rest.getLastD 0)) code
  | _ => m

/-- The code points that join to others which stand for the same as some other code point. -/
def lookalikes : Std.ExtTreeMap Nat Nat :=
  .ofList [(pairKey 0x3d2 0x301, 0x3d3), (pairKey 0x3d2 0x308, 0x3d4),
    (pairKey 0x17f 0x307, 0x1e9b)]

/-- What stands for a pair of code points. What stands for fewer is put together first. -/
def compositions : Std.ExtTreeMap Nat Nat :=
  let composed := decompositionList.filter fun (code, parts) =>
    1 < parts.length && !uncomposedSet.contains (Char.ofNat code)
  (composed.mergeSort fun a b => a.2.length ≤ b.2.length).foldl addComposition lookalikes

/-- Takes a code point apart. Syllables of Hangul are numbered by their parts. -/
def decompose (code : Nat) : List Nat :=
  if 0xac00 ≤ code && code ≤ 0xd7a3 then
    let k := code - 0xac00
    let front := [0x1100 + k / 588, 0x1161 + k % 588 / 28]
    if k % 28 = 0 then front else front ++ [0x11a7 + k % 28]
  else decompositions.getD code [code]

/-- The class of a mark, zero for all else. -/
def markClass (code : Nat) : Nat :=
  markClasses.getD code 0

/-- Puts marks that stand together in the order of their classes. -/
def orderMarks (marks : List Nat) : List Nat → List Nat
  | [] => marks.mergeSort fun a b => markClass a ≤ markClass b
  | c :: rest =>
    if markClass c = 0 then (marks.mergeSort fun a b => markClass a ≤ markClass b) ++
      c :: orderMarks [] rest
    else orderMarks (marks ++ [c]) rest

/-- What stands for a pair of code points, if anything does. -/
def compose? (a b : Nat) : Option Nat :=
  if 0x1100 ≤ a && a < 0x1113 && 0x1161 ≤ b && b < 0x1176 then
    some (0xac00 + ((a - 0x1100) * 21 + (b - 0x1161)) * 28)
  else if 0xac00 ≤ a && a ≤ 0xd7a3 && (a - 0xac00) % 28 = 0 && 0x11a8 ≤ b && b < 0x11c3 then
    some (a + (b - 0x11a7))
  else compositions[pairKey a b]?

/-- Puts together what can be: a mark joins what it stands on unless a mark of its class or a higher
one stands between them. `marks` holds the marks that did not join `start`. -/
def composeFrom (start : Nat) (marks : List Nat) (last : Nat) : List Nat → List Nat
  | [] => start :: marks
  | c :: rest =>
    match if marks.isEmpty || last < markClass c then compose? start c else none with
    | some joined => composeFrom joined marks last rest
    | none =>
      if markClass c = 0 then start :: marks ++ composeFrom c [] 0 rest
      else composeFrom start (marks ++ [c]) (markClass c) rest

/-- Puts together what can be, once something is met that is no mark. -/
def composeAll : List Nat → List Nat
  | [] => []
  | c :: rest => if markClass c = 0 then composeFrom c [] 0 rest else c :: composeAll rest

/-- The one form of all ways to write an identifier. -/
def compatibilityForm (cs : List Char) : List Char :=
  if cs.all fun c => c.toNat < 128 then cs
  else
    let parts := cs.flatMap fun c => decompose c.toNat
    (composeAll (orderMarks [] parts)).map Char.ofNat

end Lineage.Text
