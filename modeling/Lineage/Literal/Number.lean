import Lineage.Literal
import Lineage.Token.Lexeme

/-!
The values of number literals.
-/

namespace Lineage.Literal

/-- The value of a digit in any base up to sixteen. -/
def digitValue (c : Char) : Nat :=
  if c.isDigit then c.toNat - '0'.toNat
  else if 'a' ≤ c && c ≤ 'f' then c.toNat - 'a'.toNat + 10
  else if 'A' ≤ c && c ≤ 'F' then c.toNat - 'A'.toNat + 10
  else 0

/-- The number that digits in a base stand for. -/
def ofDigits (base : Nat) (ds : List Char) : Nat :=
  ds.foldl (fun n d => n * base + digitValue d) 0

/-- A number in decimal notation: `mantissa` times ten to the `exponent`. -/
structure Decimal where
  mantissa : Nat
  exponent : Int

/-- The nearest double to a decimal number, as its bits. Numbers far beyond the range of doubles are
not computed with: they are infinite or zero. -/
def Decimal.bits (d : Decimal) (places : Nat) : UInt64 :=
  if d.mantissa = 0 then (0.0 : Float).toBits
  else if 400 < d.exponent + places then (1.0 / 0.0 : Float).toBits
  else if d.exponent + places < -400 then (0.0 : Float).toBits
  else (Float.ofScientific d.mantissa (decide (d.exponent < 0)) d.exponent.natAbs).toBits

/-- The exponent written behind a mantissa. -/
def exponentOf : List Char → Int
  | '+' :: ds => ofDigits 10 ds
  | '-' :: ds => -(ofDigits 10 ds : Int)
  | ds => ofDigits 10 ds

/-- The bits of a decimal number without imaginary mark and underscores. -/
def floatBits (cs : List Char) : UInt64 :=
  let isMark (c : Char) : Bool := c == 'e' || c == 'E'
  let mantissa := cs.takeWhile (fun c => !isMark c)
  let exponent := exponentOf ((cs.dropWhile (fun c => !isMark c)).drop 1)
  let whole := mantissa.takeWhile (· ≠ '.')
  let fraction := (mantissa.dropWhile (· ≠ '.')).drop 1
  let ds := (whole ++ fraction).dropWhile (· = '0')
  Decimal.bits ⟨ofDigits 10 ds, exponent - fraction.length⟩ ds.length

/-- The most digits that a whole number in decimal notation may have. -/
def maxDecimalDigits : Nat := 4300

/-- The value of a number literal; none for a whole number that is too long to be read. -/
def ofNumber? (text : List Char) : Option Literal :=
  match text.filter (· ≠ '_') with
  | '0' :: 'x' :: ds | '0' :: 'X' :: ds => some (.int (ofDigits 16 ds))
  | '0' :: 'o' :: ds | '0' :: 'O' :: ds => some (.int (ofDigits 8 ds))
  | '0' :: 'b' :: ds | '0' :: 'B' :: ds => some (.int (ofDigits 2 ds))
  | cs =>
    if cs.getLast?.any (fun c => c == 'j' || c == 'J') then
      some (.complex (0.0 : Float).toBits (floatBits cs.dropLast))
    else if cs.any (fun c => c == '.' || c == 'e' || c == 'E') then some (.float (floatBits cs))
    else if maxDecimalDigits < cs.length then none
    else some (.int (ofDigits 10 cs))

end Lineage.Literal
