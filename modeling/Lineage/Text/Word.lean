import Lineage.Text.IdentifierTable
import Lineage.Text.WordTable

/-!
Word characters and decimal digits, as patterns over text use them.
-/

namespace Lineage.Text

/-- Code points that may start an identifier, but are neither letters nor numerals. -/
def identifierSymbols : List Nat :=
  [0x1885, 0x1886, 0x2118, 0x212e]

/-- A letter or a numeral past ASCII. -/
def isAlphanumeric (c : Char) : Bool :=
  (identifierStartSet.contains c && !identifierSymbols.contains c.toNat) || decimalSet.contains c ||
    numeralSet.contains c

/-- A letter, a numeral or an underscore. -/
def isWordChar (c : Char) : Bool :=
  c.isAlphanum || c == '_' || (c.toNat ≥ 128 && isAlphanumeric c)

/-- A decimal digit of any script. -/
def isDecimalDigit (c : Char) : Bool :=
  c.isDigit || (c.toNat ≥ 128 && decimalSet.contains c)

/-- The value of a decimal digit of any script: in every script the ten digits follow each other. -/
def digitValue? (c : Char) : Option Nat :=
  if c.isDigit then some (c.toNat - '0'.toNat)
  else
    (decimalSet.ranges.find? fun (first, last) => first ≤ c.toNat && c.toNat ≤ last).map
        fun (first, _) =>
      (c.toNat - first) % 10

end Lineage.Text
