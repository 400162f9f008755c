import Lineage.Text.IdentifierTable
import Lineage.Text.WordTable

/-!
The characters that identifiers are made of.
-/

namespace Lineage.Text

/-- Whether `c` may start an identifier. -/
def isIdentifierStart (c : Char) : Bool :=
  c.isAlpha || c == '_' || (c.toNat ≥ 128 && identifierStartSet.contains c)

/-- Whether `c` may continue an identifier. -/
def isIdentifierContinue (c : Char) : Bool :=
  c.isAlphanum || c == '_' ||
    (c.toNat ≥ 128 && (identifierStartSet.contains c || decimalSet.contains c ||
      identifierMarkSet.contains c))

/-- Whether the characters spell an identifier. -/
def isIdentifier : List Char → Bool
  | [] => false
  | c :: cs => isIdentifierStart c && cs.all isIdentifierContinue

end Lineage.Text
