/-!
The values that literals of a source stand for.
-/

namespace Lineage

/-- The value of a literal. A float is its sixty-four bits. A text is a sequence of code points,
since an escape can name a lone surrogate, which is no character. -/
inductive Literal where
  | nil
  | bool (value : Bool)
  | ellipsis
  | int (value : Int)
  | float (bits : UInt64)
  | complex (real imaginary : UInt64)
  | bytes (value : List UInt8)
  | text (codes : List Nat)
deriving DecidableEq, Repr

end Lineage
