import Lineage.Text.CharSet

/-!
White space, and trimming it from the ends of a text.
-/

namespace Lineage.Text

/-- The white space of Unicode, with the separators of the ASCII control block. -/
def blankSet : CharSet := ⟨#[
  (9, 13), (28, 32), (133, 133), (160, 160), (5760, 5760), (8192, 8202), (8232, 8233), (8239, 8239),
  (8287, 8287), (12288, 12288)]⟩

/-- White space. -/
def isBlank (c : Char) : Bool :=
  blankSet.contains c

/-- Drops the white space in front. -/
def trimStart (cs : List Char) : List Char :=
  cs.dropWhile isBlank

/-- Drops the white space behind. -/
def trimEnd (cs : List Char) : List Char :=
  (cs.reverse.dropWhile isBlank).reverse

/-- Drops the white space at both ends. -/
def trim (cs : List Char) : List Char :=
  trimEnd (trimStart cs)

end Lineage.Text
