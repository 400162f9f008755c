import Std.Data.ExtTreeSet

/-!
Where the value of a name may come from.
-/

namespace Lineage.Flow

/-- An origin of a value: what was there before the block ran, a parameter of the function whose
body the block is, or a statement of the block. -/
inductive Origin where
  | parameter
  | entry
  | statement (index : Nat)
deriving DecidableEq, Repr

namespace Origin

/-- The number that stands for an origin: its index for a statement, and a number below zero
otherwise. -/
def code : Origin → Int
  | parameter => -2
  | entry => -1
  | statement index => index

theorem code_injective {a b : Origin} (h : a.code = b.code) : a = b := by
  cases a <;> cases b <;> grind [code]

/-- Origins are ordered by their numbers. -/
instance : Ord Origin where
  compare a b := compare a.code b.code

theorem compare_eq (a b : Origin) : compare a b = compare a.code b.code := rfl

instance : Std.TransOrd Origin where
  eq_swap {a b} := by
    rw [compare_eq, compare_eq]
    exact Std.OrientedOrd.eq_swap
  isLE_trans {a b c} hab hbc := by
    rw [compare_eq] at hab hbc ⊢
    exact Std.TransOrd.isLE_trans hab hbc

instance : Std.LawfulEqOrd Origin where
  compare_self {a} := by
    rw [compare_eq]
    exact Std.ReflOrd.compare_self
  eq_of_compare h := code_injective (Std.LawfulEqOrd.eq_of_compare h)

end Origin

/-- A set of origins. -/
abbrev Origins := Std.ExtTreeSet Origin

end Lineage.Flow
