import Std.Data.ExtTreeSet

/-!
Statements of a history: the ordinal of an execution and the index of a statement in it.
-/

namespace Lineage

/-- A statement of an execution. -/
structure Timestamp where
  ordinal : Int
  index : Int
deriving DecidableEq, Repr

namespace Timestamp

/-- Timestamps go by their ordinals, and at the same ordinal by their indices. -/
instance : Ord Timestamp where
  compare := compareLex (compareOn ordinal) (compareOn index)

instance : Std.TransOrd Timestamp :=
  inferInstanceAs (Std.TransCmp (compareLex (compareOn ordinal) (compareOn index)))

theorem compare_eq (a b : Timestamp) :
    compare a b = (compare a.ordinal b.ordinal).then (compare a.index b.index) := rfl

instance : Std.LawfulEqOrd Timestamp where
  eq_of_compare {a b} h := by
    rw [compare_eq, Ordering.then_eq_eq] at h
    obtain ⟨ho, hi⟩ := h
    cases a
    cases b
    simp_all

/-- A timestamp as it is shown. -/
def shown (t : Timestamp) : String :=
  toString t.ordinal ++ ":" ++ toString t.index

/-- The timestamps in order. -/
def sorted (ts : List Timestamp) : List Timestamp :=
  ts.mergeSort fun a b => (compare a b).isLE

end Timestamp

end Lineage
