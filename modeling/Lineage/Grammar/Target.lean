import Lineage.Grammar.Expr

/-!
Which expressions may be assigned to, deleted, or updated in place.
-/

namespace Lineage.Grammar.Expr

mutual

/-- Names, attributes and subscripts may be assigned to, and so may tuples and lists of targets, in
which targets may be starred, though not twice. -/
def isTarget : Expr → Bool
  | .name .. | .member .. | .subscript .. => true
  | .starred _ (.starred ..) => false
  | .starred _ value => value.isTarget
  | .tuple _ items | .list _ items => areTargets items
  | _ => false

/-- All of some expressions may be assigned to. -/
def areTargets : List Expr → Bool
  | [] => true
  | e :: es => e.isTarget && areTargets es

end

mutual

/-- What may be deleted: as what may be assigned to, without stars. -/
def isDeletable : Expr → Bool
  | .name .. | .member .. | .subscript .. => true
  | .tuple _ items | .list _ items => areDeletable items
  | _ => false

/-- All of some expressions may be deleted. -/
def areDeletable : List Expr → Bool
  | [] => true
  | e :: es => e.isDeletable && areDeletable es

end

/-- What an annotated or an updating assignment may have on its left. -/
def isSingleTarget : Expr → Bool
  | .name .. | .member .. | .subscript .. => true
  | _ => false

end Lineage.Grammar.Expr
