import Lineage.Flow.Origin
import Std.Data.ExtTreeMap

/-!
States of a block of statements: for each name, the origins its value may have. A name that a state
does not hold has the value it had before the block.
-/

namespace Lineage.Flow

/-- What may have been assigned to each name. -/
abbrev State := Std.ExtTreeMap String Origins

namespace State

/-- The origins of a name that nothing in the block has touched. -/
def untouched : Origins := {Origin.entry}

/-- The origins that reach a name. -/
def reaching (s : State) (name : String) : Origins :=
  s.getD name untouched

/-- The origins that some states have for a name. -/
def reachingAny (states : List State) (name : String) : Origins :=
  states.foldl (fun origins s => origins ∪ s.reaching name) ∅

/-- Any of some states: each name that one of them holds has the origins that they have for it. -/
def join (states : List State) : State :=
  (states.flatMap fun s => s.keys).foldl
    (fun joined name => joined.insert name (reachingAny states name)) ∅

/-- Either of two states. -/
def merge (a b : State) : State :=
  join [a, b]

/-- Whether two states give every name the same origins. -/
def same (a b : State) : Bool :=
  (a.keys ++ b.keys).all fun name => a.reaching name == b.reaching name

/-- The names that a state holds. -/
def names (s : State) : List String :=
  s.keys

end State

end Lineage.Flow
