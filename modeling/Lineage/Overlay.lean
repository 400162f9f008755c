import Lineage.Notebook.Value

/-!
Setting attributes for the time of a block. The attributes have their former values again when the
block ends, however it ends.
-/

namespace Lineage.Overlay

open Notebook

/-- Why a block did not run to its end. -/
inductive Failure where
  | unknownAttribute (name : String)
  | raised (message : String)
deriving DecidableEq, Repr

/-- What running nested blocks shows: the attributes as they were seen on the way, and as they are
in the end. -/
structure Trace where
  seen : List Fields
  final : Fields
  failure : Option Failure

/-- Sets attributes. -/
def assign (attributes changes : Fields) : Fields :=
  changes.foldl (fun all (name, v) => all.set name v) attributes

/-- The values that the attributes of a change have before it. -/
def saved (attributes changes : Fields) : Fields :=
  changes.filterMap fun (name, _) => (attributes.get? name).map fun v => (name, v)

/-- The first attribute of a change that is not there. -/
def unknown? (attributes changes : Fields) : Option String :=
  (changes.find? fun (name, _) => !attributes.has name).map Prod.fst

/-- Runs blocks inside each other, each of which sets attributes; the innermost may raise an error.
A block that is to set an attribute that is not there is not run. -/
def run (raised : Option String) : (attributes : Fields) → List Fields → Trace
  | attributes, [] => ⟨[attributes], attributes, raised.map Failure.raised⟩
  | attributes, changes :: inner =>
    match unknown? attributes changes with
    | some name => ⟨[attributes], attributes, some (.unknownAttribute name)⟩
    | none =>
      let trace := run raised (assign attributes changes) inner
      let final := assign trace.final (saved attributes changes)
      ⟨attributes :: trace.seen ++ (if trace.failure.isSome then [] else [final]), final,
        trace.failure⟩

end Lineage.Overlay
