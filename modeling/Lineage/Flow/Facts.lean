import Lineage.Flow.Effect
import Lineage.Flow.State
import Lineage.Tree.Block

/-!
What is known of each statement of a block: which names it defines and uses, which statements it
depends on, and what reaches it.
-/

namespace Lineage.Flow

/-- How a name gets a value. -/
inductive DefinitionKind where
  | assignment
  | mutation
  | imported
  | starImport
  | function
  | classDef
  | loopTarget
  | withTarget
  | exceptTarget
  | deletion
  | globalAlias
  | unknown
deriving DecidableEq, Repr

namespace DefinitionKind

/-- The word for a kind of definition. -/
def word : DefinitionKind → String
  | assignment => "assignment"
  | mutation => "mutation"
  | imported => "import"
  | starImport => "star_import"
  | function => "function"
  | classDef => "class"
  | loopTarget => "loop_target"
  | withTarget => "with_target"
  | exceptTarget => "except_target"
  | deletion => "deletion"
  | globalAlias => "global_alias"
  | unknown => "unknown"

/-- Whether a definition replaces whatever the name had before; all others only add to it. -/
def kills : DefinitionKind → Bool
  | mutation | starImport | globalAlias | unknown => false
  | _ => true

end DefinitionKind

/-- How a name is used. -/
inductive UseKind where
  | direct
  | unknownEffect
  | everything
deriving DecidableEq, Repr

/-- The word for a kind of use. -/
def UseKind.word : UseKind → String
  | direct => "direct"
  | unknownEffect => "unknown_effect"
  | everything => "opaque"

/-- Why one statement depends on another. -/
inductive EdgeKind where
  | data
  | control
deriving DecidableEq, Repr

/-- The word for a kind of edge. -/
def EdgeKind.word : EdgeKind → String
  | data => "data"
  | control => "control"

/-- A definition of a name, with the path that was written. -/
structure Definition where
  name : String
  path : String
  kind : DefinitionKind
  location : Location
deriving DecidableEq, Repr

/-- A use of a name, with the path that was read. -/
structure Use where
  name : String
  path : String
  kind : UseKind
  location : Location
deriving DecidableEq, Repr

/-- A dependence of the statement at `sink` on the one at `source`; on data it is by a name. -/
structure Edge where
  kind : EdgeKind
  source : Location
  sink : Location
  name : Option String
deriving DecidableEq, Repr

/-- The name that stands for all names. -/
def allNames : String := "*"

/-- A first and a last line. -/
abbrev Span := Int × Int

/-- The lines a statement contributes on its own: all of its lines, or only the headers of its
clauses if it is compound. -/
def spans (n : Node) : List Span :=
  if n.kind.isCompound then n.clauseBlocks.map
    fun (header, _) => (header.firstLine, header.lastLine)
  else [(n.loc.firstLine, n.loc.lastLine)]

/-- Adds an element behind the others unless it is among them. -/
def addNew {α : Type} [DecidableEq α] (xs : List α) (x : α) : List α :=
  if x ∈ xs then xs else xs ++ [x]

/-- What is known of a statement. `external` holds the names whose value from before the block it
may read, `entry` what reaches it, `free` the names that the body of the function or class it
defines reads when it runs, and `globalWrites` those that it assigns outside itself. A `dynamic`
statement runs code that is not known. -/
structure StatementFacts where
  index : Nat
  node : Node
  parent : Option Nat
  definitions : List Definition
  uses : List Use
  inbound : List Edge
  external : NameSet
  entry : State
  free : NameSet
  globalWrites : NameSet
  dynamic : Bool

namespace StatementFacts

/-- What is known of a statement when it is first reached. -/
def fresh (index : Nat) (node : Node) (parent : Option Nat) (entry : State) : StatementFacts :=
  ⟨index, node, parent, [], [], [], ∅, entry, ∅, ∅, false⟩

/-- Where a statement stands. -/
def location (f : StatementFacts) : Location :=
  f.node.loc

/-- The lines a statement contributes. -/
def spans (f : StatementFacts) : List Span :=
  Flow.spans f.node

/-- The names a statement defines. -/
def definedNames (f : StatementFacts) : NameSet :=
  Std.ExtTreeSet.ofList (f.definitions.map Definition.name)

/-- Whether a line is one that the statement contributes. -/
def coversLine (f : StatementFacts) (line : Int) : Bool :=
  f.spans.any fun (first, last) => decide (first ≤ line ∧ line ≤ last)

/-- What reaches a name at the statement. -/
def reaching (f : StatementFacts) (name : String) : Origins :=
  f.entry.reaching name

/-- Records a definition. -/
def define (f : StatementFacts) (d : Definition) : StatementFacts :=
  { f with definitions := addNew f.definitions d }

/-- Records a dependence on another statement. -/
def dependOn (f : StatementFacts) (kind : EdgeKind) (source : StatementFacts)
    (name : Option String) : StatementFacts :=
  if source.index = f.index then f
  else { f with inbound := addNew f.inbound ⟨kind, source.location, f.location, name⟩ }

/-- Records what a use of a name may get from an origin. -/
def useOrigin (all : Array StatementFacts) (name : String) (f : StatementFacts) :
    Origin → StatementFacts
  | .parameter => f
  | .entry => { f with external := f.external.insert name }
  | .statement k =>
    match all[k]? with
    | none => f
    | some source => f.dependOn .data source (some name)

/-- The origins that a name may have in a state: its own, and those of what may have assigned any
name. -/
def origins (s : State) (name : String) : Origins :=
  match s[allNames]? with
  | none => s.reaching name
  | some anything => s.reaching name ∪ anything.erase .entry

/-- Records a use of every name in a state. -/
def useEverything (all : Array StatementFacts) (s : State) (f : StatementFacts) : StatementFacts :=
  let f := { f with uses := addNew f.uses ⟨allNames, allNames, .everything, f.location⟩ }
  let f := s.toList.foldl
    (fun f (name, origins) =>
      origins.toList.foldl
        (fun f origin => if origin = .entry then f else f.useOrigin all name origin) f) f
  { f with external := f.external.insert allNames }

/-- Records a use of a name in a state. -/
def use (all : Array StatementFacts) (s : State) (f : StatementFacts) (u : Use) : StatementFacts :=
  if u.name = allNames then f.useEverything all s
  else
    (origins s u.name).toList.foldl (fun f origin => f.useOrigin all u.name origin)
      { f with uses := addNew f.uses u }

end StatementFacts

/-- What an analysis of a block found: the facts of its statements by index, and what reaches its
end. -/
structure Result where
  statements : Array StatementFacts
  exit : State

namespace Result

/-- What reaches a name at the end of the block. -/
def reachingAtExit (r : Result) (name : String) : Origins :=
  r.exit.reaching name

/-- The names that the block may have given a value. -/
def definedNames (r : Result) : List String :=
  r.exit.keys.filter fun name => r.exit.reaching name != State.untouched

/-- Whether a name has a value from the block on every way through it. -/
def definitelyDefines (r : Result) (name : String) : Bool :=
  !(r.reachingAtExit name).contains .entry

/-- The statements that contribute one of the lines. -/
def onLines (r : Result) (lines : List Int) : List StatementFacts :=
  r.statements.toList.filter fun f => lines.any f.coversLine

/-- The facts of the last statement at a place. -/
def at? (r : Result) (loc : Location) : Option StatementFacts :=
  r.statements.toList.reverse.find? fun f => f.location = loc

/-- The places of the statements, each once, in the order of the first statement there. -/
def locations (r : Result) : List Location :=
  r.statements.toList.foldl (fun found f => addNew found f.location) []

end Result

end Lineage.Flow
