import Lineage.Log.Basic
import Lineage.Log.Timestamp
import Lineage.Slice.Implicit

/-!
What a statement of a history depends on. A statement needs those that its edges come from and those
that define the names it reads from outside; a function or class that is needed at some point also
needs what defines the names that its body reads there. All that is needed is found by following
these steps until nothing new comes up.
-/

namespace Lineage.Slice

/-- A function or class and the point where it may run: a statement, or the end of an execution. -/
structure Call where
  target : Timestamp
  site : Timestamp
deriving DecidableEq, Repr

namespace Call

/-- Calls go by their targets, and at the same target by their sites. -/
instance : Ord Call where
  compare := compareLex (compareOn target) (compareOn site)

instance : Std.TransOrd Call :=
  inferInstanceAs (Std.TransCmp (compareLex (compareOn target) (compareOn site)))

theorem compare_eq (a b : Call) :
    compare a b = (compare a.target b.target).then (compare a.site b.site) := rfl

instance : Std.LawfulEqOrd Call where
  eq_of_compare {a b} h := by
    rw [compare_eq, Ordering.then_eq_eq] at h
    obtain ⟨ht, hs⟩ := h
    cases a
    cases b
    simp_all

end Call

/-- Something to be followed: a statement that is needed, or a call of one. -/
inductive Goal where
  | statement (t : Timestamp)
  | call (c : Call)
deriving DecidableEq, Repr

/-- What following a goal leads to: further goals, and names that nothing defines. -/
structure Leads where
  goals : List Goal
  unresolved : List String

namespace Leads

/-- Leads to nothing. -/
def none : Leads := ⟨[], []⟩

/-- Both leads. -/
def append (a b : Leads) : Leads :=
  ⟨a.goals ++ b.goals, a.unresolved ++ b.unresolved⟩

instance : Append Leads := ⟨append⟩

/-- The leads of several things together. -/
def all {α : Type} (f : α → Leads) (xs : List α) : Leads :=
  ⟨xs.flatMap fun x => (f x).goals, xs.flatMap fun x => (f x).unresolved⟩

end Leads

/-- A history and the way in which calls are followed: with `atCall` the names that a body reads are
looked up where the function is used, and else only where it is defined. -/
structure Scene where
  log : Log
  atCall : Bool

namespace Scene

/-- A statement of the history. -/
def statement? (s : Scene) (t : Timestamp) : Option Flow.StatementFacts :=
  (s.log.at? t.ordinal).bind fun e => if 0 ≤ t.index then e.statements[t.index.toNat]? else none

/-- The point at the end of an execution. -/
def exitSite (e : Execution) : Timestamp :=
  ⟨e.ordinal, e.statements.length⟩

/-- What reaches a point: a statement, or the end of an execution. -/
def stateAt (s : Scene) (site : Timestamp) : Flow.State :=
  match s.statement? site with
  | some f => f.entry
  | none => ((s.log.at? site.ordinal).map Execution.exit).getD ∅

/-- The goals of a needed statement, which may be known to be used at some point. -/
def need (s : Scene) (site : Option Timestamp) (t : Timestamp) : List Goal :=
  match s.statement? t with
  | none => []
  | some f =>
    if f.free.isEmpty then [.statement t]
    else
      let own := ((s.log.at? t.ordinal).map exitSite).getD t
      [.call ⟨t, if s.atCall then site.getD own else own⟩, .statement t]

/-- The statements of an execution that origins stand for. -/
def stampsOf (ordinal : Int) (origins : Flow.Origins) : List Timestamp :=
  origins.toList.filterMap fun
    | .statement k => some ⟨ordinal, k⟩
    | _ => none

/-- The statements of an execution that may define any name. -/
def anyDefiners (s : Scene) (ordinal : Int) : List Timestamp :=
  ((s.log.originsAt Flow.allNames ordinal).map (stampsOf ordinal)).getD []

/-- The statements that may have defined a name, going back over executions until one has defined it
for sure. -/
def definersBack (s : Scene) (name : String) : List Int → List Timestamp
  | [] => []
  | ordinal :: older =>
    s.anyDefiners ordinal ++
      match s.log.originsAt name ordinal with
      | none => definersBack s name older
      | some origins =>
        stampsOf ordinal origins ++
          if origins.contains .entry then definersBack s name older else []

/-- Whether one of some executions may have defined a name. -/
def isDefinedBy (s : Scene) (name : String) (ordinals : List Int) : Bool :=
  ordinals.any fun ordinal =>
    !(s.anyDefiners ordinal).isEmpty || (s.log.originsAt name ordinal).isSome

/-- Looks a single name up in the executions before an ordinal, for a use at some point. -/
def lookUpName (s : Scene) (bound : Int) (site : Timestamp) (name : String) : Leads :=
  let definers := s.log.definersBefore name bound
  ⟨(s.definersBack name definers).flatMap (s.need (some site)),
    if s.isDefinedBy name definers || isImplicit name then [] else [name]⟩

/-- Looks a name, or all of them, up in the executions before an ordinal, for a use at some
point. -/
def lookUp (s : Scene) (bound : Int) (site : Timestamp) (name : String) : Leads :=
  if name = Flow.allNames then
    Leads.all (s.lookUpName bound site) (s.log.namesBefore bound) ++
      ⟨((s.log.definersBefore Flow.allNames bound).flatMap s.anyDefiners).flatMap
        (s.need (some site)), []⟩
  else s.lookUpName bound site name

/-- Resolves a name as it is read at some point: by what reaches the point and, where that may be
from before, in the executions before. -/
def resolve (s : Scene) (site : Timestamp) (name : String) : Leads :=
  let state := s.stateAt site
  if name = Flow.allNames then
    let origins := state.toList.flatMap fun (_, origins) => stampsOf site.ordinal origins
    ⟨origins.flatMap (s.need (some site)), []⟩ ++ s.lookUp site.ordinal site name
  else
    let origins := Flow.StatementFacts.origins state name
    let here : Leads := ⟨(stampsOf site.ordinal origins).flatMap (s.need (some site)), []⟩
    if origins.contains .entry then here ++ s.lookUp site.ordinal site name else here

/-- The goals of the statement that an edge comes from. -/
def followEdge (s : Scene) (t : Timestamp) (edge : Flow.Edge) : List Goal :=
  match (s.log.at? t.ordinal).bind fun e => e.facts?.bind fun r => r.at? edge.source with
  | none => []
  | some source =>
    s.need (if edge.kind = .data then some t else none) ⟨t.ordinal, source.index⟩

/-- What following a goal leads to. -/
def follow (s : Scene) : Goal → Leads
  | .statement t =>
    match s.statement? t with
    | none => .none
    | some f => ⟨f.inbound.flatMap (s.followEdge t), []⟩ ++ Leads.all (s.lookUp t.ordinal t)
        f.external.toList
  | .call c =>
    match s.statement? c.target with
    | none => .none
    | some f => Leads.all (s.resolve c.site) f.free.toList

/-- The number of statements in the history. -/
def statementCount (s : Scene) : Nat :=
  (s.log.executions.flatMap Execution.statements).length

/-- The most goals that there can be: every statement, and every statement at every point. -/
def goalLimit (s : Scene) : Nat :=
  s.statementCount + s.statementCount * (s.statementCount + s.log.size)

end Scene

/-- What has been found to be needed. -/
structure Closure where
  included : Std.ExtTreeSet Timestamp
  calls : Std.ExtTreeSet Call
  unresolved : Flow.NameSet

namespace Closure

/-- Nothing is needed. -/
def empty : Closure := ⟨∅, ∅, ∅⟩

/-- Whether a goal has been followed. -/
def has (c : Closure) : Goal → Bool
  | .statement t => c.included.contains t
  | .call call => c.calls.contains call

/-- Marks a goal as followed. -/
def add (c : Closure) : Goal → Closure
  | .statement t => { c with included := c.included.insert t }
  | .call call => { c with calls := c.calls.insert call }

/-- Adds names that nothing defines. -/
def leave (c : Closure) (names : List String) : Closure :=
  { c with unresolved := c.unresolved.insertMany names }

/-- Follows goals and all that they lead to. Each round follows one goal that was not followed
before, so there need not be more rounds than goals. -/
def follow (s : Scene) : (rounds : Nat) → List Goal → Closure → Closure
  | 0, _, c => c
  | rounds + 1, goals, c =>
    match goals.dropWhile c.has with
    | [] => c
    | goal :: rest =>
      let leads := s.follow goal
      follow s rounds (leads.goals ++ rest) ((c.add goal).leave leads.unresolved)

/-- Needs statements, used at some point if one is given. -/
def require (s : Scene) (site : Option Timestamp) (ts : List Timestamp) (c : Closure) : Closure :=
  follow s s.goalLimit (ts.flatMap (s.need site)) c

/-- The indices of the needed statements of an execution. -/
def indicesOf (c : Closure) (ordinal : Int) : List Int :=
  (c.included.toList.filter fun t => t.ordinal == ordinal).map Timestamp.index

/-- The ordinals of the executions with needed statements, in order. -/
def ordinals (c : Closure) : List Int :=
  (Std.ExtTreeSet.ofList (c.included.toList.map Timestamp.ordinal) : Std.ExtTreeSet Int).toList

end Closure

end Lineage.Slice
