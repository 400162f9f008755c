import Lineage.Proofs.Flow.Parts
import Lineage.Flow.Analysis

/-!
Runs of a block of statements. A run is told by its events: it arrives at a statement, and the
statement binds names. No error is raised in a run, so a `try` statement runs its body, its `else`
clause and its `finally` clause; the bodies of functions and classes are not entered. A run may stop
wherever it has arrived, so all that is said of runs is said of their beginnings too.

Which way a run takes is left open: a branch takes any clause, and a loop goes round any number of
times. So is the order in which a statement binds its names, and how often an assignment expression
in it is evaluated.
-/

namespace Lineage.Flow

/-- Something that happens in a run, at the statement with an index. `bind` binds a name; `pass`
passes over all assignment expressions of the statement that would bind it; `stray` binds it in a
part of a target that the analysis does not look at. -/
inductive Event where
  | arrive (index : Nat) (node : Node)
  | bind (index : Nat) (node : Node) (name : String)
  | pass (index : Nat) (node : Node) (name : String)
  | stray (index : Nat) (node : Node) (name : String)

/-- The statement that an event counts as binding a name. An assignment expression counts whether it
is evaluated or passed over, and one that is not looked at does not. -/
def Event.binderOf (name : String) : Event → Option (Nat × Node)
  | .bind index node bound => if bound = name then some (index, node) else none
  | .pass index node passed => if passed = name then some (index, node) else none
  | _ => none

/-- The statement of the last event that counts as binding a name. -/
def lastBinder (name : String) (events : List Event) : Option (Nat × Node) :=
  events.reverse.findSome? (Event.binderOf name)

/-- The statement in which an event binds a name. -/
def Event.boundIn (name : String) : Event → Option (Nat × Node)
  | .bind index node bound => if bound = name then some (index, node) else none
  | .stray index node bound => if bound = name then some (index, node) else none
  | _ => none

/-- The statement of the last event that binds a name. -/
def lastBound (name : String) (events : List Event) : Option (Nat × Node) :=
  events.reverse.findSome? (Event.boundIn name)

/-- How a run goes on after some code: behind it, from the `break` or the `continue` of the loop
around, or not at all. -/
inductive Outcome where
  | finished
  | broke
  | continued
  | stopped
deriving DecidableEq, Repr

/-- The ways in which some code may run: by which events, and how it ends. -/
abbrev Behaviour := List Event → Outcome → Prop

namespace Behaviour

/-- Nothing happens. -/
def skip : Behaviour :=
  fun events outcome => events = [] ∧ outcome = .finished

/-- One code behind another. -/
def andThen (first second : Behaviour) : Behaviour := fun events outcome =>
  (outcome ≠ .finished ∧ first events outcome) ∨
    ∃ before after, events = before ++ after ∧ first before .finished ∧ second after outcome

/-- One code or another. -/
def either (first second : Behaviour) : Behaviour := fun events outcome =>
  first events outcome ∨ second events outcome

/-- The body of a loop: a `continue` ends it like its last statement. -/
def resumed (body : Behaviour) : Behaviour := fun events outcome =>
  (outcome = .finished ∧ (body events .finished ∨ body events .continued)) ∨
    (outcome ≠ .finished ∧ outcome ≠ .continued ∧ body events outcome)

/-- Code that no jump leaves. -/
def contained (code : Behaviour) : Behaviour := fun events outcome =>
  outcome ≠ .broke ∧ outcome ≠ .continued ∧ code events outcome

/-- A loop, given one round and what follows the last round. A `break` ends it and skips what
follows. -/
inductive Repeats (round last : Behaviour) : Behaviour where
  | last {events : List Event} {outcome : Outcome} : last events outcome →
      Repeats round last events outcome
  | again {before after : List Event} {outcome : Outcome} : round before .finished →
      Repeats round last after outcome → Repeats round last (before ++ after) outcome
  | broke {events : List Event} : round events .broke → Repeats round last events .finished
  | stopped {events : List Event} : round events .stopped → Repeats round last events .stopped

/-- A statement is arrived at and then runs, unless the run stops there. -/
def arriving (i : Nat) (n : Node) (code : Behaviour) : Behaviour := fun events outcome =>
  ∃ after, events = .arrive i n :: after ∧ (code after outcome ∨ (after = [] ∧ outcome = .stopped))

end Behaviour

/-- The events of a statement that binds names: those in `bound` always, those in `evaluated` if an
assignment expression is evaluated, and any of those in `strays`. -/
structure Acts (i : Nat) (n : Node) (evaluated bound strays : List String) (events : List Event) :
    Prop where
  sound : ∀ e ∈ events, (∃ name ∈ evaluated ++ bound, e = .bind i n name) ∨
    (∃ name ∈ evaluated, e = .pass i n name) ∨ ∃ name ∈ strays, e = .stray i n name
  bound : ∀ name ∈ bound, .bind i n name ∈ events
  evaluated : ∀ name ∈ evaluated, .bind i n name ∈ events ∨ .pass i n name ∈ events

namespace Behaviour

/-- A statement evaluates expressions and binds names. -/
def acting (i : Nat) (n : Node) (parts : List Node) (bound : List String) : Behaviour :=
    fun events outcome =>
  outcome = .finished ∧ Acts i n (parts.flatMap Node.walruses) bound [] events

end Behaviour

/-- How a run goes on after a statement without blocks. -/
def outcomeOf : Node → Outcome
  | .break _ => .broke
  | .continue _ => .continued
  | .returning .. | .raising .. => .stopped
  | _ => .finished

/-- The runs of a statement without blocks. One that brings in all names of a module, or that runs
unknown code and defines nothing, may bind any names. -/
def flatRuns (settings : Settings) (i : Nat) (n : Node) : Behaviour := fun events outcome =>
  outcome = outcomeOf n ∧
    if n.bindsAnyName settings then ∀ e ∈ events, ∃ name, e = .bind i n name
    else Acts i n (n.evaluatedParts.flatMap Node.walruses) n.boundNames n.strayNames events

section Runs

open Behaviour

variable (settings : Settings)

mutual

/-- The runs of a statement with an index. -/
def runs (i : Nat) : Node → Behaviour
  | n@(.branch _ _ test code elifs orelse) =>
    arriving i n (andThen (acting i n [test] [])
      (either (blockRuns (i + 1) code)
        (elifRuns i n (i + 1 + blockExtent code) elifs
          (clauseRuns (i + 1 + blockExtent code + (Node.elifStatements elifs).length) orelse))))
  | n@(.whileLoop _ _ test code orelse) =>
    arriving i n (andThen (acting i n [test] [])
      (Repeats (andThen (resumed (blockRuns (i + 1) code)) (acting i n [test] []))
        (clauseRuns (i + 1 + blockExtent code) orelse)))
  | n@(.forLoop _ _ target iter code orelse _) =>
    arriving i n (andThen (acting i n [iter] [])
      (Repeats (andThen (acting i n target.targetParts target.targetIds)
        (resumed (blockRuns (i + 1) code))) (clauseRuns (i + 1 + blockExtent code) orelse)))
  | n@(.attempt _ _ code handlers orelse final) =>
    let next := i + 1 + blockExtent code + (Node.handlerStatements handlers).length
    let guarded := andThen (blockRuns (i + 1) code) (clauseRuns next orelse)
    arriving i n (andThen (if final.isSome then contained guarded else guarded)
      (clauseRuns (next + (Node.clauseStatements orelse).length) final))
  | n@(.context _ _ items code _) =>
    arriving i n (andThen (acting i n (Node.contextParts items) (Node.contextIds items))
      (blockRuns (i + 1) code))
  | n => arriving i n (flatRuns settings i n)

/-- The runs of a block, the first statement of which has an index. -/
def blockRuns (i : Nat) : List Node → Behaviour
  | [] => skip
  | n :: rest => andThen (runs i n) (blockRuns (i + n.extent) rest)

/-- The runs of `elif` clauses of a statement: each test is evaluated if those before it were false,
and if all are, what comes last runs. -/
def elifRuns (k : Nat) (n : Node) (i : Nat) : List (Elif Node) → Behaviour → Behaviour
  | [], last => last
  | ⟨_, test, body⟩ :: rest, last =>
    andThen (acting k n [test] []) (either (blockRuns i body)
      (elifRuns k n (i + blockExtent body) rest last))

/-- The runs of an optional clause. -/
def clauseRuns (i : Nat) : Option (Clause Node) → Behaviour
  | none => skip
  | some ⟨_, body⟩ => blockRuns i body

end

end Runs

end Lineage.Flow
