import Lineage.Proofs.Flow.Run
import Lineage.Proofs.Tree.Blocks

/-!
Runs in which jumps run the `finally` clauses that they leave, innermost first, before they take
effect. Else they are as the runs before: no error is raised, which way a run takes is left open,
and it may stop wherever it has arrived.

The analysis does not follow such jumps all the way. It takes a jump to go to its loop at once, from
where it stands; and a `finally` clause to be entered in front of or behind a step of what it
protects, where each statement of the body is a step and so is the whole `else` clause. And it goes
on behind a jump as if the jump had been passed over. A trace is a run together with what the
analysis follows of it.
-/

namespace Lineage.Flow

open List

variable {after entered followed : List Event} {trace : List Happening} {steps : List Step}
  {way : Outcome}

/-- Code and what runs whenever it is left, by a jump too. The jump goes on when the last code has
finished, and is forgotten if the last code jumps or stops itself. -/
def Behaviour.cleanup (code last : Behaviour) : Behaviour := fun events outcome =>
  (outcome = .stopped ∧ code events .stopped) ∨
    ∃ before after way ending, events = before ++ after ∧ way ≠ .stopped ∧ code before way ∧
      last after ending ∧ outcome = if ending = .finished then way else ending

section Runs

open Behaviour

variable (settings : Settings)

mutual

/-- The runs of a statement with an index. -/
def unwinds (i : Nat) : Node → Behaviour
  | n@(.branch _ _ test code elifs orelse) =>
    arriving i n (andThen (acting i n [test] [])
      (either (blockUnwinds (i + 1) code)
        (elifUnwinds i n (i + 1 + blockExtent code) elifs
          (clauseUnwinds (i + 1 + blockExtent code + (Node.elifStatements elifs).length) orelse))))
  | n@(.whileLoop _ _ test code orelse) =>
    arriving i n (andThen (acting i n [test] [])
      (Repeats (andThen (resumed (blockUnwinds (i + 1) code)) (acting i n [test] []))
        (clauseUnwinds (i + 1 + blockExtent code) orelse)))
  | n@(.forLoop _ _ target iter code orelse _) =>
    arriving i n (andThen (acting i n [iter] [])
      (Repeats (andThen (acting i n target.targetParts target.targetIds)
        (resumed (blockUnwinds (i + 1) code))) (clauseUnwinds (i + 1 + blockExtent code) orelse)))
  | n@(.attempt _ _ code handlers orelse final) =>
    let next := i + 1 + blockExtent code + (Node.handlerStatements handlers).length
    let guarded := andThen (blockUnwinds (i + 1) code) (clauseUnwinds next orelse)
    arriving i n (if final.isSome then
      cleanup guarded (clauseUnwinds (next + (Node.clauseStatements orelse).length) final)
        else guarded)
  | n@(.context _ _ items code _) =>
    arriving i n (andThen (acting i n (Node.contextParts items) (Node.contextIds items))
      (blockUnwinds (i + 1) code))
  | n => arriving i n (flatRuns settings i n)

/-- The runs of a block, the first statement of which has an index. -/
def blockUnwinds (i : Nat) : List Node → Behaviour
  | [] => skip
  | n :: rest => andThen (unwinds i n) (blockUnwinds (i + n.extent) rest)

/-- The runs of `elif` clauses of a statement. -/
def elifUnwinds (k : Nat) (n : Node) (i : Nat) : List (Elif Node) → Behaviour → Behaviour
  | [], last => last
  | ⟨_, test, body⟩ :: rest, last =>
    andThen (acting k n [test] [])
      (either (blockUnwinds i body) (elifUnwinds k n (i + blockExtent body) rest last))

/-- The runs of an optional clause. -/
def clauseUnwinds (i : Nat) : Option (Clause Node) → Behaviour
  | none => skip
  | some ⟨_, body⟩ => blockUnwinds i body

end

end Runs

/-! ### Traces -/

/-- An event of a run, and which events the analysis has followed before it. -/
structure Happening where
  event : Event
  followed : List Event

/-- The traces of some code behind what has been followed before: what happens, what has been
followed in the end, and how the run goes on. -/
abbrev Traces := List Event → List Happening → List Event → Outcome → Prop

/-- Events that are all followed. -/
def happenings : List Event → List Event → List Happening
  | _, [] => []
  | followed, e :: rest => ⟨e, followed⟩ :: happenings (followed ++ [e]) rest

theorem map_event_happenings (followed events : List Event) :
    (happenings followed events).map Happening.event = events := by
  induction events generalizing followed with
  | nil => rfl
  | cons e rest ih => rw [happenings, map_cons, ih]

theorem followed_of_mem_happenings {events : List Event} {h : Happening}
    (member : h ∈ happenings followed events) : ∃ before after, events = before ++ h.event ::
    after ∧ h.followed = followed ++ before := by
  induction events generalizing followed with
  | nil => exact absurd member not_mem_nil
  | cons e rest ih =>
    rcases mem_cons.mp member with rfl | later
    · exact ⟨[], rest, rfl, (append_nil _).symm⟩
    · obtain ⟨before, after, split, same⟩ := ih later
      refine ⟨e :: before, after, by rw [split, cons_append], ?_⟩
      rw [same, append_assoc, singleton_append]

namespace Traces

/-- Code that is followed in full. -/
def all (code : Behaviour) : Traces := fun followed trace after outcome =>
  ∃ events, code events outcome ∧ trace = happenings followed events ∧ after = followed ++ events

/-- One code behind another. -/
def andThen (first second : Traces) : Traces := fun followed trace after outcome =>
  (outcome ≠ .finished ∧ first followed trace after outcome) ∨
    ∃ early late between, trace = early ++ late ∧ first followed early between .finished ∧
      second between late after outcome

/-- One code or another. -/
def either (first second : Traces) : Traces := fun followed trace after outcome =>
  first followed trace after outcome ∨ second followed trace after outcome

/-- The body of a loop. -/
def resumed (body : Traces) : Traces := fun followed trace after outcome =>
  (outcome = .finished ∧ (body followed trace after .finished ∨
    body followed trace after .continued)) ∨
    (outcome ≠ .finished ∧ outcome ≠ .continued ∧ body followed trace after outcome)

/-- A loop, given one round and what follows the last round. -/
inductive Repeats (round last : Traces) : Traces where
  | last {followed : List Event} {trace : List Happening} {after : List Event} {outcome : Outcome} :
      last followed trace after outcome → Repeats round last followed trace after outcome
  | again {followed : List Event} {early late : List Happening} {between after : List Event}
      {outcome : Outcome} : round followed early between .finished →
        Repeats round last between late after outcome →
        Repeats round last followed (early ++ late) after outcome
  | broke {followed : List Event} {trace : List Happening} {after : List Event} :
      round followed trace after .broke → Repeats round last followed trace after .finished
  | stopped {followed : List Event} {trace : List Happening} {after : List Event} :
      round followed trace after .stopped → Repeats round last followed trace after .stopped

/-- A statement is arrived at and then runs, unless the run stops there. -/
def arriving (i : Nat) (n : Node) (code : Traces) : Traces := fun followed trace after outcome =>
  ∃ rest, trace = ⟨.arrive i n, followed⟩ :: rest ∧
    (code (followed ++ [.arrive i n]) rest after outcome ∨ (rest = [] ∧ outcome = .stopped))

/-- What has finished may be told as another run of the same code would have it. -/
def retold (own other : Traces) : Traces := fun followed trace after outcome =>
  own followed trace after outcome ∨
    (outcome = .finished ∧ (∃ between, own followed trace between .finished) ∧
      ∃ told, other followed told after .finished)

/-- A step of some code: how it runs, and how it may be told to have run. -/
structure Step where
  own : Traces
  other : Traces

/-- The traces of a step. -/
def Step.traces (step : Step) : Traces :=
  retold step.own step.other

/-- One step behind the other. -/
def sequence : List Step → Traces
  | [] => all .skip
  | step :: rest => andThen step.traces (sequence rest)

/-- One step behind the other, and what has been followed in front of or behind the step with which
the run leaves them. -/
inductive Leaves : List Step → List Event → List Happening → List Event → List Event → Outcome →
    Prop where
  | finished {followed : List Event} : Leaves [] followed [] followed followed .finished
  | front {step : Step} {rest : List Step} {followed : List Event} {trace : List Happening}
      {after : List Event} {way : Outcome} : way ≠ .finished → step.own followed trace after way →
        Leaves (step :: rest) followed trace after followed way
  | behind {step : Step} {rest : List Step} {followed : List Event} {trace told : List Happening}
      {after entered : List Event} {way : Outcome} : way ≠ .finished →
        step.own followed trace after way → step.other followed told entered .finished →
        Leaves (step :: rest) followed trace after entered way
  | later {step : Step} {rest : List Step} {followed : List Event} {early late : List Happening}
      {between after entered : List Event} {way : Outcome} : step.traces followed early between
        .finished → Leaves rest between late after entered way →
        Leaves (step :: rest) followed (early ++ late) after entered way

/-- Steps and what runs whenever they are left. A jump has the last code begin in front of or behind
the step that it leaves; and when the jump goes on, the last code is not followed. -/
def cleanup (steps : List Step) (last : Traces) : Traces := fun followed trace after outcome =>
  (outcome = .stopped ∧ sequence steps followed trace after .stopped) ∨
    ∃ early late left entered behind way ending, trace = early ++ late ∧ way ≠ .stopped ∧
      Leaves steps followed early left entered way ∧ last entered late behind ending ∧
      outcome = (if ending = .finished then way else ending) ∧
      after = if ending = .finished ∧ way ≠ .finished then left else behind

end Traces

/-- The traces of a statement without blocks. If jumps may be passed over, so may whatever else ends
a run. -/
def flatTraces (settings : Settings) (passing : Bool) (i : Nat) (n : Node) : Traces :=
  .all (.arriving i n fun events outcome => flatRuns settings i n events outcome ∨
    (passing = true ∧ outcome = .finished ∧ flatRuns settings i n events (outcomeOf n)))

section Traces

open Traces

variable (settings : Settings)

mutual

/-- The traces of a statement with an index. -/
def traces (passing : Bool) (i : Nat) : Node → Traces
  | n@(.branch _ _ test code elifs orelse) =>
    arriving i n (andThen (all (.acting i n [test] []))
      (either (sequence (blockSteps passing (i + 1) code))
        (elifTraces passing i n (i + 1 + blockExtent code) elifs
          (sequence (clauseSteps passing (i + 1 + blockExtent code +
            (Node.elifStatements elifs).length) orelse)))))
  | n@(.whileLoop _ _ test code orelse) =>
    let body := retold (resumed (sequence (blockSteps passing (i + 1) code)))
      (resumed (sequence (blockSteps true (i + 1) code)))
    arriving i n (andThen (all (.acting i n [test] []))
      (Repeats (andThen body (all (.acting i n [test] [])))
        (sequence (clauseSteps passing (i + 1 + blockExtent code) orelse))))
  | n@(.forLoop _ _ target iter code orelse _) =>
    let body := retold (resumed (sequence (blockSteps passing (i + 1) code)))
      (resumed (sequence (blockSteps true (i + 1) code)))
    arriving i n (andThen (all (.acting i n [iter] []))
      (Repeats (andThen (all (.acting i n target.targetParts target.targetIds)) body)
        (sequence (clauseSteps passing (i + 1 + blockExtent code) orelse))))
  | n@(.attempt _ _ code handlers orelse final) =>
    let next := i + 1 + blockExtent code + (Node.handlerStatements handlers).length
    let steps := blockSteps passing (i + 1) code ++
      [⟨sequence (clauseSteps passing next orelse), sequence (clauseSteps true next orelse)⟩]
    arriving i n (if final.isSome then
      cleanup steps
        (sequence (clauseSteps passing (next + (Node.clauseStatements orelse).length) final))
      else sequence steps)
  | n@(.context _ _ items code _) =>
    arriving i n (andThen (all (.acting i n (Node.contextParts items) (Node.contextIds items)))
      (sequence (blockSteps passing (i + 1) code)))
  | n => flatTraces settings passing i n

/-- The steps of a block, the first statement of which has an index. -/
def blockSteps (passing : Bool) (i : Nat) : List Node → List Step
  | [] => []
  | n :: rest => ⟨traces passing i n, traces true i n⟩ :: blockSteps passing (i + n.extent) rest

/-- The traces of `elif` clauses of a statement. -/
def elifTraces (passing : Bool) (k : Nat) (n : Node) (i : Nat) : List (Elif Node) → Traces → Traces
  | [], last => last
  | ⟨_, test, body⟩ :: rest, last =>
    andThen (all (.acting k n [test] []))
      (either (sequence (blockSteps passing i body))
        (elifTraces passing k n (i + blockExtent body) rest last))

/-- The steps of an optional clause. -/
def clauseSteps (passing : Bool) (i : Nat) : Option (Clause Node) → List Step
  | none => []
  | some ⟨_, body⟩ => blockSteps passing i body

end

end Traces

/-! ### Every run has a trace -/

namespace Traces

/-- Every run of some code is told by a trace, whatever has been followed before. -/
def Tells (traces : Traces) (code : Behaviour) : Prop :=
  ∀ followed events outcome, code events outcome →
    ∃ trace after, traces followed trace after outcome ∧ trace.map Happening.event = events

/-- Every run of some code is told by steps. -/
def TellsBy (steps : List Step) (code : Behaviour) : Prop :=
  ∀ followed events way, code events way →
    ∃ trace after entered, Leaves steps followed trace after entered way ∧
    trace.map Happening.event = events

variable {first second traces : Traces} {code early late : Behaviour}

theorem tells_all (code : Behaviour) : (all code).Tells code := fun followed events _ run =>
  ⟨_, _, ⟨events, run, rfl, rfl⟩, map_event_happenings followed events⟩

theorem Tells.andThen (before : first.Tells early) (after : second.Tells late) :
    (first.andThen second).Tells (early.andThen late) := by
  rintro followed events outcome (⟨jumps, run⟩ | ⟨begun, rest, rfl, run, more⟩)
  · obtain ⟨trace, after, told, same⟩ := before followed events outcome run
    exact ⟨trace, after, Or.inl ⟨jumps, told⟩, same⟩
  · obtain ⟨trace, between, told, same⟩ := before followed begun .finished run
    obtain ⟨trace', after, told', same'⟩ := after between rest outcome more
    exact ⟨trace ++ trace', after, Or.inr
      ⟨_, _, between, rfl, told, told'⟩, by rw [map_append, same, same']⟩

theorem Tells.either (left : first.Tells early) (right : second.Tells late) :
    (first.either second).Tells (early.either late) := by
  rintro followed events outcome (run | run)
  · obtain ⟨trace, after, told, same⟩ := left followed events outcome run
    exact ⟨trace, after, Or.inl told, same⟩
  · obtain ⟨trace, after, told, same⟩ := right followed events outcome run
    exact ⟨trace, after, Or.inr told, same⟩

theorem Tells.resumed (tells : traces.Tells code) : traces.resumed.Tells code.resumed := by
  rintro followed events outcome (⟨rfl, run | run⟩ | ⟨unfinished, uncontinued, run⟩)
  · obtain ⟨trace, after, told, same⟩ := tells followed events _ run
    exact ⟨trace, after, Or.inl ⟨rfl, Or.inl told⟩, same⟩
  · obtain ⟨trace, after, told, same⟩ := tells followed events _ run
    exact ⟨trace, after, Or.inl ⟨rfl, Or.inr told⟩, same⟩
  · obtain ⟨trace, after, told, same⟩ := tells followed events _ run
    exact ⟨trace, after, Or.inr ⟨unfinished, uncontinued, told⟩, same⟩

theorem Tells.retold (tells : traces.Tells code) (other : Traces) :
    (traces.retold other).Tells code := by
  intro followed events outcome run
  obtain ⟨trace, after, told, same⟩ := tells followed events outcome run
  exact ⟨trace, after, Or.inl told, same⟩

theorem Tells.repeats (rounds : first.Tells early) (lasts : second.Tells late) :
    (Repeats first second).Tells (early.Repeats late) := by
  intro followed events outcome run
  induction run generalizing followed with
  | last run =>
    obtain ⟨trace, after, told, same⟩ := lasts followed _ _ run
    exact ⟨trace, after, .last told, same⟩
  | again run _ ih =>
    obtain ⟨trace, between, told, same⟩ := rounds followed _ _ run
    obtain ⟨trace', after, told', same'⟩ := ih between
    exact ⟨trace ++ trace', after, .again told told', by rw [map_append, same, same']⟩
  | broke run =>
    obtain ⟨trace, after, told, same⟩ := rounds followed _ _ run
    exact ⟨trace, after, .broke told, same⟩
  | stopped run =>
    obtain ⟨trace, after, told, same⟩ := rounds followed _ _ run
    exact ⟨trace, after, .stopped told, same⟩

theorem Tells.arriving (tells : traces.Tells code) (i : Nat) (n : Node) :
    (traces.arriving i n).Tells (code.arriving i n) := by
  rintro followed events outcome ⟨rest, rfl, run | ⟨rfl, rfl⟩⟩
  · obtain ⟨trace, after, told, same⟩ := tells (followed ++ [.arrive i n]) rest outcome run
    exact ⟨⟨.arrive i n, followed⟩ :: trace, after,
      ⟨trace, rfl, Or.inl told⟩, by rw [map_cons, same]⟩
  · exact ⟨[⟨.arrive i n, followed⟩], followed, ⟨[], rfl, Or.inr ⟨rfl, rfl⟩⟩, rfl⟩

theorem tellsBy_nil : TellsBy [] .skip := by
  rintro followed events way ⟨rfl, rfl⟩
  exact ⟨[], followed, followed, .finished, rfl⟩

theorem TellsBy.cons {step : Step} {rest : List Step} (one : step.own.Tells early)
    (others : TellsBy rest late) : TellsBy (step :: rest) (early.andThen late) := by
  rintro followed events way (⟨jumps, run⟩ | ⟨begun, more, rfl, run, rest⟩)
  · obtain ⟨trace, after, told, same⟩ := one followed events way run
    exact ⟨trace, after, followed, .front jumps told, same⟩
  · obtain ⟨trace, between, told, same⟩ := one followed begun .finished run
    obtain ⟨trace', after, entered, told', same'⟩ := others between more way rest
    exact ⟨trace ++ trace', after, entered,
      .later (Or.inl told) told', by rw [map_append, same, same']⟩

theorem tellsBy_one {own other : Traces} (tells : own.Tells code) :
    TellsBy [⟨own, other⟩] code := by
  intro followed events way run
  obtain ⟨trace, after, told, same⟩ := tells followed events way run
  by_cases ends : way = .finished
  · subst ends
    refine ⟨trace ++ [], after, after, .later (Or.inl told) .finished, ?_⟩
    rwa [append_nil]
  · exact ⟨trace, after, followed, .front ends told, same⟩

/-- A run that leaves steps leaves them with whatever stands behind them. -/
theorem Leaves.append_left (leaves : Leaves steps followed trace after entered way)
    (jumps : way ≠ .finished) (more : List Step) :
    Leaves (steps ++ more) followed trace after entered way := by
  induction leaves with
  | finished => exact absurd rfl jumps
  | front unfinished told => exact .front unfinished told
  | behind unfinished told other => exact .behind unfinished told other
  | later told _ ih => exact .later told (ih jumps)

theorem Leaves.append {more : List Step} {between seen : List Event} {later : List Happening}
    {ending : Outcome} (leaves : Leaves steps followed trace between seen ending)
    (ends : ending = .finished) (next : Leaves more between later after entered way) :
    Leaves (steps ++ more) followed (trace ++ later) after entered way := by
  induction leaves with
  | finished => exact next
  | front unfinished _ => exact absurd ends unfinished
  | behind unfinished _ _ => exact absurd ends unfinished
  | later told _ ih =>
    rw [append_assoc]
    exact .later told (ih ends next)

theorem TellsBy.append {more : List Step} (before : TellsBy steps early)
    (after : TellsBy more late) : TellsBy (steps ++ more) (early.andThen late) := by
  rintro followed events way (⟨jumps, run⟩ | ⟨begun, rest, rfl, run, last⟩)
  · obtain ⟨trace, after, entered, leaves, same⟩ := before followed events way run
    exact ⟨trace, after, entered, leaves.append_left jumps more, same⟩
  · obtain ⟨trace, between, _, leaves, same⟩ := before followed begun .finished run
    obtain ⟨trace', after, entered, leaves', same'⟩ := after between rest way last
    exact ⟨trace ++ trace', after, entered,
      leaves.append rfl leaves', by rw [map_append, same, same']⟩

/-- Leaving steps is running them one behind the other. -/
theorem Leaves.sequence (leaves : Leaves steps followed trace after entered way) :
    Traces.sequence steps followed trace after way := by
  induction leaves with
  | finished => exact ⟨[], ⟨rfl, rfl⟩, rfl, (append_nil _).symm⟩
  | front unfinished told => exact Or.inl ⟨unfinished, Or.inl told⟩
  | behind unfinished told _ => exact Or.inl ⟨unfinished, Or.inl told⟩
  | later told _ ih => exact Or.inr ⟨_, _, _, rfl, told, ih⟩

theorem TellsBy.sequence (tells : TellsBy steps code) : (Traces.sequence steps).Tells code := by
  intro followed events outcome run
  obtain ⟨trace, after, _, leaves, same⟩ := tells followed events outcome run
  exact ⟨trace, after, leaves.sequence, same⟩

theorem TellsBy.cleanup (tells : TellsBy steps code) (lasts : traces.Tells late) :
    (cleanup steps traces).Tells (code.cleanup late) := by
  rintro followed events outcome (⟨rfl, run⟩ | ⟨begun, rest, way, ending, rfl, goes, run,
    last, rfl⟩)
  · obtain ⟨trace, after, told, same⟩ := tells.sequence followed events _ run
    exact ⟨trace, after, Or.inl ⟨rfl, told⟩, same⟩
  · obtain ⟨trace, left, entered, leaves, same⟩ := tells followed begun way run
    obtain ⟨trace', behind, told, same'⟩ := lasts entered rest ending last
    refine ⟨trace ++ trace', _, Or.inr ⟨_, _, left, entered, behind, way, ending, rfl, goes, leaves,
      told, rfl, rfl⟩, ?_⟩
    rw [map_append, same, same']

end Traces

section Traces

open Traces

variable {settings : Settings}

theorem tellsBy_blockSteps {code : List Node}
    (each : ∀ c ∈ code, ∀ i, (traces settings false i c).Tells (unwinds settings i c)) (i : Nat) :
    TellsBy (blockSteps settings false i code) (blockUnwinds settings i code) := by
  induction code generalizing i with
  | nil =>
    rw [blockSteps, blockUnwinds]
    exact tellsBy_nil
  | cons n rest ih =>
    obtain ⟨one, others⟩ := forall_mem_cons.mp each
    rw [blockSteps, blockUnwinds]
    exact .cons (one i) (ih others _)

theorem tellsBy_clauseSteps {clause : Option (Clause Node)}
    (each : ∀ c ∈ Clause.statements clause, ∀ i, (traces settings false i c).Tells
    (unwinds settings i c)) (i : Nat) : TellsBy (clauseSteps settings false i clause)
    (clauseUnwinds settings i clause) := by
  cases clause with
  | none =>
    rw [clauseSteps, clauseUnwinds]
    exact tellsBy_nil
  | some clause =>
    rw [clauseSteps, clauseUnwinds]
    exact tellsBy_blockSteps each i

theorem tells_elifTraces {elifs : List (Elif Node)}
    (each : ∀ e ∈ elifs, ∀ c ∈ e.body, ∀ i, (traces settings false i c).Tells
    (unwinds settings i c)) (k : Nat) (n : Node) (i : Nat) {last : Traces} {code : Behaviour}
    (lasts : last.Tells code) : (elifTraces settings false k n i elifs last).Tells
    (elifUnwinds settings k n i elifs code) := by
  induction elifs generalizing i with
  | nil =>
    rw [elifTraces, elifUnwinds]
    exact lasts
  | cons e rest ih =>
    obtain ⟨one, others⟩ := forall_mem_cons.mp each
    rw [elifTraces, elifUnwinds]
    exact (tells_all _).andThen (.either (tellsBy_blockSteps one i).sequence (ih others _))

theorem tells_flatTraces (i : Nat) (n : Node) :
    (flatTraces settings false i n).Tells (.arriving i n (flatRuns settings i n)) := by
  rintro followed events outcome ⟨rest, rfl, run⟩
  exact ⟨_, _, ⟨_, ⟨rest, rfl, run.imp_left Or.inl⟩, rfl, rfl⟩, map_event_happenings followed _⟩

theorem traces_flat {n : Node} (flat : n.kind.isCompound = false) (passing : Bool) (i : Nat) :
    traces settings passing i n = flatTraces settings passing i n := by
  cases n
  case branch => nomatch flat
  case whileLoop => nomatch flat
  case forLoop => nomatch flat
  case attempt => nomatch flat
  case context => nomatch flat
  all_goals rfl

theorem unwinds_flat {n : Node} (flat : n.kind.isCompound = false) (i : Nat) :
    unwinds settings i n = .arriving i n (flatRuns settings i n) := by
  cases n
  case branch => nomatch flat
  case whileLoop => nomatch flat
  case forLoop => nomatch flat
  case attempt => nomatch flat
  case context => nomatch flat
  all_goals rfl

/-- Every run of a statement has a trace. -/
theorem tells_traces (n : Node) : ∀ i, (traces settings false i n).Tells
    (unwinds settings i n) := by
  induction n using Node.clause_induction with
  | step n ih =>
    intro i
    cases n
    case branch =>
      obtain ⟨body, others, last⟩ := Node.forall_clauseBlocks_branch.mp ih
      rw [traces, unwinds]
      refine .arriving
        (.andThen (tells_all _) (.either (tellsBy_blockSteps body _).sequence ?_)) _ _
      exact tells_elifTraces others _ _ _ (tellsBy_clauseSteps last _).sequence
    case whileLoop =>
      obtain ⟨body, last⟩ := Node.forall_clauseBlocks_while.mp ih
      rw [traces, unwinds]
      refine .arriving (.andThen (tells_all _) (.repeats (.andThen ?_ (tells_all _))
        (tellsBy_clauseSteps last _).sequence)) _ _
      exact (tellsBy_blockSteps body _).sequence.resumed.retold _
    case forLoop =>
      obtain ⟨body, last⟩ := Node.forall_clauseBlocks_for.mp ih
      rw [traces, unwinds]
      refine .arriving (.andThen (tells_all _) (.repeats (.andThen (tells_all _) ?_)
        (tellsBy_clauseSteps last _).sequence)) _ _
      exact (tellsBy_blockSteps body _).sequence.resumed.retold _
    case attempt =>
      obtain ⟨body, _, last, ends⟩ := Node.forall_clauseBlocks_attempt.mp ih
      rw [traces, unwinds]
      refine .arriving ?_ _ _
      split
      · refine TellsBy.cleanup (.append (tellsBy_blockSteps body _) (tellsBy_one ?_))
          (tellsBy_clauseSteps ends _).sequence
        exact (tellsBy_clauseSteps last _).sequence
      · refine TellsBy.sequence (.append (tellsBy_blockSteps body _) (tellsBy_one ?_))
        exact (tellsBy_clauseSteps last _).sequence
    case context =>
      rw [traces, unwinds]
      exact .arriving (.andThen (tells_all _)
        (tellsBy_blockSteps (Node.forall_clauseBlocks_context.mp ih) _).sequence) _ _
    all_goals
      rw [traces_flat rfl, unwinds_flat rfl]
      exact tells_flatTraces i _

end Traces

end Lineage.Flow
