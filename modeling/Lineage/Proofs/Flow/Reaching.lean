import Lineage.Proofs.Flow.Landing

/-!
Reaching definitions are sound along every run in which no jump leaves a `try` statement that has a
`finally` clause. The analysis follows such a run in full, so wherever it arrives, the facts of the
statement hold the last binding of each name.
-/

namespace Lineage.Flow

open List

theorem happenings_append (followed events more : List Event) :
    happenings followed (events ++ more) = happenings followed events ++
    happenings (followed ++ events) more := by
  induction events generalizing followed with
  | nil => rw [append_nil]; rfl
  | cons e rest ih => rw [cons_append, happenings, happenings, ih, append_assoc]; rfl

theorem mem_happenings (followed before : List Event) (e : Event) (after : List Event) :
    ⟨e, followed ++ before⟩ ∈ happenings followed (before ++ e :: after) := by
  rw [happenings_append]
  exact mem_append_right _ (mem_cons_self ..)

theorem Behaviour.andThen.of_skip {code : Behaviour} {events : List Event} {outcome : Outcome}
    (run : code.andThen .skip events outcome) : code events outcome := by
  rcases run with ⟨_, run⟩ | ⟨before, _, rfl, run, rfl, rfl⟩
  · exact run
  · rwa [append_nil]

/-! ### Runs that are followed in full -/

namespace Traces

/-- Every run of some code may be followed in full. -/
def Takes (traces : Traces) (code : Behaviour) : Prop :=
  ∀ followed events outcome, code events outcome →
    traces followed (happenings followed events) (followed ++ events) outcome

variable {first second traces : Traces} {code early late : Behaviour}

theorem takes_all (code : Behaviour) : (all code).Takes code :=
  fun _ events _ run => ⟨events, run, rfl, rfl⟩

theorem Takes.andThen (before : first.Takes early) (after : second.Takes late) :
    (first.andThen second).Takes (early.andThen late) := by
  rintro followed events outcome (⟨jumps, run⟩ | ⟨begun, rest, rfl, run, more⟩)
  · exact Or.inl ⟨jumps, before followed events outcome run⟩
  · rw [happenings_append, ← append_assoc]
    exact Or.inr ⟨_, _, _, rfl, before followed begun _ run, after _ rest outcome more⟩

theorem Takes.either (left : first.Takes early) (right : second.Takes late) :
    (first.either second).Takes (early.either late) :=
  fun followed events outcome run => run.imp (left followed events outcome)
    (right followed events outcome)

theorem Takes.resumed (takes : traces.Takes code) : traces.resumed.Takes code.resumed := by
  rintro followed events outcome (⟨rfl, run⟩ | ⟨unfinished, uncontinued, run⟩)
  · exact Or.inl ⟨rfl, run.imp (takes followed events _) (takes followed events _)⟩
  · exact Or.inr ⟨unfinished, uncontinued, takes followed events outcome run⟩

theorem Takes.retold (takes : traces.Takes code) (other : Traces) :
    (traces.retold other).Takes code :=
  fun followed events outcome run => Or.inl (takes followed events outcome run)

theorem Takes.repeats (rounds : first.Takes early) (lasts : second.Takes late) :
    (Repeats first second).Takes (early.Repeats late) := by
  intro followed events outcome run
  induction run generalizing followed with
  | last run => exact .last (lasts followed _ _ run)
  | again run _ ih =>
    rw [happenings_append, ← append_assoc]
    exact .again (rounds followed _ _ run) (ih _)
  | broke run => exact .broke (rounds followed _ _ run)
  | stopped run => exact .stopped (rounds followed _ _ run)

theorem Takes.arriving (takes : traces.Takes code) (i : Nat) (n : Node) :
    (traces.arriving i n).Takes (code.arriving i n) := by
  rintro followed events outcome ⟨rest, rfl, run | ⟨rfl, rfl⟩⟩
  · have run := takes (followed ++ [.arrive i n]) rest outcome run
    rw [← append_cons] at run
    exact ⟨_, rfl, Or.inl run⟩
  · exact ⟨[], rfl, Or.inr ⟨rfl, rfl⟩⟩

/-- Steps behind other steps. -/
theorem sequence_append {steps more : List Step} {followed : List Event} {trace : List Happening}
    {after : List Event} {outcome : Outcome}
    (run : Traces.andThen (sequence steps) (sequence more) followed trace after outcome) :
    sequence (steps ++ more) followed trace after outcome := by
  induction steps generalizing followed trace with
  | nil =>
    rcases run with ⟨jumps, _, ⟨_, ends⟩, _⟩ | ⟨early, late, between, rfl,
      ⟨_, ⟨rfl, _⟩, rfl, rfl⟩, rest⟩
    · exact absurd ends jumps
    · rwa [append_nil] at rest
  | cons step rest ih =>
    rcases run with ⟨jumps, ⟨_, run⟩ | ⟨early, late, between, rfl, run, rest⟩⟩ |
      ⟨_, last, behind, rfl, ⟨jumps, _⟩ | ⟨early, late, between, rfl, run, rest⟩, next⟩
    · exact Or.inl ⟨jumps, run⟩
    · exact Or.inr ⟨early, late, between, rfl, run, ih (Or.inl ⟨jumps, rest⟩)⟩
    · exact absurd rfl jumps
    · rw [append_assoc]
      exact Or.inr ⟨early, _, between, rfl, run, ih (Or.inr ⟨late, last, behind, rfl, rest, next⟩)⟩

theorem Takes.append {steps : List Step} {own : Traces} (before : (sequence steps).Takes early)
    (after : own.Takes late) (other : Traces) :
    (sequence (steps ++ [⟨own, other⟩])).Takes (early.andThen late) := by
  intro followed events outcome run
  refine sequence_append (before.andThen (fun followed events outcome run => ?_) followed events
    outcome run)
  have own := after followed events outcome run
  by_cases ends : outcome = .finished
  · exact Or.inr ⟨_, [], _, (append_nil _).symm, Or.inl (ends ▸ own), [], ⟨rfl, ends⟩, rfl,
      (append_nil _).symm⟩
  · exact Or.inl ⟨ends, Or.inl own⟩

/-- Whatever stands behind steps that have finished is entered behind them. -/
theorem leaves_of_finished {steps : List Step} {followed : List Event} {trace : List Happening}
    {after : List Event} (run : sequence steps followed trace after .finished) :
    Leaves steps followed trace after after .finished := by
  induction steps generalizing followed trace with
  | nil =>
    obtain ⟨_, ⟨rfl, _⟩, rfl, rfl⟩ := run
    rw [append_nil]
    exact .finished
  | cons step rest ih =>
    rcases run with ⟨jumps, _⟩ | ⟨early, late, between, rfl, run, rest⟩
    · exact absurd rfl jumps
    · exact .later run (ih rest)

/-- What runs whenever steps are left, if no jump leaves them. -/
theorem Takes.cleanup {steps : List Step} (takes : (sequence steps).Takes code)
    (lasts : traces.Takes late) : (cleanup steps traces).Takes (code.contained.andThen late) := by
  rintro followed events outcome (⟨jumps, unbroken, uncontinued, run⟩ | ⟨begun, rest, rfl,
    ⟨_, _, run⟩, last⟩)
  · cases outcome with
    | finished => exact absurd rfl jumps
    | broke => exact absurd rfl unbroken
    | continued => exact absurd rfl uncontinued
    | stopped => exact Or.inl ⟨rfl, takes followed events _ run⟩
  · rw [happenings_append, ← append_assoc]
    refine Or.inr ⟨_, _, _, _, _, .finished, outcome,
      rfl, by simp, leaves_of_finished (takes followed begun _ run), lasts _ rest outcome last,
      ?_, ?_⟩
    · split
      · assumption
      · rfl
    · rw [if_neg fun both => both.2 rfl]

end Traces

section Traces

open Traces

variable {settings : Settings}

theorem takes_blockSteps {code : List Node}
    (each : ∀ c ∈ code, ∀ i, (traces settings false i c).Takes (runs settings i c)) (i : Nat) :
    (sequence (blockSteps settings false i code)).Takes (blockRuns settings i code) := by
  induction code generalizing i with
  | nil =>
    rw [blockSteps, blockRuns]
    exact takes_all _
  | cons n rest ih =>
    obtain ⟨one, others⟩ := forall_mem_cons.mp each
    rw [blockSteps, blockRuns]
    exact ((one i).retold _).andThen (ih others _)

theorem takes_clauseSteps {clause : Option (Clause Node)}
    (each : ∀ c ∈ Clause.statements clause, ∀ i, (traces settings false i c).Takes
    (runs settings i c)) (i : Nat) : (sequence (clauseSteps settings false i clause)).Takes
    (clauseRuns settings i clause) := by
  cases clause with
  | none =>
    rw [clauseSteps, clauseRuns]
    exact takes_all _
  | some clause =>
    rw [clauseSteps, clauseRuns]
    exact takes_blockSteps each i

theorem takes_elifTraces {elifs : List (Elif Node)}
    (each : ∀ e ∈ elifs, ∀ c ∈ e.body, ∀ i, (traces settings false i c).Takes (runs settings i c))
    (k : Nat) (n : Node) (i : Nat) {last : Traces} {code : Behaviour} (lasts : last.Takes code) :
    (elifTraces settings false k n i elifs last).Takes (elifRuns settings k n i elifs code) := by
  induction elifs generalizing i with
  | nil =>
    rw [elifTraces, elifRuns]
    exact lasts
  | cons e rest ih =>
    obtain ⟨one, others⟩ := forall_mem_cons.mp each
    rw [elifTraces, elifRuns]
    exact (takes_all _).andThen (.either (takes_blockSteps one i) (ih others _))

theorem runs_flat {n : Node} (flat : n.kind.isCompound = false) (i : Nat) :
    runs settings i n = .arriving i n (flatRuns settings i n) := by
  cases n
  case branch => nomatch flat
  case whileLoop => nomatch flat
  case forLoop => nomatch flat
  case attempt => nomatch flat
  case context => nomatch flat
  all_goals rfl

/-- Every run of a statement may be followed in full. -/
theorem takes_traces (n : Node) : ∀ i, (traces settings false i n).Takes (runs settings i n) := by
  induction n using Node.clause_induction with
  | step n ih =>
    intro i
    cases n
    case branch =>
      obtain ⟨body, others, last⟩ := Node.forall_clauseBlocks_branch.mp ih
      rw [traces, runs]
      refine .arriving (.andThen (takes_all _) (.either (takes_blockSteps body _) ?_)) _ _
      exact takes_elifTraces others _ _ _ (takes_clauseSteps last _)
    case whileLoop =>
      obtain ⟨body, last⟩ := Node.forall_clauseBlocks_while.mp ih
      rw [traces, runs]
      refine .arriving (.andThen (takes_all _)
        (.repeats (.andThen ?_ (takes_all _)) (takes_clauseSteps last _))) _ _
      exact (takes_blockSteps body _).resumed.retold _
    case forLoop =>
      obtain ⟨body, last⟩ := Node.forall_clauseBlocks_for.mp ih
      rw [traces, runs]
      refine .arriving (.andThen (takes_all _)
        (.repeats (.andThen (takes_all _) ?_) (takes_clauseSteps last _))) _ _
      exact (takes_blockSteps body _).resumed.retold _
    case attempt _ _ code handlers orelse final =>
      obtain ⟨body, _, last, ends⟩ := Node.forall_clauseBlocks_attempt.mp ih
      rw [traces, runs]
      refine .arriving ?_ _ _
      have steps := (takes_blockSteps body (i + 1)).append
        (takes_clauseSteps last (i + 1 + blockExtent code +
        (Node.handlerStatements handlers).length))
        (sequence (clauseSteps settings true
          (i + 1 + blockExtent code + (Node.handlerStatements handlers).length) orelse))
      cases final with
      | none => exact fun followed events outcome run => steps followed events outcome run.of_skip
      | some clause => exact steps.cleanup (takes_clauseSteps ends _)
    case context =>
      rw [traces, runs]
      exact .arriving (.andThen (takes_all _)
        (takes_blockSteps (Node.forall_clauseBlocks_context.mp ih) _)) _ _
    all_goals
      rw [traces_flat rfl, runs_flat rfl]
      intro followed events outcome run
      exact takes_all _ followed events outcome
        (run.imp fun _ split => ⟨split.1, split.2.imp_left Or.inl⟩)

end Traces

/-- **Reaching definitions are sound along every run.** A tree without faults is analysed; and
whenever a run of it arrives at a statement, the facts of the statement hold, for each name, the
statement that last counted as binding it, or the mark for what was there before if none did. At the
end of a finished run, so does the exit of the block. A statement that may bind any name may stand
under the name for all names instead. -/
theorem reaching_of_run (settings : Settings) (writes : GlobalWrites) {tree : Node}
    (faultless : Node.blockFault tree.code = none) (star : allNames ∉ tree.identifiers)
    {events : List Event} {outcome : Outcome}
    (run : blockRuns settings 0 tree.code events outcome) :
      ∃ r, analyze settings writes tree = .ok r ∧
        (∀ before s n after, events = before ++ .arrive s n ::
          after → ∃ f, r.statements[s]? = some f ∧ f.node = n ∧
          ∀ name, (lastBinder name before = none → .entry ∈ f.reaching name) ∧
            ∀ i m, lastBinder name before = some (i, m) → .statement i ∈ f.reaching name ∨
            (m.bindsAnyName settings = true ∧ .statement i ∈ f.reaching allNames)) ∧
      (outcome = .finished → ∀ name,
        (lastBinder name events = none → .entry ∈ r.reachingAtExit name) ∧
        ∀ i m, lastBinder name events = some (i, m) → .statement i ∈ r.reachingAtExit name ∨
          (m.bindsAnyName settings = true ∧ .statement i ∈ r.reachingAtExit allNames)) := by
  have starless : ∀ c ∈ tree.code, allNames ∉ c.identifiers :=
    fun c member own => star (Node.identifiers_subset (code_subset_nodes tree member) own)
  have traces := takes_blockSteps (fun c _ i => takes_traces c i) 0 [] events outcome run
  have follows := follows_analyzeBlock settings writes faultless starless []
    (State.covers_start settings) _ _ outcome traces
  refine ⟨analyzeBlock settings writes tree.code, by rw [analyze, faultless], ?_,
    fun ends => (follows.finished ends).told⟩
  rintro before s n after rfl
  obtain ⟨f, found, node, covers⟩ := follows.arrivals _ (mem_happenings [] before _ after) s n rfl
  exact ⟨f, found, node, covers.told⟩

/-- `x = k`, then `while (y := x):` with `x = y` and `break` inside, then `x`. -/
def leftLoop : Node :=
  .module default
    [.assign default [.name default "x"] (some (.name default "k")) none none false,
      .whileLoop default default
        (.assign default [.name default "y"] (some (.name default "x")) none none true)
        [.assign default [.name default "x"] (some (.name default "y")) none none false,
          .break default] none,
      .expression default (.name default "x")]

/-- The run of the loop that leaves it in its first round and arrives at the statement behind it. -/
def leftLoopRun : List Event :=
  [.arrive 0 (nodeAt leftLoop 0), .bind 0 (nodeAt leftLoop 0) "x", .arrive 1 (nodeAt leftLoop 1),
    .bind 1 (nodeAt leftLoop 1) "y", .arrive 2 (nodeAt leftLoop 2), .bind 2 (nodeAt leftLoop 2) "x",
    .arrive 3 (nodeAt leftLoop 3), .arrive 4 (nodeAt leftLoop 4)]

theorem acts_evaluate (i : Nat) (n : Node) (name : String) :
    Acts i n [name] [] [] [.bind i n name] :=
  ⟨by simp, by simp, by simp⟩

theorem acts_pass (i : Nat) (n : Node) (name : String) : Acts i n [name] [] [] [.pass i n name] :=
  ⟨by simp, by simp, by simp⟩

theorem acts_stray (i : Nat) (n : Node) (name other : String) :
    Acts i n [] [name] [other] [.stray i n other, .bind i n name] :=
  ⟨by simp, by simp, by simp⟩

theorem runs_leftLoop : blockRuns ⟨∅, ∅⟩ 0 leftLoop.code leftLoopRun .stopped := by
  refine Or.inr ⟨leftLoopRun.take 2, leftLoopRun.drop 2, rfl, ⟨_, rfl, Or.inl ⟨rfl, ?_⟩⟩, ?_⟩
  · exact acts_bind _ _ _
  refine Or.inr ⟨(leftLoopRun.drop 2).take 5, (leftLoopRun.drop 2).drop 5, rfl,
    ⟨_, rfl, Or.inl ?_⟩, ?_⟩
  · refine Or.inr ⟨[_], _, rfl, ⟨rfl, acts_evaluate _ _ _⟩,
      .broke (Or.inl ⟨by simp, Or.inr ⟨by simp, by simp, ?_⟩⟩)⟩
    refine Or.inr ⟨[_, _], [_], rfl, ⟨_, rfl, Or.inl ⟨rfl, acts_bind _ _ _⟩⟩, ?_⟩
    refine Or.inl ⟨by simp, _, rfl, Or.inl ⟨rfl, ?_⟩⟩
    exact ⟨by simp, by simp [Node.boundNames], by simp [Node.evaluatedParts]⟩
  · exact Or.inl ⟨by simp, _, rfl, Or.inr ⟨rfl, rfl⟩⟩

/-- UnderLeader a loop that was left by a `break`, the assignment in its body has reached the
name. -/
theorem reaching_of_run_left_loop :
    Node.blockFault leftLoop.code = none ∧ allNames ∉ leftLoop.identifiers ∧
      blockRuns ⟨∅, ∅⟩ 0 leftLoop.code leftLoopRun .stopped ∧
      ∃ r f, analyze ⟨∅, ∅⟩ ∅ leftLoop = .ok r ∧ r.statements[4]? = some f ∧
        (.statement 2 ∈ f.reaching "x" ∨
          ((nodeAt leftLoop 2).bindsAnyName ⟨∅, ∅⟩ = true ∧
            .statement 2 ∈ f.reaching allNames)) := by
  refine ⟨by decide, by decide, runs_leftLoop, ?_⟩
  obtain ⟨r, analyzed, arrivals, _⟩ :=
    reaching_of_run ⟨∅, ∅⟩ ∅ (by decide) (by decide) runs_leftLoop
  obtain ⟨f, found, _, reaching⟩ := arrivals (leftLoopRun.take 7) 4 (nodeAt leftLoop 4) [] rfl
  exact ⟨r, f, analyzed, found, (reaching "x").2 2 (nodeAt leftLoop 2) rfl⟩

/-- Some run of a tree arrives at a statement the facts of which lack where a name was last
bound. -/
def Missed (tree : Node) : Prop :=
  ∃ before s n after outcome, blockRuns ⟨∅, ∅⟩ 0 tree.code (before ++ .arrive s n :: after)
    outcome ∧ ∃ r f name i m, analyze ⟨∅, ∅⟩ ∅ tree = .ok r ∧ r.statements[s]? = some f ∧
      lastBound name before = some (i, m) ∧ .statement i ∉ f.reaching name ∧
      .statement i ∉ f.reaching allNames

/-- `x = k`, then `c and (x := k)`, then `x`. -/
def skippedBinding : Node :=
  .module default
    [.assign default [.name default "x"] (some (.name default "k")) none none false,
      .expression default (.binary default "and" (.name default "c")
        (.assign default [.name default "x"] (some (.name default "k")) none none true)),
      .expression default (.name default "x")]

/-- `del (a, d[(x := k)])`, then `x`. -/
def strayBinding : Node :=
  .module default
    [.delete default [.tuple default [.name default "a", .subscript default (.name default "d")
        (.assign default [.name default "x"] (some (.name default "k")) none none true)]],
      .expression default (.name default "x")]

/-- An assignment expression that is passed over hides the binding before it. -/
theorem missed_skippedBinding : Missed skippedBinding := by
  let first := nodeAt skippedBinding 0
  let second := nodeAt skippedBinding 1
  refine ⟨[.arrive 0 first, .bind 0 first "x", .arrive 1 second, .pass 1 second "x"], 2,
    nodeAt skippedBinding 2, [], .stopped, ?_, ?_⟩
  · refine Or.inr ⟨[.arrive 0 first, .bind 0 first "x"], _, rfl,
      ⟨_, rfl, Or.inl ⟨rfl, acts_bind _ _ _⟩⟩, ?_⟩
    refine Or.inr ⟨[.arrive 1 second, .pass 1 second "x"], _, rfl, ⟨_, rfl, Or.inl ⟨rfl, ?_⟩⟩, ?_⟩
    · exact acts_pass _ _ _
    · exact Or.inl ⟨by simp, _, rfl, Or.inr ⟨rfl, rfl⟩⟩
  · refine ⟨analyzeBlock ⟨∅, ∅⟩ ∅ skippedBinding.code, _, "x", 0, first, rfl, rfl, rfl, ?_, ?_⟩
    · decide +kernel
    · decide +kernel

/-- An assignment expression beside the names of a deletion is not seen. -/
theorem missed_strayBinding : Missed strayBinding := by
  let first := nodeAt strayBinding 0
  refine ⟨[.arrive 0 first, .stray 0 first "x", .bind 0 first "a"], 1, nodeAt strayBinding 1, [],
    .stopped, ?_, ?_⟩
  · refine Or.inr ⟨[.arrive 0 first, .stray 0 first "x", .bind 0 first "a"], _, rfl,
      ⟨_, rfl, Or.inl ⟨rfl, acts_stray _ _ _ _⟩⟩, ?_⟩
    exact Or.inl ⟨by simp, _, rfl, Or.inr ⟨rfl, rfl⟩⟩
  · refine ⟨analyzeBlock ⟨∅, ∅⟩ ∅ strayBinding.code, _, "x", 0, first, rfl, rfl, rfl, ?_, ?_⟩
    · decide +kernel
    · decide +kernel

/-- The last binding of a name may be missed in two ways: an assignment expression passed over hides
the binding before it, and one beside the names of a deletion is not seen. -/
theorem last_binding_missed : Missed skippedBinding ∧ Missed strayBinding :=
  ⟨missed_skippedBinding, missed_strayBinding⟩

end Lineage.Flow
