import Lineage.Proofs.Flow.Unwind
import Lineage.Proofs.Flow.Covers

/-!
Reaching definitions are sound along what the analysis follows of a run whose jumps run `finally`
clauses. Wherever such a run arrives, the facts of the statement hold the last bindings of what has
been followed; so a last binding is missed only if it has not been followed.
-/

namespace Lineage.Flow

open List

variable {around : Body} {env : Env} {steps : List Traces.Step} {after events followed : List Event}
  {trace : List Happening} {code : List Node} {header loc : Location} {i k : Nat} {m n : Node}
  {orelse : Option (Clause Node)} {own parent : Option Nat} {outcome : Outcome} {p q : Progress}
  {settings : Settings} {head u : State}

/-- What was known is still known: facts have risen, and no jump is lost. -/
structure Progress.Extends (p q : Progress) : Prop where
  under : p.Under True q
  breaks : p.breaks ⊆ q.breaks
  continues : p.continues ⊆ q.continues

theorem Progress.Extends.refl (p : Progress) : p.Extends p :=
  ⟨.refl p, fun _ => id, fun _ => id⟩

theorem Progress.Extends.trans {r : Progress} (first : p.Extends q) (second : q.Extends r) :
    p.Extends r :=
  ⟨first.under.trans second.under, List.Subset.trans first.breaks second.breaks,
    List.Subset.trans first.continues second.continues⟩

theorem Progress.Extends.resume (more : p.Extends q) (s : State) : p.Extends (q.resume s) :=
  { more with }

theorem Progress.Extends.of_resume (s : State) (more : (p.resume s).Extends q) : p.Extends q :=
  { more with }

/-- Wherever something arrives at a statement, its facts cover what has been followed before. -/
def Arrived (settings : Settings) (q : Progress) (trace : List Happening) : Prop :=
  ∀ h ∈ trace, ∀ i n, h.event = .arrive i n →
    ∃ f, q.facts[i]? = some f ∧ f.node = n ∧ f.entry.Covers settings h.followed

/-- The analysis stands by what has been followed, wherever a run arrives, ends or jumps to. -/
structure StandsBy (settings : Settings) (q : Progress) (trace : List Happening)
    (after : List Event) (outcome : Outcome) : Prop where
  arrivals : Arrived settings q trace
  finished : outcome = .finished → q.state.Covers settings after
  broke : outcome = .broke → ∃ s ∈ q.breaks, s.Covers settings after
  continued : outcome = .continued → ∃ s ∈ q.continues, s.Covers settings after

/-- The analysis goes from the first point to the second by code, and it stands by all its
traces. -/
def Follows (settings : Settings) (p q : Progress) (traces : Traces) : Prop :=
  ∀ followed, p.state.Covers settings followed →
    ∀ trace after outcome, traces followed trace after outcome →
    StandsBy settings q trace after outcome

section Follows

variable {settings : Settings} {p q r : Progress} {trace early late : List Happening}
  {after : List Event} {outcome : Outcome} {traces first second : Traces}

theorem Arrived.mono (arrived : Arrived settings q trace) (under : q.Under True r) :
    Arrived settings r trace := by
  intro h member i n arrives
  obtain ⟨f, found, node, covers⟩ := arrived h member i n arrives
  obtain ⟨g, foundG, above⟩ := under i f found
  exact ⟨g, foundG, above.node.trans node, covers.mono fun name origin => above.entry name origin
    (Or.inl trivial)⟩

theorem Arrived.append (first : Arrived settings q early) (second : Arrived settings q late) :
    Arrived settings q (early ++ late) :=
  forall_mem_append.mpr ⟨first, second⟩

theorem standsBy_stopped (arrived : Arrived settings q trace) (after : List Event) :
    StandsBy settings q trace after .stopped :=
  ⟨arrived, fun ends => (nomatch ends), fun jumps => (nomatch jumps), fun jumps => nomatch jumps⟩

theorem standsBy_finished (arrived : Arrived settings q trace)
    (covers : q.state.Covers settings after) : StandsBy settings q trace after .finished :=
  ⟨arrived, fun _ => covers, fun jumps => (nomatch jumps), fun jumps => nomatch jumps⟩

/-- Where a run jumps to does not depend on the state behind the code. -/
theorem StandsBy.onward (told : StandsBy settings q trace after outcome) (more : q.Extends r)
    (jumps : outcome ≠ .finished) : StandsBy settings r trace after outcome where
  arrivals := told.arrivals.mono more.under
  finished ends := absurd ends jumps
  broke broke := (told.broke broke).imp fun _ held => ⟨more.breaks held.1, held.2⟩
  continued continued := (told.continued continued).imp
    fun _ held => ⟨more.continues held.1, held.2⟩

theorem StandsBy.mono (told : StandsBy settings q trace after outcome) (more : q.Extends r)
    (below : q.state.Below r.state) : StandsBy settings r trace after outcome where
  arrivals := told.arrivals.mono more.under
  finished ends := (told.finished ends).mono below
  broke broke := (told.broke broke).imp fun _ held => ⟨more.breaks held.1, held.2⟩
  continued continued := (told.continued continued).imp
    fun _ held => ⟨more.continues held.1, held.2⟩

theorem StandsBy.append (before : Arrived settings q early)
    (told : StandsBy settings q late after outcome) :
    StandsBy settings q (early ++ late) after outcome :=
  { told with arrivals := before.append told.arrivals }

theorem Follows.mono (follows : Follows settings p q traces) (more : q.Extends r)
    (below : q.state.Below r.state) : Follows settings p r traces :=
  fun followed covers trace after outcome run => (follows followed covers trace after outcome
    run).mono more below

theorem Follows.of_below {o : Progress} (follows : Follows settings p q traces)
    (below : o.state.Below p.state) : Follows settings o q traces :=
  fun followed covers => follows followed (covers.mono below)

theorem Follows.of_resume (follows : Follows settings (r.resume p.state) q traces) :
    Follows settings p q traces :=
  follows.of_below (.refl _)

/-- Events that arrive nowhere need no facts. -/
theorem arrived_of_none (none : ∀ e ∈ events, ∀ i n, e ≠ .arrive i n) :
    Arrived settings q (happenings followed events) := by
  intro h member i n arrives
  obtain ⟨before, rest, rfl, _⟩ := followed_of_mem_happenings member
  exact absurd arrives (none _ (mem_append_right _ (mem_cons_self ..)) i n)

theorem Acts.arrived {evaluated bound strays : List String}
    (acts : Acts i n evaluated bound strays events) :
    Arrived settings q (happenings followed events) := by
  refine arrived_of_none fun e member j m same => ?_
  subst same
  rcases acts.sound _ member with ⟨_, _, same⟩ | ⟨_, _, same⟩ | ⟨_, _, same⟩
  all_goals exact nomatch same

theorem follows_skip (settings : Settings) (p : Progress) : Follows settings p p (.all .skip) := by
  rintro followed covers trace after outcome ⟨events, ⟨rfl, rfl⟩, rfl, rfl⟩
  refine standsBy_finished (arrived_of_none (forall_mem_nil _)) ?_
  rwa [append_nil]

/-- A statement that evaluates expressions and binds names is followed by doing so. -/
theorem follows_acting {unknown : Bool} {parts : List Node} {bound : List String}
    (does : Progress.Does i unknown (parts.flatMap Node.walruses ++ bound) p q)
    (star : allNames ∉ parts.flatMap Node.walruses ++ bound) :
    Follows settings p q (.all (.acting i n parts bound)) := by
  rintro followed covers trace after outcome ⟨events, ⟨rfl, acts⟩, rfl, rfl⟩
  exact standsBy_finished acts.arrived
    (covers.act acts (fun name => (does.binds name).1) (fun name => (does.binds name).2) star)

theorem Follows.andThen (before : Follows settings p q first) (after : Follows settings q r second)
    (more : q.Extends r) : Follows settings p r (first.andThen second) := by
  rintro followed covers trace last outcome (⟨jumps, run⟩ | ⟨early, late, between, rfl, run, rest⟩)
  · exact (before followed covers trace last outcome run).onward more jumps
  · have told := before followed covers early between .finished run
    exact .append (told.arrivals.mono more.under)
      (after between (told.finished rfl) late last outcome rest)

theorem Follows.either (left : Follows settings p q first) (right : Follows settings p q second) :
    Follows settings p q (first.either second) := by
  rintro followed covers trace after outcome (run | run)
  · exact left followed covers trace after outcome run
  · exact right followed covers trace after outcome run

/-- What has finished may be told as any other run of the same code. -/
theorem Follows.retold (own : Follows settings p q first) (other : Follows settings p q second) :
    Follows settings p q (first.retold second) := by
  rintro followed covers trace after outcome (run | ⟨rfl, ⟨between, run⟩, told, otherwise⟩)
  · exact own followed covers trace after outcome run
  · exact standsBy_finished (own followed covers trace between _ run).arrivals
      ((other followed covers told after _ otherwise).finished rfl)

/-- The facts of a statement that has been entered cover what has been followed before. -/
theorem Entered.arrived {e : Progress} (entered : Entered env around i n p e)
    (covers : p.state.Covers settings followed) (under : e.Under True q) :
    Arrived settings q [⟨.arrive i n, followed⟩] := by
  obtain ⟨f, found, node, below⟩ := entered.noted
  refine Arrived.mono (forall_mem_singleton.mpr fun j m arrives => ?_) under
  obtain ⟨rfl, rfl⟩ := Event.arrive.inj arrives
  exact ⟨f, found, node, covers.mono below⟩

theorem Follows.arriving {e : Progress} (entered : Entered env around i n p e)
    (follows : Follows settings e q traces) (under : e.Under True q) :
    Follows settings p q (traces.arriving i n) := by
  rintro followed covers trace after outcome ⟨rest, rfl, run⟩
  have here : Arrived settings q [⟨.arrive i n, followed⟩] := entered.arrived covers under
  rcases run with run | ⟨rfl, rfl⟩
  · refine .append here (follows _ ?_ rest after outcome run)
    rw [entered.state]
    exact covers.arrive i n
  · exact standsBy_stopped here after

/-- Running steps one behind the other is leaving them. -/
theorem Traces.exists_leaves (run : Traces.sequence steps followed trace after outcome) :
    ∃ entered, Traces.Leaves steps followed trace after entered outcome := by
  induction steps generalizing followed trace with
  | nil =>
    obtain ⟨events, ⟨rfl, rfl⟩, rfl, rfl⟩ := run
    rw [append_nil]
    exact ⟨followed, .finished⟩
  | cons step rest ih =>
    rcases run with ⟨jumps, run | ⟨ends, _⟩⟩ | ⟨early, late, between, rfl, run, rest⟩
    · exact ⟨followed, .front jumps run⟩
    · exact absurd ends jumps
    · obtain ⟨entered, leaves⟩ := ih rest
      exact ⟨entered, .later run leaves⟩

/-- The analysis stands by steps, however they are left, and a state covers where the code behind
them is entered. -/
def Leaving (settings : Settings) (p q : Progress) (u : State) (steps : List Traces.Step) : Prop :=
  ∀ followed, p.state.Covers settings followed → ∀ trace after entered way,
    Traces.Leaves steps followed trace after entered way → StandsBy settings q trace after way ∧
    u.Covers settings entered

theorem Leaving.sequence (leaving : Leaving settings p q u steps) :
    Follows settings p q (.sequence steps) := by
  intro followed covers trace after outcome run
  obtain ⟨entered, leaves⟩ := Traces.exists_leaves run
  exact (leaving followed covers trace after entered outcome leaves).1

/-- Steps and what runs whenever they are left. -/
theorem Leaving.cleanup (leaving : Leaving settings p q u steps)
    (lasts : Follows settings (q.resume u) r traces) (more : q.Extends r) :
    Follows settings p r (.cleanup steps traces) := by
  rintro followed covers trace after outcome
    (⟨rfl, run⟩ | ⟨early, late, left, entered, behind, way, ending, rfl, goes, leaves, run,
      rfl, rfl⟩)
  · exact (leaving.sequence followed covers trace after _ run).onward more (by simp)
  · obtain ⟨told, enters⟩ := leaving followed covers early left entered way leaves
    have last := lasts entered enters late behind ending run
    by_cases ends : ending = .finished
    · subst ends
      rw [if_pos rfl]
      by_cases finished : way = .finished
      · rw [if_neg fun both => both.2 finished]
        subst finished
        exact .append (told.arrivals.mono more.under) last
      · -- The jump goes on from where it stood.
        rw [if_pos ⟨rfl, finished⟩]
        have jump := told.onward more finished
        exact { jump with arrivals := jump.arrivals.append last.arrivals }
    · rw [if_neg ends, if_neg fun both => ends both.1]
      exact .append (told.arrivals.mono more.under) last

end Follows

/-! ### Plans -/

/-- Wherever an analysis comes to the plan, it stands by all traces of some code. -/
def Plan.Follows (env : Env) (around : Body) (s : Plan) (traces : Traces) : Prop :=
  ∀ p, Point.Faced env ⟨around, s, p⟩ →
    Flow.Follows env.settings p (s.run (around.env env) p) traces

/-- Carrying out a plan only adds to what is known. -/
theorem Point.Faced.extends {s : Plan} (faced : Point.Faced env ⟨around, s, p⟩) :
    p.Extends (s.run (around.env env) p) := by
  obtain ⟨own, lo, hi, faces⟩ := faced
  have led := faces.run.1
  exact ⟨led.under, led.breaks, led.continues⟩

theorem Point.Faced.settled {s : Plan} (faced : Point.Faced env ⟨around, s, p⟩) :
    p.pending = [] := by
  obtain ⟨own, lo, hi, faces⟩ := faced
  exact faces.kept.settled

theorem Progress.extends_leave (compound : n.kind.isCompound = true) (i : Nat) (entry : State)
    (p : Progress) : p.Extends (p.leave i n entry) :=
  ⟨p.under_leave i compound entry, breaks_leave i n entry p ▸ fun _ => id,
    continues_leave i n entry p ▸ fun _ => id⟩

/-- Leaving a compound statement changes no state. -/
theorem Follows.leave {traces : Traces} (compound : n.kind.isCompound = true) (i : Nat)
    (entry : State) (follows : Follows settings p q traces) :
    Follows settings p (q.leave i n entry) traces := by
  refine follows.mono (q.extends_leave compound i entry) ?_
  unfold Progress.leave
  split
  · rw [compound, Bool.true_or]
    exact .refl _
  · exact .refl _

namespace Plan.Follows

variable {first second third : Traces} {a b c : Plan}

theorem seq (before : a.Follows env around first) (after : b.Follows env around second) :
    (Plan.seq a b).Follows env around (first.andThen second) := fun p faced =>
  have next := Goes.second.faces faced
  (before p (Goes.first.faces faced)).andThen (after _ next) next.extends

theorem fork (left : a.Follows env around first) (right : b.Follows env around second) :
    (Plan.fork a b).Follows env around (first.either second) := by
  intro p faced
  have own := Goes.rescue.faces faced
  have other := (Goes.after rfl).faces faced
  rw [resume_skip] at own other
  rw [run_fork]
  refine .either ((left p own).mono (.of_resume _ (other.extends.resume _)) ?_)
    (.of_resume ((right _ other).mono ((Progress.Extends.refl _).resume _) ?_))
  · exact State.below_merge_left _ _
  · exact State.below_merge_right _ _

/-- What a compound statement does at its head. -/
theorem acts {actions : List Action} {parts : List Node} {bound : List String}
    (same : (actions.flatMap Action.parts).flatMap Node.walruses ++ actions.flatMap Action.kills =
      parts.flatMap Node.walruses ++ bound)
      (star : allNames ∉ parts.flatMap Node.walruses ++ bound) :
    (Plan.acts i actions).Follows env around (.all (.acting i n parts bound)) := fun _ faced =>
  follows_acting (same ▸ Progress.does_acts (around.env env) i actions faced.settled) star

theorem compound {inner : Plan} (follows : inner.Follows env around first) :
    (Plan.compound parent i n inner).Follows env around (first.arriving i n) := by
  intro p faced
  have inside := Goes.inner.faces faced
  obtain ⟨own, lo, hi, lies, kept, size, _⟩ := faced
  cases lies with
  | compound compound here =>
    exact .arriving (entered_enter kept here size parent) (.leave compound i _ (follows _ inside))
      (inside.extends.trans (Progress.extends_leave compound i _ _)).under

end Plan.Follows

/-! ### Statements without blocks -/

/-- What a statement without blocks binds is covered behind it, also where the run does not go on
there. -/
theorem Faces.covers {lo hi : Nat} (faces : Faces env around own lo hi (.flat parent i n) p)
    (flat : n.kind.isCompound = false) (star : allNames ∉ n.identifiers) {history : List Event}
    (covers : p.state.Covers env.settings history)
    (run : flatRuns env.settings i n events (outcomeOf n)) :
    ((Plan.flat parent i n).run (around.env env) p).state.Covers env.settings (history ++ events) ∧
      ∀ e ∈ events, ∀ j m, e ≠ .arrive j m := by
  obtain ⟨_, run⟩ := run
  by_cases loose : n.bindsAnyName env.settings = true
  · rw [if_pos loose] at run
    obtain ⟨kept, now⟩ := faces.loose flat loose
    refine ⟨covers.roam loose run kept now, fun e member j m same => ?_⟩
    obtain ⟨name, rfl⟩ := run e member
    exact nomatch same
  · rw [if_neg loose] at run
    have binds := faces.binds flat (Bool.eq_false_iff.mpr loose)
    refine ⟨covers.act run (fun name => (binds name).1) (fun name => (binds name).2)
      (starless_flat star), ?_⟩
    rintro e member j m rfl
    rcases run.sound _ member with ⟨_, _, same⟩ | ⟨_, _, same⟩ | ⟨_, _, same⟩
    all_goals exact nomatch same

/-- A jump leaves from the state in front of it. -/
theorem jumps_flat (parent : Option Nat) (i : Nat) (loc : Location) (p : Progress) :
    p.state ∈ ((Plan.flat parent i (.break loc)).run env p).breaks ∧
      p.state ∈ ((Plan.flat parent i (.continue loc)).run env p).continues := by
  rw [Plan.run, Plan.run, Progress.breaks_leave, Progress.continues_leave]
  show p.state ∈ (p.enter parent i (.break loc)).breaks ++ [(p.enter parent i (.break loc)).state] ∧
    p.state ∈ (p.enter parent i (.continue loc)).continues ++
    [(p.enter parent i (.continue loc)).state]
  rw [state_enter, state_enter]
  exact ⟨mem_append_right _ (mem_singleton_self _), mem_append_right _ (mem_singleton_self _)⟩

theorem Plan.Follows.flat (flat : n.kind.isCompound = false) (star : allNames ∉ n.identifiers)
    (passing : Bool) : (Plan.flat parent i n).Follows env around
    (flatTraces env.settings passing i n) := by
  rintro p ⟨own, lo, hi, faces⟩ followed covers trace after outcome ⟨events, ⟨rest, rfl, run⟩,
    rfl, rfl⟩
  dsimp only at faces
  obtain ⟨entered, under, -⟩ := faces.flat
  have here := entered.arrived covers under
  have told : flatRuns env.settings i n rest (outcomeOf n) →
      Arrived env.settings ((Plan.flat parent i n).run (around.env env) p)
        (happenings followed (.arrive i n :: rest)) ∧
        ((Plan.flat parent i n).run (around.env env) p).state.Covers env.settings
        (followed ++ .arrive i n :: rest) := by
    intro run
    obtain ⟨covered, none⟩ := faces.covers flat star (covers.arrive i n) run
    rw [append_assoc] at covered
    exact ⟨here.append (arrived_of_none none), covered⟩
  rcases run with (⟨rfl, run⟩ | ⟨_, rfl, run⟩) | ⟨rfl, rfl⟩
  · obtain ⟨arrived, covered⟩ := told ⟨rfl, run⟩
    -- A jump leaves from the state in front of it.
    have leaves : Acts i n [] [] [] rest → p.state.Covers env.settings (followed ++ .arrive i n ::
        rest) := by
      intro acts
      rw [append_cons]
      exact (covers.arrive i n).act acts (forall_mem_nil _) (fun _ _ _ reaches => reaches)
        not_mem_nil
    cases n
    case «break» loc =>
      refine ⟨arrived, fun ends => (nomatch ends),
        fun _ => ⟨p.state, (jumps_flat parent i loc p).1, leaves run⟩, ?_⟩
      exact fun jumps => nomatch jumps
    case «continue» loc =>
      refine ⟨arrived, fun ends => (nomatch ends), fun jumps => (nomatch jumps), fun _ => ?_⟩
      exact ⟨p.state, (jumps_flat parent i loc p).2, leaves run⟩
    case returning => exact standsBy_stopped arrived _
    case raising => exact standsBy_stopped arrived _
    all_goals exact standsBy_finished arrived covered
  · -- What is passed over has arrived as if it had gone on otherwise.
    obtain ⟨arrived, covered⟩ := told run
    exact standsBy_finished arrived covered
  · exact standsBy_stopped here _

/-! ### Blocks -/

/-- Wherever an analysis comes to the statement, it stands by all its traces. -/
def Toured (env : Env) (around : Body) (n : Node) : Prop :=
  ∀ passing parent i, (nodePlan parent i n).Follows env around (traces env.settings passing i n)

theorem follows_blockPlan (toured : ∀ c ∈ code, Toured env around c) (passing : Bool)
    (parent : Option Nat) (i : Nat) : (blockPlan parent i code).Follows env around
    (.sequence (blockSteps env.settings passing i code)) := by
  induction code generalizing i with
  | nil =>
    rw [blockPlan, blockSteps]
    exact fun p _ => follows_skip env.settings p
  | cons n rest ih =>
    obtain ⟨first, others⟩ := forall_mem_cons.mp toured
    rw [blockPlan, blockSteps]
    exact .seq (fun p faced => (first passing parent i p faced).retold
      (first true parent i p faced)) (ih others _)

theorem follows_clausePlan {clause : Option (Clause Node)}
    (toured : ∀ c ∈ Clause.statements clause, Toured env around c) (passing : Bool) (k i : Nat) :
    (clausePlan k i clause).Follows env around
    (.sequence (clauseSteps env.settings passing i clause)) := by
  cases clause with
  | none =>
    rw [clausePlan, clauseSteps]
    exact fun p _ => follows_skip env.settings p
  | some c =>
    rw [clausePlan, clauseSteps]
    exact follows_blockPlan toured passing (some k) i

/-- A test that a compound statement evaluates. -/
theorem follows_test {e : Node} (star : allNames ∉ e.identifiers) :
    (Plan.acts i [.evaluate [e]]).Follows env around (.all (.acting i n [e] [])) :=
  .acts (by simp [Action.parts, Action.kills])
    (starless_parts (forall_mem_singleton.mpr star) not_mem_nil)

/-- The tests of `elif` clauses are evaluated one after the other, each in the state behind the one
before. -/
theorem follows_elifPlan {elifs : List (Elif Node)}
    (toured : ∀ e ∈ elifs, ∀ c ∈ e.body, Toured env around c)
    (star : ∀ e ∈ elifs, allNames ∉ e.test.identifiers) (passing : Bool) {last : Plan}
    {traces : Traces} (lasts : last.Follows env around traces) :
    (elifPlan k i last elifs).Follows env around
    (elifTraces env.settings passing k n i elifs traces) := by
  induction elifs generalizing i with
  | nil =>
    rw [elifPlan, elifTraces]
    exact lasts
  | cons e rest ih =>
    obtain ⟨body, others⟩ := forall_mem_cons.mp toured
    obtain ⟨starless, starlesss⟩ := forall_mem_cons.mp star
    rw [elifPlan, elifTraces]
    exact .seq (follows_test starless) (.fork (follows_blockPlan body passing _ _)
      (ih others starlesss))

/-! ### Steps and what stands behind them -/

/-- One step, given the states in front of and behind it. -/
theorem Leaving.one {step : Bool → Traces}
    (follows : ∀ passing, Follows settings p q (step passing)) (front : p.state.Below u)
    (behind : q.state.Below u) (passing : Bool) :
    Leaving settings p q u [⟨step passing, step true⟩] := by
  intro followed covers trace after entered way leaves
  cases leaves with
  | front jumps run => exact ⟨follows passing followed covers _ _ _ run, covers.mono front⟩
  | behind jumps run other =>
    exact ⟨follows passing followed covers _ _ _ run,
      ((follows true followed covers _ _ _ other).finished rfl).mono behind⟩
  | later run leaves =>
    have told := (follows passing).retold (follows true) followed covers _ _ _ run
    cases leaves with
    | finished =>
      rw [append_nil]
      exact ⟨told, (told.finished rfl).mono behind⟩

/-- A block that stops behind each statement has stopped where it ends. -/
theorem end_eachPlan (parent : Option Nat) (i : Nat) (code : List Node) (p : Progress) :
    ((eachPlan parent i code).run env p).state ∈ p.state ::
    (eachPlan parent i code).stops env p := by
  induction code generalizing i p with
  | nil => simp only [eachPlan, Plan.run, mem_cons_self]
  | cons n rest ih =>
    simp only [eachPlan, Plan.run, Plan.stops, stops_nodePlan, nil_append]
    exact mem_cons_of_mem _ (ih _ _)

/-- The body of a `try` statement, the states in front of and behind the statements of which lie
below the state in which what stands behind it is entered. -/
theorem leaving_eachPlan (toured : ∀ c ∈ code, Toured env around c) {passing : Bool}
    (faced : Point.Faced env ⟨around, eachPlan parent i code, p⟩) (begun : p.state.Below u)
    (above : ∀ s ∈ (eachPlan parent i code).stops (around.env env) p, s.Below u)
    {more : List Traces.Step} (next : Leaving env.settings
    ((eachPlan parent i code).run (around.env env) p) q u more)
    (ends : ((eachPlan parent i code).run (around.env env) p).Extends q) :
    Leaving env.settings p q u (blockSteps env.settings passing i code ++ more) := by
  induction code generalizing i p with
  | nil =>
    rw [eachPlan, Plan.run] at next
    rw [blockSteps]
    exact next
  | cons n rest ih =>
    obtain ⟨first, others⟩ := forall_mem_cons.mp toured
    rw [eachPlan] at faced
    simp only [eachPlan, Plan.run] at next ends
    simp only [eachPlan, Plan.stops, stops_nodePlan, nil_append, Plan.run] at above
    rw [blockSteps, cons_append]
    have here := fun passing => first passing parent i p (Goes.first.faces faced)
    have later := Goes.second.faces (Goes.second.faces faced)
    rw [Plan.run] at later
    have onward := later.extends.trans ends
    obtain ⟨behind, above⟩ := forall_mem_cons.mp above
    have later := ih others later behind above next ends
    intro followed covers trace after entered way leaves
    cases leaves with
    | front jumps run => exact ⟨(here passing followed covers _ _ _ run).onward onward jumps,
        covers.mono begun⟩
    | behind jumps run other =>
      refine ⟨(here passing followed covers _ _ _ run).onward onward jumps, ?_⟩
      exact ((here true followed covers _ _ _ other).finished rfl).mono behind
    | later run leaves =>
      have told := (here passing).retold (here true) followed covers _ _ _ run
      obtain ⟨toldLater, enters⟩ := later _ (told.finished rfl) _ _ _ _ leaves
      exact ⟨.append (told.arrivals.mono onward.under) toldLater, enters⟩

/-- The body of a `try` statement and its `else` clause. Handlers are visited, but no run enters
them. -/
theorem leaving_tried (toured : ∀ c ∈ code, Toured env around c) (passing : Bool) {bare : Bool}
    {rescue after : Plan} {step : Bool → Traces}
    (last : ∀ passing, after.Follows env around (step passing))
    (faced : Point.Faced env ⟨around, .tried bare (eachPlan parent i code) rescue after, p⟩)
    (above : ∀ s ∈ p.state :: (eachPlan parent i code).stops (around.env env) p, s.Below u)
    (behind : ((Plan.tried bare (eachPlan parent i code) rescue after).run
      (around.env env) p).state.Below u) :
      Leaving env.settings p ((Plan.tried bare (eachPlan parent i code) rescue after).run
        (around.env env) p) u (blockSteps env.settings passing i code ++
          [⟨step passing, step true⟩]) := by
  have closed := above _ (end_eachPlan parent i code p)
  obtain ⟨begun, above⟩ := forall_mem_cons.mp above
  unfold Plan.tried at *
  split at faced
  · rename_i none
    rw [if_pos none, Plan.run] at behind ⊢
    have next := Goes.second.faces faced
    exact leaving_eachPlan toured (Goes.first.faces faced) begun above
      (.one (fun passing => last passing _ next) closed behind passing) next.extends
  · rename_i some
    rw [if_neg some, Plan.run] at behind ⊢
    have rescued := Goes.rescue.faces faced
    have next := (Goes.after rfl).faces faced
    have onward : Progress.Extends _ _ := .of_resume _ next.extends
    refine leaving_eachPlan toured (Goes.body.faces faced) begun above
      (.one (fun passing => ?_) closed behind passing)
      ((Progress.Extends.of_resume _ rescued.extends).trans (onward.resume _))
    exact (last passing _ next).of_resume.mono ((Progress.Extends.refl _).resume _)
      (State.below_merge_left _ _)

theorem follows_attempt {handlers : List (Handler Node)} {final : Option (Clause Node)}
    (body : ∀ c ∈ code, Toured env around c)
    (last : ∀ c ∈ Clause.statements orelse, Toured env around c)
    (ends : ∀ c ∈ Clause.statements final, Toured env around c) :
    Toured env around (.attempt loc header code handlers orelse final) := by
  intro passing parent i
  rw [nodePlan, traces]
  refine .compound fun p faced => ?_
  have first := Goes.first.faces faced
  have next := Goes.second.faces faced
  have lasts := follows_clausePlan ends passing i _ _ next
  cases final with
  | none =>
    exact (leaving_tried body passing (fun passing => follows_clausePlan last passing i _) first
      (fun s member => (State.below_join member).trans (State.below_merge_right _ _))
      (State.below_merge_left _ _)).sequence.mono next.extends
      (by rw [clausePlan, Plan.run]; exact .refl _)
  | some clause =>
    have leaving := leaving_tried body passing (fun passing => follows_clausePlan last passing i _)
      (Goes.body.faces first) (fun s member => (State.below_join member).trans
      (State.below_merge_right _ _)) (State.below_merge_left _ _)
    rw [← stops_tried] at leaving
    exact leaving.cleanup lasts (.of_resume _ next.extends)

/-! ### Loops -/

/-- The analysis stands by one round of a loop: a round that finishes leads back to the head, and
one that breaks leads to a jump. `fresh` is what else each round begins with. -/
structure RoundStandsBy (settings : Settings) (q : Progress) (head : State)
    (fresh : List Event → Prop) (trace : List Happening) (after : List Event) (outcome : Outcome) :
    Prop where
  arrivals : Arrived settings q trace
  finished : outcome = .finished → head.Covers settings after ∧ fresh after
  broke : outcome = .broke → ∃ s ∈ q.breaks, s.Covers settings after

/-- From the rounds of a loop to the loop. The last point lies behind the `else` clause and the
jumps. -/
theorem standsBy_repeats {round last : Traces} {fresh : List Event → Prop} {r f : Progress}
    (rounds : ∀ followed, head.Covers settings followed → fresh followed → ∀ trace after outcome,
      round followed trace after outcome → RoundStandsBy settings q head fresh trace after outcome)
    (lasts : ∀ followed, head.Covers settings followed → ∀ trace after outcome,
      last followed trace after outcome → StandsBy settings r trace after outcome)
    (under : q.Under True f) (more : r.Extends f) (below : r.state.Below f.state)
    (jumps : ∀ s ∈ q.breaks, s.Below f.state)
      (run : Traces.Repeats round last followed trace after outcome) :
    head.Covers settings followed → fresh followed → StandsBy settings f trace after outcome := by
  induction run with
  | last run =>
    intro covers _
    exact (lasts _ covers _ _ _ run).mono more below
  | again run _ ih =>
    intro covers new
    have first := rounds _ covers new _ _ _ run
    obtain ⟨covered, renewed⟩ := first.finished rfl
    exact .append (first.arrivals.mono under) (ih covered renewed)
  | broke run =>
    intro covers new
    have first := rounds _ covers new _ _ _ run
    obtain ⟨s, member, covered⟩ := first.broke rfl
    exact standsBy_finished (first.arrivals.mono under) (covered.mono (jumps s member))
  | stopped run =>
    intro covers new
    exact standsBy_stopped ((rounds _ covers new _ _ _ run).arrivals.mono under) _

/-- The body of a loop leads back to the head from its end and from each `continue`. -/
theorem Follows.round {body : Traces} (follows : Follows settings p q body)
    (back : q.state.Below head) (again : ∀ s ∈ q.continues, s.Below head)
    (covers : p.state.Covers settings followed) (run : body.resumed followed trace after outcome) :
    RoundStandsBy settings q head (fun _ => True) trace after outcome := by
  rcases run with ⟨rfl, run | run⟩ | ⟨unfinished, uncontinued, run⟩
  · have told := follows followed covers _ _ _ run
    exact ⟨told.arrivals, fun _ => ⟨(told.finished rfl).mono back, trivial⟩,
      fun jumps => nomatch jumps⟩
  · have told := follows followed covers _ _ _ run
    obtain ⟨s, member, covered⟩ := told.continued rfl
    exact ⟨told.arrivals, fun _ => ⟨covered.mono (again s member), trivial⟩,
      fun jumps => nomatch jumps⟩
  · have told := follows followed covers _ _ _ run
    exact ⟨told.arrivals, fun ends => absurd ends unfinished, told.broke⟩

theorem RoundStandsBy.retold {own other : Traces} {fresh : List Event → Prop}
    (first : ∀ {trace after outcome}, own followed trace after outcome →
    RoundStandsBy settings q head fresh trace after outcome)
      (second : ∀ {trace after outcome}, other followed trace after outcome →
        RoundStandsBy settings q head fresh trace after outcome)
        (run : own.retold other followed trace after outcome) :
    RoundStandsBy settings q head fresh trace after outcome := by
  rcases run with run | ⟨rfl, ⟨between, run⟩, told, otherwise⟩
  · exact first run
  · exact ⟨(first run).arrivals, (second otherwise).finished, fun jumps => nomatch jumps⟩

/-- The analysis stands by a loop if it does so by each round from the head on which the loop
settles. -/
theorem LoopVisit.Faced.told {v : LoopVisit} {mid hi : Nat} (faced : v.Faced env mid hi)
    (passing : Bool) {body : Bool → Traces}
    (bodies : ∀ passing, v.body.Follows env v.around (body passing)) {last : Traces}
    (lasts : v.orelse.Follows env v.around last) {round : Traces} (fresh : List Event → Prop)
      (rounds : ∀ (q : Progress) (head : State), q.pending = [] → v.before.state.Below head →
        (∀ {followed}, ((q.resume head).acts (v.around.env env) v.index v.again).state.Covers
          env.settings followed → ∀ {trace after outcome}, Traces.retold (.resumed (body passing))
          (.resumed (body true)) followed trace after outcome →
          RoundStandsBy env.settings (v.pass env (q.resume head)) head (fun _ => True) trace after
          outcome) →
      ∀ followed, head.Covers env.settings followed → fresh followed → ∀ trace after outcome,
        round followed trace after outcome → RoundStandsBy env.settings (v.pass env (q.resume head))
          head fresh trace after outcome) (covers : v.before.state.Covers env.settings followed)
          (new : fresh followed)
    (run : Traces.Repeats round last followed trace after outcome) :
    StandsBy env.settings (v.before.loop (v.around.env env) v.index (v.pass env)
      (v.orelse.run (v.around.env env))) trace after outcome := by
  obtain ⟨final, enough, moves, rests⟩ := faced.exists_rests
  have settled := LoopVisit.Faced.settled_eq enough moves rests
  have ended : Point.Faced env ⟨v.around, v.orelse, _⟩ := ⟨_, _, _, faced.faces_else⟩
  have behind := lasts _ ended
  have more := ended.extends
  rw [settled] at behind more
  have back := State.below_of_same rests
  have above : v.before.state.Below (v.head env final) := by
    have start := below_loopStart (v.around.env env) v.index v.before
    clear * - start
    induction final with
    | zero => exact start
    | succ k ih => exact ih.trans (LoopVisit.Faced.below_head env v k)
  have each := rounds (v.round env final).2 (v.head env final)
    (faced.poised final).ready.kept.settled above
    fun {followed} covers {trace after outcome} run => by
      have follows := fun passing => bodies passing _ ⟨_, _, _, faced.faces_body final⟩
      have ends : (v.pass env ((v.round env final).2.resume (v.head env final))).state.Below
          (v.head env final) :=
        (State.below_join (mem_cons_of_mem _ (mem_cons_self ..))).trans back
      have again : ∀ s ∈ (v.pass env ((v.round env final).2.resume (v.head env final))).continues,
          s.Below (v.head env final) := fun s member =>
        (State.below_join (mem_cons_of_mem _ (mem_cons_of_mem _ member))).trans back
      exact .retold (fun own => (follows passing).round ends again covers own)
        (fun other => (follows true).round ends again covers other) run
  rw [loop_eq v.index (v.pass env) (v.orelse.run (v.around.env env)) settled]
  refine standsBy_repeats each behind ?_ ⟨.refl _, fun _ => id, fun _ => id⟩ ?_ ?_ run
    (covers.mono above) new
  · exact more.under
  · exact State.below_join (mem_cons_self ..)
  · exact fun s member => State.below_join (mem_cons_of_mem _ member)

/-- A loop only adds to what is known. -/
theorem LoopVisit.Faced.extends {v : LoopVisit} {mid hi : Nat} (faced : v.Faced env mid hi) :
    v.before.Extends (v.before.loop (v.around.env env) v.index (v.pass env)
      (v.orelse.run (v.around.env env))) := by
  have start := faced.poised 0
  have led : Leads (v.around.trait env) _ _ _ _ _ _ _ :=
    ((v.around.steady env).invariant.settles faced.body.le faced.leads
      (Nat.succ_pos _ : 0 < (v.around.env env).passes) start.sound start.ready (forall_mem_nil _)).2
  have ended : Point.Faced env ⟨v.around, v.orelse, _⟩ := ⟨_, _, _, faced.faces_else⟩
  rw [loop_eq v.index _ _ rfl]
  exact ⟨led.under.trans ended.extends.under, ended.extends.breaks, ended.extends.continues⟩

/-- A loop is arrived at, and goes round behind what it does in front. -/
theorem Plan.Follows.cycle {before again : List Action} {body orelse : Plan} {traces : Traces}
    (loops : ∀ (e : Progress) (v : LoopVisit) (mid hi : Nat), Point.Faced env
      ⟨around, .acts i before, e⟩ → v = ⟨around, i, n, again, body, orelse,
      e.acts (around.env env) i before⟩ → v.Faced env mid hi → Flow.Follows env.settings e
        (v.before.loop (v.around.env env) v.index (v.pass env) (v.orelse.run (v.around.env env)))
        traces) :
    (Plan.cycle parent i n before again body orelse).Follows env around (traces.arriving i n) := by
  rintro p ⟨own, lo, hi, faces⟩
  obtain ⟨mid, faced⟩ := faces.visit
  obtain ⟨lies, ready⟩ := faces
  cases lies with
  | cycle compound here _ all parts =>
    obtain ⟨fronts, _⟩ := forall_mem_append.mp all
    have ahead : Point.Faced env ⟨around, .acts i before, p.enter parent i n⟩ := by
      refine ⟨_, _, _, .acts (Nat.lt_succ_self i) fronts,
        (around.steady env).entered ready parent here.stated compound fun e member => ?_⟩
      rw [← parts, flatMap_append]
      exact mem_append_left _ member
    have follows := loops (p.enter parent i n) _ _ _ ahead rfl faced
    rw [Plan.run]
    exact .arriving (entered_enter ready.kept here ready.size parent) (.leave compound i _ follows)
      (ahead.extends.trans (faced.extends.trans (Progress.extends_leave compound i _ _))).under

theorem follows_for {target iter : Node} {isAsync : Bool}
    (star : allNames ∉ (Node.forLoop loc header target iter code orelse isAsync).identifiers)
    (body : ∀ c ∈ code, Toured env around c)
    (last : ∀ c ∈ Clause.statements orelse, Toured env around c) :
    Toured env around (.forLoop loc header target iter code orelse isAsync) := by
  intro passing parent i
  have targetPlain : allNames ∉ target.targetParts.flatMap Node.walruses ++ target.targetIds := by
    have plain : allNames ∉ target.identifiers :=
      fun own => star (Node.identifiers_subset_of_child (mem_cons_self ..) own)
    exact starless_parts (fun e among own => plain
      (Node.identifiers_subset (Node.targetParts_subset target among) own))
      (fun own => plain (Node.targetIds_subset target own))
  have iterPlain : allNames ∉ iter.identifiers := fun own =>
    star (Node.identifiers_subset_of_child (mem_cons_of_mem _ (mem_cons_self ..)) own)
  rw [nodePlan, traces]
  refine .cycle fun e v mid hi ahead same faced => .andThen (follows_test iterPlain e ahead) ?_
    (same ▸ faced.extends)
  subst same
  intro followed covers trace after outcome run
  refine faced.told passing (fun passing => follows_blockPlan body passing _ _)
    (follows_clausePlan last passing _ _)
    (fun _ => True) ?_ covers trivial run
  rintro q head settled above round followed covers _ trace after outcome
    (⟨unfinished, _, acted, _, _⟩ | ⟨early, late, between, rfl, ⟨events, acted, rfl, rfl⟩, rest⟩)
  · exact absurd acted.1 unfinished
  · have kills : DefinitionKind.loopTarget.kills = true := rfl
    have binds := (Progress.does_bind (around.env env) i kills target (p :=
      q.resume head) settled).binds
    rw [Progress.bind_eq_acts] at binds
    have bound := covers.act acted.2 (fun name => (binds name).1) (fun name => (binds name).2)
      targetPlain
    have passed := round bound rest
    exact { passed with arrivals := acted.2.arrived.append passed.arrivals }

theorem follows_while {test : Node}
    (star : allNames ∉ (Node.whileLoop loc header test code orelse).identifiers)
    (body : ∀ c ∈ code, Toured env around c)
    (last : ∀ c ∈ Clause.statements orelse, Toured env around c) :
    Toured env around (.whileLoop loc header test code orelse) := by
  intro passing parent i
  have testPlain : allNames ∉ test.identifiers :=
    fun own => star (Node.identifiers_subset_of_child (mem_cons_self ..) own)
  have starless : allNames ∉ [test].flatMap Node.walruses ++ [] :=
    starless_parts (forall_mem_singleton.mpr testPlain) not_mem_nil
  rw [nodePlan, traces]
  generalize Node.whileLoop loc header test code orelse = n at *
  -- UnderLeader the test, it was the last to bind its names.
  have renews : ∀ {past events : List Event}, Acts i n ([test].flatMap Node.walruses) [] [] events →
      ∀ name ∈ [test].flatMap Node.walruses, lastBinder name (past ++ events) = some (i, n) := by
    intro past events acts name member
    rw [lastBinder_append, acts.lastBinder_eq (mem_append_left _ member)]
    rfl
  refine .cycle fun e v mid hi ahead same faced => ?_
  have more := faced.extends
  subst same
  rintro followed covers trace after outcome
    (⟨unfinished, _, acted, _, _⟩ | ⟨early, late, between, rfl, ⟨events, acted, rfl, rfl⟩, run⟩)
  · exact absurd acted.1 unfinished
  have told := follows_test testPlain e ahead followed covers _ _ _ ⟨events, acted, rfl, rfl⟩
  -- In the state behind the test, the statement stands under each name that the test binds.
  have standing : ∀ name ∈ [test].flatMap Node.walruses, .statement i ∈
      (e.evaluate (around.env env) i [test]).state.reaching name :=
    fun name => ((Progress.does_evaluate ahead.settled (around.env env) i [test]).binds name).1
  refine .append (told.arrivals.mono more.under) ?_
  refine faced.told passing (fun passing => follows_blockPlan body passing _ _)
    (follows_clausePlan last passing _ _)
    (fun past => ∀ name ∈ [test].flatMap Node.walruses, lastBinder name past = some (i, n)) ?_
    (told.finished rfl) (renews acted.2) run
  -- A round is a pass of the body and then the next test.
  rintro q head settled above round followed covers fresh trace after outcome run
  have binds := (Progress.does_evaluate (p := q.resume head) settled (around.env env) i
    [test]).binds
  have renewed := covers.again binds fresh (fun own => starless (mem_append_left _ own))
  rcases run with ⟨unfinished, run⟩ | ⟨early, late, between, rfl, run,
    ⟨events, ⟨rfl, acts⟩, rfl, rfl⟩⟩
  · have passed := round renewed run
    exact ⟨passed.arrivals, fun ends => absurd ends unfinished, passed.broke⟩
  · have passed := round renewed run
    refine ⟨passed.arrivals.append acts.arrived, fun _ => ⟨?_, renews acts⟩,
      fun jumps => Outcome.noConfusion jumps⟩
    refine (passed.finished rfl).1.act acts ?_ (fun _ _ _ reaches => reaches) starless
    intro name member
    rw [append_nil] at member
    exact above name _ (standing name member)

/-- The analysis stands by all traces of every statement that it comes to. -/
theorem toured (n : Node) : allNames ∉ n.identifiers → Toured env around n := by
  induction n using Node.clause_induction with
  | step n ih =>
    intro star
    have inside : ∀ block ∈ n.clauseBlocks, ∀ c ∈ block.2, Toured env around c :=
        fun block among c member =>
      ih block among c member fun own =>
        star (Node.identifiers_subset_of_child (Node.mem_children_of_block among member) own)
    clear ih
    cases n
    case branch loc header test code elifs orelse =>
      obtain ⟨body, others, last⟩ := Node.forall_clauseBlocks_branch.mp inside
      intro passing parent i
      rw [nodePlan, traces]
      refine .compound (.seq (follows_test fun own => ?_)
        (.fork (follows_blockPlan body passing _ _)
          (follows_elifPlan others (fun e among own => ?_) passing
            (follows_clausePlan last passing _ _))))
      · exact star (Node.identifiers_subset_of_child (mem_cons_self ..) own)
      · exact star (Node.identifiers_subset_of_child
          (Node.elif_mem_children loc header test code orelse among) own)
    case whileLoop =>
      obtain ⟨body, last⟩ := Node.forall_clauseBlocks_while.mp inside
      exact follows_while star body last
    case forLoop =>
      obtain ⟨body, last⟩ := Node.forall_clauseBlocks_for.mp inside
      exact follows_for star body last
    case attempt =>
      obtain ⟨body, _, last, ends⟩ := Node.forall_clauseBlocks_attempt.mp inside
      exact follows_attempt body last ends
    case context loc header items code isAsync =>
      intro passing parent i
      rw [nodePlan, traces]
      refine .compound (.seq (.acts ?_ (starless_parts (fun e among own => ?_) fun own => ?_))
        (follows_blockPlan (Node.forall_clauseBlocks_context.mp inside) passing _ _))
      · rw [parts_contextActions, kills_contextActions]
      · exact star (Node.identifiers_subset (Node.contextParts_subset _ _ _ _ _ among) own)
      · exact star (Node.contextIds_subset _ _ _ _ _ own)
    all_goals
      intro passing parent i
      rw [nodePlan_flat rfl, traces_flat rfl]
      exact .flat rfl star passing

/-! ### Modules -/

/-- The analysis of a block stands by all its traces. -/
theorem follows_analyzeBlock (settings : Settings) (writes : GlobalWrites)
    (faultless : Node.blockFault code = none) (star : ∀ c ∈ code, allNames ∉ c.identifiers) :
    Follows settings (.start ∅) (visitBlock (.ofModule settings writes code) none 0 code (.start ∅))
      (.sequence (blockSteps settings false 0 code)) := by
  rw [visitBlock_eq_plan]
  have each : ∀ c ∈ code, Toured (.ofModule settings writes code) ⟨[], code⟩ c :=
    fun c member => toured c (star c member)
  exact follows_blockPlan each false none 0 _
    (Body.faced (.ofModule settings writes code) (Node.everywhere_of_blockFault faultless))

/-- **What the analysis follows of a run is sound, jumps through `finally` clauses included.** A
tree without faults is analysed, and every run of it has a trace. Whenever a trace arrives at a
statement, the facts of the statement hold, for each name that was last bound in the run where it
was last bound in what has been followed, the statement that last counted as binding it, or the mark
for what was there before if none did. At the end of a finished run, so does the exit of the block.
A statement that may bind any name may stand under the name for all names instead. -/
theorem reaching_of_course (settings : Settings) (writes : GlobalWrites) {tree : Node}
    (faultless : Node.blockFault tree.code = none) (star : allNames ∉ tree.identifiers)
    {events : List Event} {outcome : Outcome}
    (run : blockUnwinds settings 0 tree.code events outcome) :
      ∃ r, analyze settings writes tree = .ok r ∧
        (∃ trace after, Traces.sequence (blockSteps settings false 0 tree.code)
          [] trace after outcome ∧ trace.map Happening.event = events) ∧
      ∀ trace after, Traces.sequence (blockSteps settings false 0 tree.code)
        [] trace after outcome → trace.map Happening.event = events →
        (∀ before s n followed later, trace = before ++ ⟨.arrive s n, followed⟩ :: later →
          ∃ f, r.statements[s]? = some f ∧ f.node = n ∧ ∀ name,
            lastBinder name followed = lastBinder name (before.map Happening.event) →
              (lastBinder name (before.map Happening.event) = none → .entry ∈ f.reaching name) ∧
              ∀ i m, lastBinder name (before.map Happening.event) = some (i, m) →
                .statement i ∈ f.reaching name ∨ (m.bindsAnyName settings = true ∧
                  .statement i ∈ f.reaching allNames)) ∧
        (outcome = .finished → ∀ name, lastBinder name after = lastBinder name events →
          (lastBinder name events = none → .entry ∈ r.reachingAtExit name) ∧
          ∀ i m, lastBinder name events = some (i, m) → .statement i ∈ r.reachingAtExit name ∨
            (m.bindsAnyName settings = true ∧ .statement i ∈ r.reachingAtExit allNames)) := by
  have starless : ∀ c ∈ tree.code, allNames ∉ c.identifiers :=
    fun c member own => star (Node.identifiers_subset (code_subset_nodes tree member) own)
  refine ⟨analyzeBlock settings writes tree.code, by rw [analyze, faultless], ?_,
    fun trace after traces same => ?_⟩
  · exact (tellsBy_blockSteps (fun c _ i => tells_traces c i) 0).sequence [] events outcome run
  have follows := follows_analyzeBlock settings writes faultless starless []
    (State.covers_start settings) trace after outcome traces
  constructor
  · rintro before s n followed later rfl
    obtain ⟨f, found, node, covers⟩ := follows.arrivals ⟨.arrive s n, followed⟩
      (mem_append_right _ (mem_cons_self ..)) s n rfl
    exact ⟨f, found, node, fun name same => same ▸ covers.told name⟩
  · exact fun ends name same => same ▸ (follows.finished ends).told name

/-- `while c:` with `try:` around `x = k` and `break`, and `finally:` around `y = k`; then `x`. -/
def leftTry : Node :=
  .module default
    [.whileLoop default default (.name default "c")
        [.attempt default default
          [.assign default [.name default "x"] (some (.name default "k")) none none false,
          .break default] [] none (some ⟨default,
            [.assign default [.name default "y"] (some (.name default "k")) none none
              false]⟩)] none,
      .expression default (.name default "x")]

/-- The run that leaves the loop by the `break` and arrives at the statement behind it. -/
def leftTryRun : List Event :=
  [.arrive 0 (nodeAt leftTry 0), .arrive 1 (nodeAt leftTry 1), .arrive 2 (nodeAt leftTry 2),
    .bind 2 (nodeAt leftTry 2) "x", .arrive 3 (nodeAt leftTry 3), .arrive 4 (nodeAt leftTry 4),
    .bind 4 (nodeAt leftTry 4) "y", .arrive 5 (nodeAt leftTry 5)]

theorem acts_nil (i : Nat) (n : Node) : Acts i n [] [] [] [] :=
  ⟨by simp, by simp, by simp⟩

theorem unwinds_leftTry : blockUnwinds ⟨∅, ∅⟩ 0 leftTry.code leftTryRun .stopped := by
  refine Or.inr ⟨leftTryRun.take 7, leftTryRun.drop 7, rfl, ⟨_, rfl, Or.inl ?_⟩, ?_⟩
  · refine Or.inr ⟨[], _, rfl, ⟨rfl, acts_nil _ _⟩,
      .broke (Or.inl ⟨by simp, Or.inr ⟨by simp, by simp, ?_⟩⟩)⟩
    refine Or.inl
      ⟨by simp, _, rfl, Or.inl (Or.inr ⟨[_, _, _], [_, _], .broke, .finished, rfl, by simp, ?_,
        ?_, rfl⟩)⟩
    · refine Or.inl
        ⟨by simp, Or.inr ⟨[_, _], [_], rfl, ⟨_, rfl, Or.inl ⟨rfl, acts_bind _ _ _⟩⟩, ?_⟩⟩
      exact Or.inl ⟨by simp, _, rfl, Or.inl ⟨rfl, acts_nil _ _⟩⟩
    · exact Or.inr ⟨[_, _], [], rfl, ⟨_, rfl, Or.inl ⟨rfl, acts_bind _ _ _⟩⟩, rfl, rfl⟩
  · exact Or.inl ⟨by simp, _, rfl, Or.inr ⟨rfl, rfl⟩⟩

/-- The run with what is followed of it. The jump has the `finally` clause begin in front of the
`break`; behind the loop, the loop is told to have ended by itself, the `break` passed over. -/
def leftTryTrace : List Happening :=
  happenings [] (leftTryRun.take 5) ++
    happenings (leftTryRun.take 4) ((leftTryRun.drop 5).take 2) ++ happenings (leftTryRun.take 7)
    (leftTryRun.drop 7)

theorem traces_leftTry :
    Traces.sequence (blockSteps ⟨∅, ∅⟩ false 0 leftTry.code)
      [] leftTryTrace leftTryRun .stopped := by
  refine Or.inr ⟨leftTryTrace.take 7, leftTryTrace.drop 7, leftTryRun.take 7, rfl, Or.inr ⟨rfl,
    ⟨leftTryRun.take 5, _, rfl, Or.inl (Or.inr ⟨[], _, _, rfl, ⟨[], ⟨rfl, acts_nil _ _⟩, rfl, rfl⟩,
      .broke ?_⟩)⟩,
    happenings [] (leftTryRun.take 7), _, rfl,
        Or.inl (Or.inr ⟨[], _, _, rfl, ⟨[], ⟨rfl, acts_nil _ _⟩, rfl, rfl⟩, ?_⟩)⟩, ?_⟩
  · -- The round that breaks.
    refine Or.inl
      ⟨by simp,
        Or.inl (Or.inr ⟨by simp, by simp, Or.inl ⟨by simp, Or.inl ⟨_, rfl, Or.inl (Or.inr ?_)⟩⟩⟩)⟩
    refine ⟨[_, _, _], [_, _], leftTryRun.take 5, leftTryRun.take 4, leftTryRun.take 4 ++
        (leftTryRun.drop 5).take 2,
      .broke, .finished, rfl, by simp, ?_, ?_, rfl, rfl⟩
    · change Traces.Leaves _ _ ([_, _] ++ [_]) _ _ _
      refine .later (Or.inl ⟨[_, _], ⟨_, rfl, Or.inl (Or.inl ⟨rfl, acts_bind _ _ _⟩)⟩, rfl, rfl⟩)
        (.front (by simp) ?_)
      exact ⟨[_], ⟨_, rfl, Or.inl (Or.inl ⟨rfl, acts_nil _ _⟩)⟩, rfl, rfl⟩
    · refine Or.inr ⟨[_, _], [], leftTryRun.take 4 ++ (leftTryRun.drop 5).take 2, rfl, Or.inl ?_,
          [], ⟨rfl, rfl⟩, rfl, rfl⟩
      exact ⟨[_, _], ⟨_, rfl, Or.inl (Or.inl ⟨rfl, acts_bind _ _ _⟩)⟩, rfl, rfl⟩
  · -- The round in which the jump is passed over, and the end of the loop.
    change Traces.Repeats _ _ _
      (happenings (leftTryRun.take 1) ((leftTryRun.drop 1).take 6) ++ []) _ _
    refine @Traces.Repeats.again _ _ _ _ _ (leftTryRun.take 7) _ _ ?_
        (.last ⟨[], ⟨rfl, rfl⟩, rfl, rfl⟩)
    refine Or.inr ⟨_, [], leftTryRun.take 7, (append_nil _).symm,
      Or.inl (Or.inl ⟨rfl, Or.inl ?_⟩), [], ⟨rfl, acts_nil _ _⟩, rfl, rfl⟩
    refine Or.inr ⟨_, [], leftTryRun.take 7, (append_nil _).symm,
        Or.inl ⟨_, rfl, Or.inl (Or.inr ?_)⟩, [],
      ⟨rfl, rfl⟩, rfl, rfl⟩
    refine ⟨[_, _, _], [_, _], leftTryRun.take 5, leftTryRun.take 5, leftTryRun.take 7, .finished,
        .finished, rfl,
      by simp, ?_, ?_, rfl, rfl⟩
    · change Traces.Leaves _ _ ([_, _] ++ ([_] ++ ([] ++ []))) _ _ _
      refine .later (Or.inl ⟨[_, _], ⟨_, rfl, Or.inl (Or.inl ⟨rfl, acts_bind _ _ _⟩)⟩, rfl, rfl⟩) ?_
      refine .later (Or.inl ⟨[_], ⟨_, rfl, Or.inl (Or.inr ⟨rfl, rfl, rfl, acts_nil _ _⟩)⟩, rfl,
        rfl⟩) ?_
      exact .later (Or.inl ⟨[], ⟨rfl, rfl⟩, rfl, rfl⟩) .finished
    · refine Or.inr ⟨[_, _], [], leftTryRun.take 7, rfl, Or.inl ?_, [], ⟨rfl, rfl⟩, rfl, rfl⟩
      exact ⟨[_, _], ⟨_, rfl, Or.inl (Or.inl ⟨rfl, acts_bind _ _ _⟩)⟩, rfl, rfl⟩
  · exact Or.inl ⟨by simp, Or.inl ⟨[_], ⟨_, rfl, Or.inr ⟨rfl, rfl⟩⟩, rfl, rfl⟩⟩

/-- UnderLeader a loop that was left through a `finally` clause, the assignments in front of the
jump and in the clause have reached their names. -/
theorem reaching_of_course_left_try :
    Node.blockFault leftTry.code = none ∧ allNames ∉ leftTry.identifiers ∧
      blockUnwinds ⟨∅, ∅⟩ 0 leftTry.code leftTryRun .stopped ∧
      ∃ r f, analyze ⟨∅, ∅⟩ ∅ leftTry = .ok r ∧ r.statements[5]? = some f ∧
        (.statement 2 ∈ f.reaching "x" ∨
          ((nodeAt leftTry 2).bindsAnyName ⟨∅, ∅⟩ = true ∧ .statement 2 ∈ f.reaching allNames)) ∧
        (.statement 4 ∈ f.reaching "y" ∨
          ((nodeAt leftTry 4).bindsAnyName ⟨∅, ∅⟩ = true ∧
            .statement 4 ∈ f.reaching allNames)) := by
  refine ⟨by decide, by decide, unwinds_leftTry, ?_⟩
  obtain ⟨r, analyzed, _, sound⟩ := reaching_of_course ⟨∅, ∅⟩ ∅ (by decide)
    (by decide) unwinds_leftTry
  obtain ⟨arrivals, _⟩ := sound leftTryTrace leftTryRun traces_leftTry rfl
  obtain ⟨f, found, _, reaching⟩ := arrivals (leftTryTrace.take 7) 5 (nodeAt leftTry 5)
    (leftTryRun.take 7) [] rfl
  exact ⟨r, f, analyzed, found, (reaching "x" rfl).2 2 (nodeAt leftTry 2) rfl,
    (reaching "y" rfl).2 4 (nodeAt leftTry 4) rfl⟩

/-- Some run of a tree arrives at a statement the facts of which lack where a name was last
bound. -/
def Lost (tree : Node) : Prop :=
  ∃ before s n after outcome, blockUnwinds ⟨∅, ∅⟩ 0 tree.code (before ++ .arrive s n :: after)
    outcome ∧ ∃ r f name i m, analyze ⟨∅, ∅⟩ ∅ tree = .ok r ∧ r.statements[s]? = some f ∧
      lastBound name before = some (i, m) ∧ .statement i ∉ f.reaching name ∧
      .statement i ∉ f.reaching allNames

theorem lost_of_facts {tree : Node} {before after : List Event} {s i : Nat} {n m : Node}
    {outcome : Outcome} {name : String}
    (run : blockUnwinds ⟨∅, ∅⟩ 0 tree.code (before ++ .arrive s n :: after) outcome)
    (analyzed : analyze ⟨∅, ∅⟩ ∅ tree = .ok (analyzeBlock ⟨∅, ∅⟩ ∅ tree.code))
    (bound : lastBound name before = some (i, m))
    (facts : (analyzeBlock ⟨∅, ∅⟩ ∅ tree.code).statements[s]?.any (fun f =>
      decide (.statement i ∉ f.reaching name ∧ .statement i ∉ f.reaching allNames)) =
          true) : Lost tree := by
  obtain ⟨f, found, absent⟩ := (Option.any_eq_true _ _).mp facts
  exact ⟨before, s, n, after, outcome, run, _, f, name, i, m, analyzed, found, bound,
    (of_decide_eq_true absent).1, (of_decide_eq_true absent).2⟩

/-- `while c:` with `try:` around `break` and `finally:` around `x = k`, and then `x = k` in the
loop; then `x`. -/
def finallyBinding : Node :=
  .module default
    [.whileLoop default default (.name default "c")
        [.attempt default default [.break default] [] none
          (some ⟨default, [.assign default [.name default "x"] (some (.name default "k"))
          none none false]⟩), .assign default [.name default "x"] (some (.name default "k"))
          none none false] none,
      .expression default (.name default "x")]

/-- `while c:` with `try:` around `if c:`, in which stand `x = k`, `if c:` around `break`, and `x =
k`; and `finally:` around `x`. -/
def nestedJump : Node :=
  .module default
    [.whileLoop default default (.name default "c")
        [.attempt default default
          [.branch default default (.name default "c")
            [.assign default [.name default "x"] (some (.name default "k")) none none false,
              .branch default default (.name default "c") [.break default] [] none,
              .assign default [.name default "x"] (some (.name default "k")) none none false]
              [] none] [] none
          (some ⟨default, [.expression default (.name default "x")]⟩)] none]

/-- What a `finally` clause binds on the way of a jump is lost behind the loop. -/
theorem lost_finallyBinding : Lost finallyBinding := by
  let before : List Event := [.arrive 0 (nodeAt finallyBinding 0),
    .arrive 1 (nodeAt finallyBinding 1), .arrive 2 (nodeAt finallyBinding 2),
    .arrive 3 (nodeAt finallyBinding 3), .bind 3 (nodeAt finallyBinding 3) "x"]
  refine @lost_of_facts finallyBinding before [] 5 3 (nodeAt finallyBinding 5)
    (nodeAt finallyBinding 3) .stopped "x" ?_ rfl rfl (by decide +kernel)
  refine Or.inr ⟨before, [_], rfl, ⟨_, rfl, Or.inl ?_⟩, Or.inl ⟨by simp, _, rfl, Or.inr ⟨rfl, rfl⟩⟩⟩
  refine Or.inr ⟨[], _, rfl, ⟨rfl, acts_nil _ _⟩,
    .broke (Or.inl ⟨by simp, Or.inr ⟨by simp, by simp, ?_⟩⟩)⟩
  refine Or.inl
    ⟨by simp, _, rfl, Or.inl (Or.inr ⟨[_], [_, _], .broke, .finished, rfl, by simp, ?_, ?_, rfl⟩)⟩
  · exact Or.inl ⟨by simp, Or.inl ⟨by simp, _, rfl, Or.inl ⟨rfl, acts_nil _ _⟩⟩⟩
  · exact Or.inr ⟨[_, _], [], rfl, ⟨_, rfl, Or.inl ⟨rfl, acts_bind _ _ _⟩⟩, rfl, rfl⟩

/-- What a block binds in front of a jump in it is lost in the `finally` clause. -/
theorem lost_nestedJump : Lost nestedJump := by
  let before : List Event := [.arrive 0 (nodeAt nestedJump 0), .arrive 1 (nodeAt nestedJump 1),
    .arrive 2 (nodeAt nestedJump 2), .arrive 3 (nodeAt nestedJump 3),
    .bind 3 (nodeAt nestedJump 3) "x",
    .arrive 4 (nodeAt nestedJump 4), .arrive 5 (nodeAt nestedJump 5)]
  refine @lost_of_facts nestedJump before [] 7 3 (nodeAt nestedJump 7) (nodeAt nestedJump 3)
    .stopped "x" ?_ rfl rfl
    (by decide +kernel)
  refine Or.inl ⟨by simp, _, rfl, Or.inl (Or.inr ⟨[], _, rfl, ⟨rfl, acts_nil _ _⟩, .stopped ?_⟩)⟩
  refine Or.inl ⟨by simp, Or.inr ⟨by simp, by simp, Or.inl ⟨by simp, _, rfl, Or.inl (Or.inr ?_)⟩⟩⟩
  refine ⟨before.drop 2, [_], .broke, .stopped, rfl, by simp, ?_, ?_, rfl⟩
  · refine Or.inl
      ⟨by simp, Or.inl ⟨by simp, _, rfl, Or.inl
        (Or.inr ⟨[], _, rfl, ⟨rfl, acts_nil _ _⟩, Or.inl ?_⟩)⟩⟩
    refine Or.inr ⟨[_, _], [_, _], rfl, ⟨_, rfl, Or.inl ⟨rfl, acts_bind _ _ _⟩⟩,
      Or.inl ⟨by simp, _, rfl, Or.inl ?_⟩⟩
    refine Or.inr ⟨[], _, rfl, ⟨rfl, acts_nil _ _⟩,
      Or.inl (Or.inl ⟨by simp, _, rfl, Or.inl ⟨rfl, acts_nil _ _⟩⟩)⟩
  · exact Or.inl ⟨by simp, _, rfl, Or.inr ⟨rfl, rfl⟩⟩

/-- A jump through a `finally` clause may lose the last binding of a name in two ways: behind the
loop what the clause bound, and in the clause what the block that the jump leaves bound. -/
theorem jump_binding_lost : Lost finallyBinding ∧ Lost nestedJump :=
  ⟨lost_finallyBinding, lost_nestedJump⟩

end Lineage.Flow
