import Mathlib.Logic.Relation
import Lineage.Proofs.Slice.Past

/-!
The search for what some statements need ends by itself. It is told here as it goes, without a bound
on the number of its steps: a goal is marked, the names that a call reads are resolved at once and
those of a statement when its turn comes, and when no statement waits for its turn those that are
missing join. Marked goals are not marked again and a history has finitely many, which also cuts off
functions that call each other. The search ends with the closure that the bounded rounds find, so
their bounds are never met.
-/

namespace Lineage

open List

namespace Slice

/-- Marks a goal, with the names that following it leaves unresolved. -/
def Closure.mark (s : Scene) (c : Closure) (g : Goal) : Closure :=
  (c.add g).leave (s.follow g).unresolved

/-- A search under way: the goals that are asked for, the statements that wait for their turn, and
what is marked. -/
structure Search where
  asked : List Goal
  waiting : List Timestamp
  found : Closure

namespace Search

/-- The search begins with the statements it is for, as they are used at the end of their
execution. -/
def start (s : Scene) (e : Execution) (seeds : List Flow.StatementFacts) : Search :=
  ⟨(seeds.map fun f => ⟨e.ordinal, f.index⟩).flatMap (s.need (some (Scene.exitSite e))), [], .empty⟩

/-- One step of a search. -/
inductive Step (s : Scene) : Search → Search → Prop where
  | pass {g : Goal} {rest : List Goal} {waiting : List Timestamp} {c : Closure} :
      c.has g = true → Step s ⟨g :: rest, waiting, c⟩ ⟨rest, waiting, c⟩
  | call {k : Call} {rest : List Goal} {waiting : List Timestamp} {c : Closure} : c.has
      (.call k) = false → Step s ⟨.call k :: rest, waiting, c⟩ ⟨(s.follow (.call k)).goals ++ rest,
        waiting, c.mark s (.call k)⟩
  | visit {t : Timestamp} {rest : List Goal} {waiting : List Timestamp} {c : Closure} : c.has
      (.statement t) = false → Step s ⟨.statement t :: rest, waiting, c⟩
      ⟨rest, t :: waiting, c.mark s (.statement t)⟩
  | turn {t : Timestamp} {waiting : List Timestamp} {c : Closure} :
      Step s ⟨[], t :: waiting, c⟩ ⟨(s.follow (.statement t)).goals, waiting, c⟩
  | join {c : Closure} : c.joining s ≠ [] →
      Step s ⟨[], [], c⟩ ⟨(c.joining s).flatMap (s.need none), [], c⟩

/-- From here on every sequence of steps is finite. -/
def Ends (s : Scene) (m : Search) : Prop :=
  Acc (fun next m => Step s m next) m

/-- The goals that have come up and are not marked yet are among these. -/
def pending (s : Scene) (m : Search) : List Goal :=
  m.asked ++ m.waiting.flatMap fun t => (s.follow (.statement t)).goals

variable {s : Scene} {asked rest : List Goal} {waiting : List Timestamp} {c : Closure}

/-! ### Every search ends -/

section Sound

variable (sound : s.log.Sound)

include sound

/-- A statement that is to join has not been marked. -/
theorem exists_fresh (more : c.joining s ≠ []) :
    ∃ g ∈ (c.joining s).flatMap (s.need none), c.has g = false := by
  obtain ⟨t, member⟩ := exists_mem_of_ne_nil _ more
  obtain ⟨missing, fresh⟩ := Closure.mem_joining.mp member
  obtain ⟨f, holds⟩ := Closure.holds_of_missing sound missing
  refine ⟨.statement t, mem_flatMap.mpr ⟨t, member, ?_⟩, ?_⟩
  · exact Scene.mem_need.mpr ⟨f, (Scene.statement?_eq_some sound).mpr holds, Or.inl rfl⟩
  · rw [← Bool.not_eq_true, Closure.has_statement]
    exact fresh

theorem joining_subset : (c.joining s).flatMap (s.need none) ⊆ s.goals := by
  intro g member
  obtain ⟨t, _, need⟩ := mem_flatMap.mp member
  exact Scene.need_subset sound (by simp) t need

/-- Searches with fewer goals left to mark than some number end. -/
def EndBelow (s : Scene) (n : Nat) : Prop :=
  ∀ (asked : List Goal) (waiting : List Timestamp) (c : Closure), s.goals.countP
    (fun g => !c.has g) < n → asked ⊆ s.goals → (∀ t ∈ waiting, .statement t ∈ s.goals) →
    Ends s ⟨asked, waiting, c⟩

omit sound in
/-- A goal that is marked is passed over. -/
theorem ends_of_has {g : Goal} (held : c.has g = true) (later : Ends s ⟨rest, waiting, c⟩) :
    Ends s ⟨g :: rest, waiting, c⟩ := by
  apply Acc.intro
  intro next step
  cases step with
  | pass => exact later
  | call fresh => simp [held] at fresh
  | visit fresh => simp [held] at fresh

/-- Marking a goal leads on to a search with fewer left to mark. -/
theorem ends_of_fresh {g : Goal} (below : EndBelow s (s.goals.countP fun g => !c.has g))
    (inside : g :: rest ⊆ s.goals) (lying : ∀ t ∈ waiting, .statement t ∈ s.goals)
    (fresh : c.has g = false) : Ends s ⟨g :: rest, waiting, c⟩ := by
  obtain ⟨own, others⟩ := cons_subset.mp inside
  have less := Closure.countP_add_lt (s.follow g).unresolved fresh own
  apply Acc.intro
  intro next step
  cases step with
  | pass held => simp [fresh] at held
  | call => exact below _ _ _ less (append_subset.mpr ⟨Scene.follow_subset sound own, others⟩) lying
  | visit => exact below _ _ _ less others (forall_mem_cons.mpr ⟨own, lying⟩)

/-- A search that comes across a goal which is not marked ends, and else it goes on as if nothing
was asked for. -/
theorem ends_of_asked (below : EndBelow s (s.goals.countP fun g => !c.has g))
    (inside : asked ⊆ s.goals) (lying : ∀ t ∈ waiting, .statement t ∈ s.goals)
    (idle : (∀ g ∈ asked, c.has g = true) → Ends s ⟨[], waiting, c⟩) :
    Ends s ⟨asked, waiting, c⟩ := by
  induction asked with
  | nil =>
    apply idle
    simp
  | cons g rest ih =>
    cases held : c.has g with
    | false => exact ends_of_fresh sound below inside lying held
    | true =>
      apply ends_of_has held
      apply ih (cons_subset.mp inside).2
      intro passed
      exact idle (forall_mem_cons.mpr ⟨held, passed⟩)

/-- All searches in a history end: the goals left to mark get fewer, and as long as they do not, so
do the statements that wait for their turn. -/
theorem ends (inside : asked ⊆ s.goals) (lying : ∀ t ∈ waiting, .statement t ∈ s.goals) :
    Ends s ⟨asked, waiting, c⟩ := by
  induction left : s.goals.countP (fun g => !c.has g) using Nat.strongRecOn generalizing asked
      waiting c with
  | ind n ih =>
  subst left
  have below : EndBelow s (s.goals.countP fun g => !c.has g) :=
    fun _ _ _ less inside lying => ih _ less inside lying rfl
  induction waiting generalizing asked with
  | nil =>
    apply ends_of_asked sound below inside lying
    intro _
    apply Acc.intro
    intro next step
    cases step with
    | join more =>
      -- A statement that joins is not marked, so the search cannot come back here.
      apply ends_of_asked sound below (joining_subset sound) lying
      intro passed
      obtain ⟨g, member, fresh⟩ := exists_fresh sound more
      simp [passed g member] at fresh
  | cons t others ihOthers =>
    obtain ⟨own, rest⟩ := forall_mem_cons.mp lying
    apply ends_of_asked sound below inside lying
    intro _
    apply Acc.intro
    intro next step
    cases step with
    | turn => exact ihOthers (Scene.follow_subset sound own) rest

/-! ### What a search ends with -/

/-- A search is on its way to a closure: completing any closure of the goals so far gives that
one. -/
def Heads (s : Scene) (d : Closure) (m : Search) : Prop :=
  ∃ seeds, Underway s seeds (m.pending s) m.found ∧
    ∀ c, Underway s seeds [] c → c.complete s (s.statementCount + 1) = d

theorem Heads.step {d : Closure} {m next : Search} (heads : m.Heads s d) (step : Step s m next) :
    next.Heads s d := by
  obtain ⟨seeds, underway, completes⟩ := heads
  cases step with
  | pass held =>
    refine ⟨seeds, underway.drop (subset_cons_self _ _) ?_, completes⟩
    simp only [pending, cons_append, mem_cons, forall_eq_or_imp]
    exact ⟨Or.inl held, fun g later => Or.inr later⟩
  | call fresh =>
    refine ⟨seeds, ?_, completes⟩
    simp only [pending, append_assoc]
    exact underway.step
  | @visit t rest waiting c fresh =>
    have same : ∀ g, g ∈ (s.follow (.statement t)).goals ++ pending s ⟨rest, waiting, c⟩ ↔
        g ∈ pending s ⟨rest, t :: waiting, c⟩ := by
      intro g
      simp only [pending, flatMap_cons, mem_append]
      exact or_left_comm
    exact ⟨seeds, underway.step.drop (fun g => (same g).mpr) fun g member => Or.inr
      ((same g).mp member), completes⟩
  | turn => exact ⟨seeds, underway, completes⟩
  | @join c more =>
    have own : Underway s seeds [] c := underway
    refine ⟨seeds ++ (c.joining s).flatMap (s.need none), ?_, ?_⟩
    · simp only [pending, flatMap_nil, append_nil]
      exact own.extend _
    · intro next joined
      have same : next = c.require s none (c.joining s) :=
        joined.unique (Closure.underway_join sound own _) fun _ => Iff.rfl
      have enough : c.absent s < s.statementCount + 1 := Nat.lt_succ_of_le Closure.absent_le
      calc next.complete s (s.statementCount + 1)
        _ = c.complete s (s.statementCount + 1 + 1) := by rw [Closure.complete_succ (c := c),
          if_neg more, same]
        _ = c.complete s (s.statementCount + 1) := Closure.complete_eq sound own (by omega) enough
        _ = d := completes c own

/-- A search is on its way to what the rounds find. -/
theorem heads_start {e : Execution} (member : e ∈ s.log.executions)
    (seeds : List Flow.StatementFacts) : (start s e seeds).Heads s (closureOf s e seeds) := by
  refine ⟨(start s e seeds).asked, ?_, ?_⟩
  · simp only [pending, start, flatMap_nil, append_nil]
    exact underway_empty s _
  · intro c underway
    have points : ∀ p ∈ some (Scene.exitSite e), s.log.Point p := by
      simpa using Log.point_exitSite member
    rw [underway.unique (Scene.underway_require sound points _ (underway_empty s []))
      fun _ => Iff.rfl]
    rfl

omit sound in
/-- A search that cannot go on has found the closure it was on its way to. -/
theorem Heads.eq_of_stuck {d : Closure} {m : Search} (heads : m.Heads s d)
    (stuck : ∀ next, ¬ Step s m next) : m = ⟨[], [], d⟩ := by
  obtain ⟨asked, waiting, c⟩ := m
  cases asked with
  | cons g rest =>
    cases held : c.has g with
    | true => exact absurd (.pass held) (stuck _)
    | false =>
      cases g with
      | statement t => exact absurd (.visit held) (stuck _)
      | call k => exact absurd (.call held) (stuck _)
  | nil =>
    cases waiting with
    | cons t others => exact absurd .turn (stuck _)
    | nil =>
      have done : c.joining s = [] := by
        by_contra more
        exact stuck _ (.join more)
      obtain ⟨seeds, underway, completes⟩ := heads
      have same := completes c underway
      rw [Closure.complete_succ, if_pos done] at same
      rw [same]

end Sound

end Search

end Slice

/-- Slicing ends. The search for what the statements of an execution need makes finitely many steps
in whichever log, with whichever lines and however calls are followed, and where it stops it has
found what the slice is made of. -/
theorem Log.slicing_ends {l : Log} (reachable : l.Reachable) {e : Execution}
    (member : e ∈ l.executions) (atCall : Bool) (lines : Option (List Int)) :
      (∃ slice, l.slice atCall e lines = .ok slice) ∧ ∀ r, e.facts? = some r →
        let s : Slice.Scene := ⟨l, atCall⟩
        let seeds := (lines.map r.onLines).getD r.statements.toList
        let start := Slice.Search.start s e seeds
        start.Ends s ∧ ∀ m, Relation.ReflTransGen (Slice.Search.Step s) start m →
          (∀ next, ¬ Slice.Search.Step s m next) → m = ⟨[], [], Slice.closureOf s e seeds⟩ := by
  have sound := reachable.sound
  constructor
  · cases facts : e.facts? with
    | none => exact ⟨_, slice_unparsed sound member facts atCall lines⟩
    | some r =>
      obtain ⟨c, _, made⟩ := slice_parsed sound member facts atCall lines
      exact ⟨_, made⟩
  intro r _ s seeds start
  have inside : start.asked ⊆ s.goals := by
    intro g asked
    obtain ⟨t, _, need⟩ := mem_flatMap.mp asked
    exact Slice.Scene.need_subset sound (by simpa using point_exitSite member) t need
  refine ⟨Slice.Search.ends sound inside (by simp), ?_⟩
  intro m run
  have heads : m.Heads s (Slice.closureOf s e seeds) := by
    induction run with
    | refl => exact Slice.Search.heads_start sound member seeds
    | tail _ step ih => exact ih.step sound step
  exact heads.eq_of_stuck

/-- A session with two functions that call each other, defined by different executions. -/
def Log.entwined : Log :=
  (Log.empty ⟨∅, ∅⟩ id ⟨0, 0⟩).runAll
    [⟨"a", "def f(n):\n    return g(n)", none, []⟩, ⟨"b", "def g(n):\n    return f(n)", none, []⟩,
      ⟨"c", "f(1)", none, []⟩]

/-- The search for what a call of one of the functions needs ends, having found both. -/
theorem Log.slicing_ends_entwined :
    entwined.Reachable ∧ ∃ e ∈ entwined.executions, ∃ r, e.facts? = some r ∧
      let s : Slice.Scene := ⟨entwined, true⟩
      (Slice.Search.start s e r.statements.toList).Ends s ∧
        (Slice.closureOf s e r.statements.toList).ordinals = [1, 2, 3] := by
  have reachable : entwined.Reachable := (Reachable.start _ _ _).runAll _
  have last : ∃ e ∈ entwined.executions, e.facts?.map (fun r =>
      (Slice.closureOf ⟨entwined, true⟩ e r.statements.toList).ordinals) =
        some [1, 2, 3] := by decide +kernel
  obtain ⟨e, member, needed⟩ := last
  obtain ⟨r, facts, ordinals⟩ := Option.map_eq_some_iff.mp needed
  obtain ⟨_, ends⟩ := slicing_ends reachable member true none
  exact ⟨reachable, e, member, r, facts, (ends r facts).1, ordinals⟩

end Lineage
