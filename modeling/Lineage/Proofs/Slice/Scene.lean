import Lineage.Proofs.Log.History
import Lineage.Proofs.Slice.Follow

/-!
What goals lead to. Each lead is the need of a statement: one that an edge comes from, one that was
found in earlier executions, or one that reaches the point of a call. All goals of a history are
known beforehand, so there are rounds enough to follow them.
-/

namespace Lineage

open List Flow

variable {e : Execution} {f : StatementFacts} {g : Goal} {l : Log} {site : Option Timestamp}
  {t : Timestamp}

/-- A statement of a history and its facts. -/
def Log.Holds (l : Log) (t : Timestamp) (f : StatementFacts) : Prop :=
  ∃ e ∈ l.executions, e.ordinal = t.ordinal ∧ ∃ k : Nat, t.index = k ∧ e.statements[k]? = some f

/-- A point of a history: in front of a statement, or at the end of an execution. -/
def Log.Point (l : Log) (p : Timestamp) : Prop :=
  ∃ e ∈ l.executions, e.ordinal = p.ordinal ∧ ∃ k : Nat, p.index = k ∧ k ≤ e.statements.length

theorem Log.Holds.point (holds : l.Holds t f) : l.Point t := by
  obtain ⟨e, member, own, k, index, found⟩ := holds
  exact ⟨e, member, own, k, index, Nat.le_of_lt (List.getElem?_eq_some_iff.mp found).1⟩

theorem Log.point_exitSite (member : e ∈ l.executions) : l.Point (Slice.Scene.exitSite e) :=
  ⟨e, member, rfl, e.statements.length, rfl, Nat.le_refl _⟩

/-- The statements of an execution are statements of the history. -/
theorem Log.Sound.holds_of_mem (sound : l.Sound) (member : e ∈ l.executions)
    (listed : f ∈ e.statements) : l.Holds ⟨e.ordinal, f.index⟩ f := by
  obtain ⟨k, found⟩ := mem_iff_getElem?.mp listed
  exact ⟨e, member, rfl, k, by rw [sound.index_eq member found], found⟩

theorem Log.Sound.mem_of_holds (sound : l.Sound) (member : e ∈ l.executions) (holds : l.Holds t f)
    (same : t.ordinal = e.ordinal) : f ∈ e.statements ∧ t = ⟨e.ordinal, f.index⟩ := by
  obtain ⟨other, among, own, k, index, found⟩ := holds
  obtain rfl := sound.eq_of_ordinal among member (own.trans same)
  refine ⟨mem_of_getElem? found, ?_⟩
  rw [sound.index_eq member found, own, ← index]

namespace Slice.Scene

variable {s : Scene}

/-! ### Statements and needs -/

theorem statement?_eq_some (sound : s.log.Sound) : s.statement? t = some f ↔ s.log.Holds t f := by
  unfold statement?
  simp only [Option.bind_eq_some_iff, sound.at?_eq_some]
  constructor
  · rintro ⟨e, ⟨member, own⟩, found⟩
    split at found
    · rename_i positive
      exact ⟨e, member, own, t.index.toNat, (Int.toNat_of_nonneg positive).symm, found⟩
    · exact nomatch found
  · rintro ⟨e, member, own, k, index, found⟩
    refine ⟨e, ⟨member, own⟩, ?_⟩
    rw [index, if_pos (Int.natCast_nonneg k), Int.toNat_natCast]
    exact found

/-- The point at which the body of a needed function or class is taken to run. -/
def callSite (s : Scene) (site : Option Timestamp) (t : Timestamp) : Timestamp :=
  let own := ((s.log.at? t.ordinal).map exitSite).getD t
  if s.atCall then site.getD own else own

/-- What needing a statement comes to: the statement itself, and a call of it if its body reads
names. -/
theorem mem_need :
    g ∈ s.need site t ↔ ∃ f, s.statement? t = some f ∧
      (g = .statement t ∨ (f.free.isEmpty = false ∧ g = .call ⟨t, s.callSite site t⟩)) := by
  unfold need callSite
  cases s.statement? t with
  | none => simp
  | some f =>
    simp only [Option.some.injEq, exists_eq_left']
    cases f.free.isEmpty with
    | true => simp
    | false => simp [or_comm]

/-! ### Where leads come from -/

/-- The statements that are found when a name, or all of them, is looked up in the executions before
an ordinal. -/
def found (s : Scene) (bound : Int) (name : String) : List Timestamp :=
  if name = Flow.allNames then
    ((s.log.namesBefore bound).flatMap fun other => s.definersBack other
      (s.log.definersBefore other bound)) ++ (s.log.definersBefore Flow.allNames bound).flatMap
      s.anyDefiners
  else s.definersBack name (s.log.definersBefore name bound)

/-- The statements that a name may come from when it is read at some point. -/
def resolved (s : Scene) (site : Timestamp) (name : String) : List Timestamp :=
  let state := s.stateAt site
  if name = Flow.allNames then
    (state.toList.flatMap fun (_, origins) => stampsOf site.ordinal origins) ++
      s.found site.ordinal name
  else
    let origins := StatementFacts.origins state name
    stampsOf site.ordinal origins ++
      if origins.contains .entry then s.found site.ordinal name else []

/-- The statements that an edge comes from: at most one. -/
def sources (s : Scene) (t : Timestamp) (edge : Edge) : List Timestamp :=
  ((s.log.at? t.ordinal).bind fun e => e.facts?.bind fun r => r.at? edge.source).toList.map
    fun source => ⟨t.ordinal, source.index⟩

theorem goals_append (a b : Leads) : (a ++ b).goals = a.goals ++ b.goals := rfl

theorem unresolved_append (a b : Leads) : (a ++ b).unresolved = a.unresolved ++ b.unresolved := rfl

theorem goals_lookUp (bound : Int) (site : Timestamp) (name : String) :
    (s.lookUp bound site name).goals = (s.found bound name).flatMap (s.need (some site)) := by
  unfold lookUp found
  split
  · rw [goals_append, flatMap_append]
    exact congrArg (· ++ _) flatMap_assoc.symm
  · rfl

theorem goals_resolve (site : Timestamp) (name : String) :
    (s.resolve site name).goals = (s.resolved site name).flatMap (s.need (some site)) := by
  unfold resolve resolved
  dsimp only
  split
  · rw [goals_append, goals_lookUp, flatMap_append]
  · split
    · rw [goals_append, goals_lookUp, flatMap_append]
    · rw [append_nil]

theorem followEdge_eq (t : Timestamp) (edge : Edge) :
    s.followEdge t edge = (s.sources t edge).flatMap
    (s.need (if edge.kind = .data then some t else none)) := by
  unfold followEdge sources
  cases (s.log.at? t.ordinal).bind fun e => e.facts?.bind fun r => r.at? edge.source with
  | none => rfl
  | some source => simp

theorem mem_goals_statement : g ∈ (s.follow (.statement t)).goals ↔
    ∃ f, s.statement? t = some f ∧
      ((∃ edge ∈ f.inbound, ∃ u ∈ s.sources t edge, g ∈ s.need (if edge.kind = .data then some t
        else none) u) ∨ ∃ name ∈ f.external, ∃ u ∈ s.found t.ordinal name, g ∈ s.need
        (some t) u) := by
  rw [follow]
  cases s.statement? t with
  | none => simp [Leads.none]
  | some f =>
    dsimp only
    rw [goals_append]
    simp only [Leads.all, mem_append, mem_flatMap, followEdge_eq, goals_lookUp,
      Std.ExtTreeSet.mem_toList, Option.some.injEq, exists_eq_left']

theorem mem_goals_call {c : Call} : g ∈ (s.follow (.call c)).goals ↔
    ∃ f, s.statement? c.target = some f ∧
      ∃ name ∈ f.free, ∃ u ∈ s.resolved c.site name, g ∈ s.need (some c.site) u := by
  rw [follow]
  cases s.statement? c.target with
  | none => simp [Leads.none]
  | some f =>
    simp only [Leads.all, mem_flatMap, goals_resolve, Std.ExtTreeSet.mem_toList, Option.some.injEq,
      exists_eq_left']

/-! ### All goals of a history -/

/-- The statements of the history. -/
def stamps (s : Scene) : List Timestamp :=
  s.log.executions.flatMap fun e => (List.range e.statements.length).map
    fun k : Nat => ⟨e.ordinal, k⟩

/-- The points of the history. -/
def points (s : Scene) : List Timestamp :=
  s.log.executions.flatMap fun e => (List.range (e.statements.length + 1)).map
    fun k : Nat => ⟨e.ordinal, k⟩

/-- Every statement, and every statement at every point. -/
def goals (s : Scene) : List Goal :=
  s.stamps.map .statement ++ s.stamps.flatMap fun t => s.points.map fun p => .call ⟨t, p⟩

theorem length_stamps : s.stamps.length = s.statementCount := by
  simp [stamps, statementCount, length_flatMap]

theorem length_points : s.points.length = s.statementCount + s.log.size := by
  simp only [points, statementCount, Log.size, length_flatMap, length_map, length_range]
  induction s.log.executions with
  | nil => rfl
  | cons e rest ih =>
    simp only [map_cons, sum_cons, length_cons, ih]
    omega

theorem length_goals : s.goals.length = s.goalLimit := by
  have calls : ∀ ts : List Timestamp, (ts.flatMap fun t => s.points.map fun p => Goal.call
      ⟨t, p⟩).length = ts.length * s.points.length := by
    intro ts
    induction ts with
    | nil => simp
    | cons t rest ih =>
      rw [flatMap_cons, length_append, ih, length_map, length_cons, Nat.succ_mul, Nat.add_comm]
  rw [goals, length_append, length_map, calls, length_stamps, length_points, goalLimit]

theorem mem_stamps : t ∈ s.stamps ↔ ∃ f, s.log.Holds t f := by
  simp only [stamps, mem_flatMap, mem_map, mem_range, Log.Holds]
  constructor
  · rintro ⟨e, member, k, inside, rfl⟩
    exact ⟨_, e, member, rfl, k, rfl, getElem?_eq_getElem inside⟩
  · rintro ⟨f, e, member, own, k, index, found⟩
    refine ⟨e, member, k, (List.getElem?_eq_some_iff.mp found).1, ?_⟩
    rw [own, ← index]

theorem mem_points {p : Timestamp} : p ∈ s.points ↔ s.log.Point p := by
  simp only [points, mem_flatMap, mem_map, mem_range, Log.Point]
  constructor
  · rintro ⟨e, member, k, inside, rfl⟩
    exact ⟨e, member, rfl, k, rfl, Nat.le_of_lt_succ inside⟩
  · rintro ⟨e, member, own, k, index, inside⟩
    refine ⟨e, member, k, Nat.lt_succ_of_le inside, ?_⟩
    rw [own, ← index]

@[simp] theorem statement_mem_goals : .statement t ∈ s.goals ↔ ∃ f, s.log.Holds t f := by
  simp [goals, mem_stamps]

@[simp] theorem call_mem_goals {c : Call} :
    .call c ∈ s.goals ↔ (∃ f, s.log.Holds c.target f) ∧ s.log.Point c.site := by
  obtain ⟨t, p⟩ := c
  simp [goals, mem_stamps, mem_points]

section Closed

variable (sound : s.log.Sound)

include sound

theorem callSite_eq (site : Option Timestamp) (member : e ∈ s.log.executions)
    (own : e.ordinal = t.ordinal) : s.callSite site t = if s.atCall then site.getD (exitSite e)
    else exitSite e := by
  rw [callSite, ← own, sound.at?_ordinal member]
  rfl

theorem callSite_point (points : ∀ p ∈ site, s.log.Point p) (holds : s.log.Holds t f) :
    s.log.Point (s.callSite site t) := by
  obtain ⟨e, member, own, _⟩ := holds
  rw [callSite_eq sound site member own]
  split
  · cases site with
    | none => exact Log.point_exitSite member
    | some p => exact points p rfl
  · exact Log.point_exitSite member

theorem need_subset (points : ∀ p ∈ site, s.log.Point p) (t : Timestamp) :
    s.need site t ⊆ s.goals := by
  intro g member
  obtain ⟨f, held, rfl | ⟨_, rfl⟩⟩ := mem_need.mp member
  · exact statement_mem_goals.mpr ⟨f, (statement?_eq_some sound).mp held⟩
  · have holds := (statement?_eq_some sound).mp held
    exact call_mem_goals.mpr ⟨⟨f, holds⟩, callSite_point sound points holds⟩

/-- Goals lead to goals of the same history. -/
theorem follow_subset (member : g ∈ s.goals) : (s.follow g).goals ⊆ s.goals := by
  intro h lead
  cases g with
  | statement t =>
    obtain ⟨f, held⟩ := statement_mem_goals.mp member
    have own : ∀ p ∈ some t, s.log.Point p := by
      intro p same
      obtain rfl := Option.mem_some.mp same
      exact held.point
    obtain ⟨_, _, ⟨edge, _, u, _, need⟩ | ⟨name, _, u, _, need⟩⟩ := mem_goals_statement.mp lead
    · refine need_subset sound ?_ u need
      split
      · exact own
      · exact nofun
    · exact need_subset sound own u need
  | call c =>
    obtain ⟨_, point⟩ := call_mem_goals.mp member
    obtain ⟨_, _, name, _, u, _, need⟩ := mem_goals_call.mp lead
    refine need_subset sound ?_ u need
    intro p same
    obtain rfl := Option.mem_some.mp same
    exact point

/-- There are rounds enough to follow all goals. -/
theorem finish_follow {seeds pending : List Goal} {c : Closure}
    (underway : Underway s seeds pending c) (inside : pending ⊆ s.goals) :
    Underway s seeds [] (Closure.follow s s.goalLimit pending c) := by
  refine underway.finish (fun g member => follow_subset sound member) inside ?_
  rw [← length_goals]
  exact countP_le_length

/-- Statements are required together with all that following their needs brings up. -/
theorem underway_require (points : ∀ p ∈ site, s.log.Point p) (ts : List Timestamp)
    {seeds : List Goal} {c : Closure} (underway : Underway s seeds [] c) :
    Underway s (seeds ++ ts.flatMap (s.need site)) [] (c.require s site ts) := by
  refine finish_follow sound (underway.extend _) fun g member => ?_
  obtain ⟨t, _, need⟩ := mem_flatMap.mp member
  exact need_subset sound points t need

end Closed

end Slice.Scene

end Lineage
