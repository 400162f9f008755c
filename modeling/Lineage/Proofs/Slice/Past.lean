import Lineage.Proofs.Slice.Complete
import Lineage.Proofs.Slice.Dependence
import Lineage.Proofs.Slice.Ranges

/-!
Slices look back only. What is needed for a statement lies in its own execution or in earlier ones.
-/

namespace Lineage

open List

variable {c : Closure} {e : Execution} {g : Goal} {before bound : Int} {seeds : List Goal}
  {ts : List Timestamp} {l : Log} {site : Option Timestamp} {name : String} {p t u : Timestamp}

theorem Log.Live.ordinal_lt (live : l.Live bound name u) : u.ordinal < bound := by
  obtain ⟨e, _, own, below, _⟩ := live
  omega

namespace Slice

/-! ### Looking back -/

/-- A goal that lies in executions up to an ordinal. -/
def Goal.UpTo (bound : Int) : Goal → Prop
  | .statement t => t.ordinal ≤ bound
  | .call c => c.target.ordinal ≤ bound ∧ c.site.ordinal ≤ bound

namespace Scene

/-- All that some goals of the history up to an ordinal lead to has been followed. -/
def Followed (s : Scene) (bound : Int) (c : Closure) : Prop :=
  ∃ seeds, seeds ⊆ s.goals ∧ (∀ g ∈ seeds, g.UpTo bound) ∧ Underway s seeds [] c

theorem followed_empty (s : Scene) (bound : Int) : s.Followed bound .empty :=
  ⟨[], nil_subset _, forall_mem_nil _, underway_empty s []⟩

/-- The places of some statements of an execution in the history. -/
def stampsIn (e : Execution) (seeds : List Flow.StatementFacts) : List Timestamp :=
  seeds.map fun f => ⟨e.ordinal, f.index⟩

/-- What some statements of an execution need, before anything else joins. -/
def startOf (s : Scene) (e : Execution) (seeds : List Flow.StatementFacts) : Closure :=
  Closure.empty.require s (some (exitSite e)) (stampsIn e seeds)

theorem closureOf_eq_complete (s : Scene) (e : Execution) (seeds : List Flow.StatementFacts) :
    closureOf s e seeds = (s.startOf e seeds).complete s (s.statementCount + 1) := rfl

theorem exitSite_upTo (e : Execution) : ∀ p ∈ some (exitSite e), p.ordinal ≤ e.ordinal := by
  intro p own
  obtain rfl := Option.mem_some.mp own
  exact Int.le_refl _

theorem stampsIn_upTo (e : Execution) (seeds : List Flow.StatementFacts) :
    ∀ t ∈ stampsIn e seeds, t.ordinal ≤ e.ordinal := by
  intro t asked
  obtain ⟨f, _, rfl⟩ := mem_map.mp asked
  exact Int.le_refl _

section Back

variable {s : Scene} (sound : s.log.Sound)

include sound

theorem ordinal_of_found (member : u ∈ s.found bound name) : u.ordinal < bound := by
  cases (mem_found sound).mp member with
  | one _ live => exact live.ordinal_lt
  | known _ _ _ _ live => exact live.ordinal_lt
  | any _ below => exact below

theorem ordinal_of_resolved (member : u ∈ s.resolved p name) : u.ordinal ≤ p.ordinal := by
  simp only [resolved] at member
  split at member
  · rcases mem_append.mp member with here | before
    · obtain ⟨_, _, stamped⟩ := mem_flatMap.mp here
      exact Int.le_of_eq (mem_stampsOf.mp stamped).1
    · exact Int.le_of_lt (ordinal_of_found sound before)
  · rcases mem_append.mp member with here | before
    · exact Int.le_of_eq (mem_stampsOf.mp here).1
    · split at before
      · exact Int.le_of_lt (ordinal_of_found sound before)
      · exact absurd before not_mem_nil

theorem upTo_of_need (sites : ∀ p ∈ site, p.ordinal ≤ bound) (within : t.ordinal ≤ bound)
    (need : g ∈ s.need site t) : g.UpTo bound := by
  obtain ⟨f, held, rfl | ⟨_, rfl⟩⟩ := mem_need.mp need
  · exact within
  · obtain ⟨e, member, own, _⟩ := (statement?_eq_some sound).mp held
    have last : (exitSite e).ordinal ≤ bound := by
      rw [exitSite, own]
      exact within
    refine ⟨within, ?_⟩
    dsimp only
    rw [callSite_eq sound site member own]
    split
    · cases site with
      | none => exact last
      | some p => exact sites p rfl
    · exact last

/-- Goals lead back: to the same execution or to earlier ones. -/
theorem upTo_follow {h : Goal} (within : g.UpTo bound) (lead : h ∈ (s.follow g).goals) :
    h.UpTo bound := by
  cases g with
  | statement t =>
    have own : ∀ p ∈ some t, p.ordinal ≤ bound := by
      intro p same
      obtain rfl := Option.mem_some.mp same
      exact within
    obtain ⟨f, _, ⟨edge, _, u, source, need⟩ | ⟨name, _, u, found, need⟩⟩ :=
      mem_goals_statement.mp lead
    · obtain ⟨_, _, rfl⟩ := mem_map.mp source
      refine upTo_of_need sound ?_ (by exact within) need
      split
      · exact own
      · exact nofun
    · have := ordinal_of_found sound found
      exact upTo_of_need sound own (Int.le_of_lt (Int.lt_of_lt_of_le this within)) need
  | call c =>
    obtain ⟨f, _, name, _, u, resolved, need⟩ := mem_goals_call.mp lead
    refine upTo_of_need sound (fun p same => ?_)
      (Int.le_trans (ordinal_of_resolved sound resolved) within.2) need
    obtain rfl := Option.mem_some.mp same
    exact within.2

theorem upTo_of_reached (within : ∀ g ∈ seeds, g.UpTo bound) (reached : Reached s seeds g) :
    g.UpTo bound := by
  induction reached with
  | seed member => exact within _ member
  | follow _ lead ih => exact upTo_follow sound ih lead

theorem upTo_of_require (within : ∀ g ∈ seeds, g.UpTo bound) (sites : ∀ p ∈ site, p.ordinal ≤ bound)
    (stamps : ∀ t ∈ ts, t.ordinal ≤ bound) :
    ∀ g ∈ seeds ++ ts.flatMap (s.need site), g.UpTo bound := by
  intro g member
  rcases mem_append.mp member with before | now
  · exact within g before
  · obtain ⟨t, asked, need⟩ := mem_flatMap.mp now
    exact upTo_of_need sound sites (stamps t asked) need

section

variable (followed : s.Followed bound c)

include followed

theorem Followed.ordinal_le (member : t ∈ c.included) : t.ordinal ≤ bound := by
  obtain ⟨seeds, _, within, underway⟩ := followed
  have reached := underway.has_iff.mp (Closure.has_statement.mpr member)
  exact upTo_of_reached sound within reached

/-- What is included is a statement of the history. -/
theorem Followed.holds (member : t ∈ c.included) : ∃ f, s.log.Holds t f := by
  obtain ⟨seeds, inside, _, underway⟩ := followed
  have reached := underway.has_iff.mp (Closure.has_statement.mpr member)
  have all : ∀ {g : Goal}, Reached s seeds g → g ∈ s.goals := by
    intro g reached
    induction reached with
    | seed member => exact inside member
    | follow _ lead ih => exact follow_subset sound ih lead
  exact statement_mem_goals.mp (all reached)

theorem Followed.require (points : ∀ p ∈ site, s.log.Point p)
    (sites : ∀ p ∈ site, p.ordinal ≤ bound) (stamps : ∀ t ∈ ts, t.ordinal ≤ bound) :
    s.Followed bound (c.require s site ts) := by
  obtain ⟨seeds, inside, within, underway⟩ := followed
  refine ⟨_, append_subset.mpr ⟨inside, fun g member => ?_⟩,
    upTo_of_require sound within sites stamps, underway_require sound points ts underway⟩
  obtain ⟨t, _, need⟩ := mem_flatMap.mp member
  exact need_subset sound points t need

theorem Followed.joining_le (member : t ∈ c.joining s) : t.ordinal ≤ bound := by
  obtain ⟨e, _, own, ⟨u, included, same⟩, _⟩ :=
    (Closure.mem_missing sound).mp (Closure.mem_joining.mp member).1
  rw [← own, ← same]
  exact followed.ordinal_le sound included

theorem Followed.join : s.Followed bound (c.require s none (c.joining s)) :=
  followed.require sound (by simp) (by simp) fun _ => followed.joining_le sound

end

theorem followed_start (member : e ∈ s.log.executions) (seeds : List Flow.StatementFacts) :
    s.Followed e.ordinal (startOf s e seeds) := by
  refine (followed_empty s e.ordinal).require sound (fun p own => ?_) (exitSite_upTo e)
    (stampsIn_upTo e seeds)
  obtain rfl := Option.mem_some.mp own
  exact Log.point_exitSite member

/-- The closure of an execution reaches back from it. -/
theorem followed_closureOf (member : e ∈ s.log.executions) (seeds : List Flow.StatementFacts) :
    s.Followed e.ordinal (closureOf s e seeds) :=
  Closure.complete_induction (followed_start sound member seeds)
    (fun _ followed => followed.join sound) _

end Back

end Scene

end Slice

namespace Log

theorem contains_of_mem (sound : l.Sound) (member : e ∈ l.executions) : l.contains e = true := by
  simp [contains, sound.at?_ordinal member, Execution.same]

theorem slice_unparsed (sound : l.Sound) (member : e ∈ l.executions) (facts : e.facts? = none)
    (atCall : Bool) (lines : Option (List Int)) : l.slice atCall e lines = .ok (.whole e) := by
  rw [slice, contains_of_mem sound member, if_pos rfl, facts]

theorem slice_parsed (sound : l.Sound) (member : e ∈ l.executions) {r : Flow.Result}
    (facts : e.facts? = some r) (atCall : Bool) (lines : Option (List Int)) :
    ∃ c, c = Slice.closureOf ⟨l, atCall⟩ e ((lines.map r.onLines).getD r.statements.toList) ∧
      l.slice atCall e lines = .ok ⟨e, Slice.partsOf (Slice.rangesOf ⟨l, atCall⟩ c),
        c.unresolved⟩ := by
  refine ⟨_, rfl, ?_⟩
  rw [slice, contains_of_mem sound member, if_pos rfl, facts]

/-- The parts of a slice are executions up to its target. -/
theorem slice_ordinals_le (sound : l.Sound) (member : e ∈ l.executions) {atCall : Bool}
    {lines : Option (List Int)} {slice : Slice} (made : l.slice atCall e lines = .ok slice) :
    ∀ k ∈ slice.ordinals, k ≤ e.ordinal := by
  intro k listed
  obtain ⟨part, among, rfl⟩ := mem_map.mp listed
  cases facts : e.facts? with
  | none =>
    rw [slice_unparsed sound member facts] at made
    obtain rfl := Except.ok.inj made
    obtain rfl := mem_singleton.mp among
    exact Int.le_refl _
  | some r =>
    let s : Slice.Scene := ⟨l, atCall⟩
    obtain ⟨c, closure, parsed⟩ := slice_parsed sound member facts atCall lines
    rw [parsed] at made
    obtain rfl := Except.ok.inj made
    have followed : s.Followed e.ordinal c :=
      closure ▸ Slice.Scene.followed_closureOf (s := s) sound member _
    obtain ⟨_, ⟨t, included, own⟩, _⟩ := Slice.mem_parts (s := s) sound among
    rw [← own]
    exact followed.ordinal_le sound included

end Log

end Lineage
