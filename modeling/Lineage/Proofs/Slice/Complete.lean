import Lineage.Slice.Completion
import Lineage.Proofs.Slice.Live

/-!
Letting statements join a closure until none is missing. Each round includes a statement of the
history that was not included before, so there are rounds enough, and more of them change nothing.
What is missing from the result is nothing.
-/

namespace Lineage.Slice

open List Std

variable {r : Flow.Result} {k : Int} {seeds : List Goal} {t : Timestamp}

/-! ### What is missing -/

theorem exists_of_indicesAt {nodes : List Node} (member : k ∈ indicesAt r nodes) :
    ∃ f ∈ r.statements, (f.index : Int) = k := by
  obtain ⟨n, _, found⟩ := mem_filterMap.mp member
  obtain ⟨f, held, rfl⟩ := Option.map_eq_some_iff.mp found
  have among := mem_reverse.mp (mem_of_find?_eq_some held)
  exact ⟨f, Array.mem_toList_iff.mp among, rfl⟩

theorem exists_of_missingFrom {needed : List Int} {block : List Node}
    (found : missingFrom r needed block = some k) : ∃ f ∈ r.statements, (f.index : Int) = k := by
  simp only [missingFrom] at found
  split at found
  · exact nomatch found
  · exact exists_of_indicesAt (mem_of_head? found)

/-- Only statements of the execution are missing from it. -/
theorem exists_of_missingIn {needed : List Int} (member : k ∈ missingIn r needed) :
    ∃ f ∈ r.statements, (f.index : Int) = k := by
  simp only [missingIn, mem_append, mem_flatMap, mem_map] at member
  rcases member with ⟨f, _, brought⟩ | ⟨f, among, rfl⟩
  · rcases mem_append.mp brought with inBlock | jump
    · obtain ⟨block, _, found⟩ := mem_filterMap.mp inBlock
      exact exists_of_missingFrom found
    · exact exists_of_indicesAt (mem_filter.mp jump).1
  · have listed := (mem_filter.mp (mem_filter.mp among).1).1
    exact ⟨f, Array.mem_toList_iff.mp listed, rfl⟩

namespace Closure

variable {s : Scene} {c : Closure}

theorem mem_ordinals : k ∈ c.ordinals ↔ ∃ t ∈ c.included, t.ordinal = k := by
  simp [ordinals, ExtTreeSet.mem_ofList]

theorem mem_indicesOf {ordinal : Int} : k ∈ c.indicesOf ordinal ↔ ⟨ordinal, k⟩ ∈ c.included := by
  simp only [indicesOf, mem_map, mem_filter, ExtTreeSet.mem_toList, beq_iff_eq]
  constructor
  · rintro ⟨⟨_, _⟩, ⟨member, rfl⟩, rfl⟩
    exact member
  · exact fun member => ⟨_, ⟨member, rfl⟩, rfl⟩

/-- The indices of the needed statements of an execution are in order. -/
theorem increasing_indicesOf (c : Closure) (ordinal : Int) :
    (c.indicesOf ordinal).Pairwise (· < ·) := by
  unfold indicesOf
  rw [pairwise_map]
  refine (ExtTreeSet.ordered_toList.filter _).imp_of_mem fun {t u} first second less => ?_
  have own := (beq_iff_eq.mp (mem_filter.mp first).2).trans
    (beq_iff_eq.mp (mem_filter.mp second).2).symm
  rw [Timestamp.compare_eq, own, Std.ReflOrd.compare_self] at less
  exact Int.compare_eq_lt.mp less

/-- The statements that are to join in a round. -/
def joining (s : Scene) (c : Closure) : List Timestamp :=
  (c.missing s).filter fun t => !c.included.contains t

theorem not_contains : (!c.included.contains t) = true ↔ t ∉ c.included := by
  rw [Bool.not_eq_true', ← Bool.not_eq_true, ExtTreeSet.contains_iff_mem]

theorem mem_joining : t ∈ c.joining s ↔ t ∈ c.missing s ∧ t ∉ c.included := by
  rw [joining, mem_filter, not_contains]

theorem complete_succ (rounds : Nat) : c.complete s (rounds + 1) =
    if c.joining s = [] then c else (c.require s none (c.joining s)).complete s rounds := by
  rw [complete, ← joining]
  cases c.joining s with
  | nil => rfl
  | cons t rest => rw [if_neg (cons_ne_nil t rest)]

/-- What holds of a closure and is kept when the missing statements join holds at the end. -/
theorem complete_induction {motive : Closure → Prop} (start : motive c)
    (round : ∀ c, motive c → motive (c.require s none (c.joining s))) (rounds : Nat) :
    motive (c.complete s rounds) := by
  induction rounds generalizing c with
  | zero => exact start
  | succ rounds ih =>
    rw [complete_succ]
    split
    · exact start
    · exact ih (round c start)

/-- The number of statements that are not included. -/
def absent (s : Scene) (c : Closure) : Nat :=
  s.stamps.countP fun t => !c.included.contains t

theorem absent_le : c.absent s ≤ s.statementCount := by
  rw [← Scene.length_stamps]
  exact countP_le_length

theorem has_statement : c.has (.statement t) = true ↔ t ∈ c.included :=
  ExtTreeSet.contains_iff_mem

section Sound

variable (sound : s.log.Sound)

include sound

theorem mem_missing : t ∈ c.missing s ↔ ∃ e ∈ s.log.executions, e.ordinal = t.ordinal ∧
    (∃ u ∈ c.included, u.ordinal = e.ordinal) ∧
      ∃ r, e.facts? = some r ∧ t.index ∈ missingIn r (c.indicesOf e.ordinal) := by
  simp only [missing, mem_flatMap, mem_ordinals]
  constructor
  · rintro ⟨k, included, member⟩
    cases found : (s.log.at? k).bind Execution.facts? with
    | none => simp [found] at member
    | some r =>
      simp only [found, mem_map] at member
      obtain ⟨e, held, facts⟩ := Option.bind_eq_some_iff.mp found
      obtain ⟨among, rfl⟩ := sound.at?_eq_some.mp held
      obtain ⟨index, lacking, rfl⟩ := member
      exact ⟨e, among, rfl, included, r, facts, lacking⟩
  · rintro ⟨e, among, own, included, r, facts, lacking⟩
    refine ⟨e.ordinal, included, ?_⟩
    rw [sound.at?_ordinal among, Option.bind_some, facts]
    refine mem_map.mpr ⟨t.index, lacking, ?_⟩
    rw [own]

theorem holds_of_missing (member : t ∈ c.missing s) : ∃ f, s.log.Holds t f := by
  obtain ⟨e, among, own, _, r, facts, lacking⟩ := (mem_missing sound).mp member
  obtain ⟨f, inside, index⟩ := exists_of_missingIn lacking
  have holds := sound.holds_of_mem among ((Execution.mem_statements facts).mpr inside)
  rw [own, index] at holds
  exact ⟨f, holds⟩

/-! ### Rounds -/

section

variable (underway : Underway s seeds [] c)

include underway

theorem underway_join (ts : List Timestamp) :
    Underway s (seeds ++ ts.flatMap (s.need none)) [] (c.require s none ts) :=
  Scene.underway_require sound (by simp) ts underway

/-- A statement that is required is included. -/
theorem mem_included_require {ts : List Timestamp} (member : t ∈ ts)
    {f : Flow.StatementFacts} (holds : s.log.Holds t f) : t ∈ (c.require s none ts).included := by
  rw [← has_statement, (underway_join sound underway ts).has_iff]
  refine .seed (mem_append_right _ (mem_flatMap.mpr ⟨t, member, ?_⟩))
  exact Scene.mem_need.mpr ⟨f, (Scene.statement?_eq_some sound).mpr holds, Or.inl rfl⟩

/-- What is included stays so. -/
theorem included_subset_require (ts : List Timestamp) (member : t ∈ c.included) :
    t ∈ (c.require s none ts).included := by
  rw [← has_statement, (underway_join sound underway ts).has_iff]
  exact (underway.has_iff.mp (has_statement.mpr member)).mono (subset_append_left _ _)

/-- A round that is not the last one leaves fewer statements absent. -/
theorem absent_require_lt (more : c.joining s ≠ []) :
    (c.require s none (c.joining s)).absent s < c.absent s := by
  obtain ⟨t, member⟩ := exists_mem_of_ne_nil _ more
  obtain ⟨missing, fresh⟩ := mem_joining.mp member
  obtain ⟨f, holds⟩ := holds_of_missing sound missing
  refine Flow.State.countP_lt_countP (fun u _ away => ?_) (Scene.mem_stamps.mpr ⟨f, holds⟩) ?_ ?_
  · -- What is absent now was absent before.
    rw [not_contains] at away ⊢
    exact fun before => away (included_subset_require sound underway _ before)
  · rw [Bool.not_eq_false', ExtTreeSet.contains_iff_mem]
    exact mem_included_require sound underway member holds
  · exact not_contains.mpr fresh

/-- With more rounds than absent statements the closure gets all that is missing, and all is
followed. -/
theorem underway_complete {rounds : Nat} (enough : c.absent s < rounds) :
    ∃ more : List Timestamp,
      Underway s (seeds ++ more.flatMap (s.need none)) [] (c.complete s rounds) ∧
        (c.complete s rounds).joining s = [] := by
  induction rounds generalizing c seeds with
  | zero => exact absurd enough (Nat.not_lt_zero _)
  | succ rounds ih =>
    rw [complete_succ]
    by_cases done : c.joining s = []
    · rw [if_pos done]
      refine ⟨[], ?_, done⟩
      rw [flatMap_nil, append_nil]
      exact underway
    · rw [if_neg done]
      have less := absent_require_lt sound underway done
      obtain ⟨more, finished, settled⟩ := ih (underway_join sound underway (c.joining s)) (by omega)
      refine ⟨c.joining s ++ more, ?_, settled⟩
      rw [flatMap_append, ← append_assoc]
      exact finished

/-- How many rounds there are does not matter as long as they are enough. -/
theorem complete_eq {n m : Nat} (first : c.absent s < n) (second : c.absent s < m) :
    c.complete s n = c.complete s m := by
  induction n generalizing c seeds m with
  | zero => exact absurd first (Nat.not_lt_zero _)
  | succ n ih =>
    obtain ⟨m, rfl⟩ := Nat.exists_eq_add_one_of_ne_zero (Nat.ne_of_gt (Nat.zero_lt_of_lt second))
    rw [complete_succ, complete_succ]
    by_cases done : c.joining s = []
    · rw [if_pos done, if_pos done]
    · have less := absent_require_lt sound underway done
      rw [if_neg done, if_neg done]
      exact ih (underway_join sound underway (c.joining s)) (by omega) (by omega)

end

end Sound

end Closure

end Lineage.Slice
