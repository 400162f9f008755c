import Lineage.Flow.Step
import Lineage.Proofs.Flow.Order
import Mathlib.Data.List.Forall2

/-!
Joins of states. States are ordered by what reaches each name, where a name that a state does not
hold is reached by what was there before. A join is the least state above some states, and which
names it holds does not depend on how it is put together; so however states are grouped, the join is
the same.
-/

namespace Lineage.Flow.State

open List

theorem Below.antisymm {a b : State} (first : a.Below b) (second : b.Below a) (name : String) :
    a.reaching name = b.reaching name := by
  ext origin
  exact ⟨first name origin, second name origin⟩

/-- What reaches a name in the join of at least one state is what reaches it in one of them. -/
theorem mem_reaching_join_iff {states : List State} (some : states ≠ []) {name : String}
    {origin : Origin} : origin ∈ (join states).reaching name ↔
    ∃ s ∈ states, origin ∈ s.reaching name := by
  obtain ⟨s, rest, rfl⟩ := exists_cons_of_ne_nil some
  exact mem_reaching_join

/-- The join lies below every state that all of the states lie below. -/
theorem join_below {states : List State} (some : states ≠ []) {t : State}
    (above : ∀ s ∈ states, s.Below t) : (join states).Below t := by
  intro name origin reaches
  obtain ⟨s, member, reaches⟩ := (mem_reaching_join_iff some).mp reaches
  exact above s member name origin reaches

/-- A join depends only on which states it is made of. -/
theorem join_eq_of_mem {states others : List State} (some : states ≠ [])
    (same : ∀ s, s ∈ others ↔ s ∈ states) : join others = join states := by
  have someOthers : others ≠ [] := by
    obtain ⟨s, member⟩ := exists_mem_of_ne_nil states some
    exact ne_nil_of_mem ((same s).mpr member)
  refine eq_of_reaching (fun name => ?_) fun name => ?_
  · simp only [mem_join, same]
  · ext origin
    simp only [mem_reaching_join_iff some, mem_reaching_join_iff someOthers, same]

/-- A join of joins: `leaves` are the states that it is made of, in groups none of which is
empty. -/
inductive Grouped : (leaves : List State) → State → Prop where
  | single (s : State) : Grouped [s] s
  | join {groups : List (List State × State)} : groups ≠ [] → (∀ g ∈ groups, Grouped g.1 g.2) →
      Grouped (groups.flatMap Prod.fst) (State.join (groups.map Prod.snd))

theorem Grouped.ne_nil {leaves : List State} {s : State} (grouped : Grouped leaves s) :
    leaves ≠ [] := by
  induction grouped with
  | single s => exact cons_ne_nil s []
  | @join groups some _ ih =>
    obtain ⟨g, member⟩ := exists_mem_of_ne_nil groups some
    obtain ⟨leaf, own⟩ := exists_mem_of_ne_nil g.1 (ih g member)
    exact ne_nil_of_mem (mem_flatMap.mpr ⟨g, member, own⟩)

/-- Groups make no difference. -/
theorem Grouped.eq_join {leaves : List State} {s : State} (grouped : Grouped leaves s) :
    s = State.join leaves := by
  induction grouped with
  | single s => exact (join_singleton s).symm
  | @join groups some inner ih =>
    have someStates : groups.map Prod.snd ≠ [] := fun none => some (map_eq_nil_iff.mp none)
    have someLeaves := (Grouped.join some inner).ne_nil
    refine eq_of_reaching (fun name => ?_) fun name => ?_
    · simp only [mem_join, mem_map, mem_flatMap]
      constructor
      · rintro ⟨_, ⟨g, member, rfl⟩, held⟩
        rw [ih g member, mem_join] at held
        obtain ⟨leaf, own, held⟩ := held
        exact ⟨leaf, ⟨g, member, own⟩, held⟩
      · rintro ⟨leaf, ⟨g, member, own⟩, held⟩
        refine ⟨g.2, ⟨g, member, rfl⟩, ?_⟩
        rw [ih g member, mem_join]
        exact ⟨leaf, own, held⟩
    · ext origin
      simp only [mem_reaching_join_iff someStates, mem_reaching_join_iff someLeaves, mem_map,
        mem_flatMap]
      constructor
      · rintro ⟨_, ⟨g, member, rfl⟩, reaches⟩
        rw [ih g member, mem_reaching_join_iff (inner g member).ne_nil] at reaches
        obtain ⟨leaf, own, reaches⟩ := reaches
        exact ⟨leaf, ⟨g, member, own⟩, reaches⟩
      · rintro ⟨leaf, ⟨g, member, own⟩, reaches⟩
        refine ⟨g.2, ⟨g, member, rfl⟩, ?_⟩
        rw [ih g member, mem_reaching_join_iff (inner g member).ne_nil]
        exact ⟨leaf, own, reaches⟩

/-- Two states are the same if each lies below the other. -/
theorem same_iff_below {a b : State} : a.same b = true ↔ a.Below b ∧ b.Below a := by
  rw [same_iff]
  constructor
  · intro agree
    exact ⟨fun name origin => by rw [agree]; exact id, fun name origin => by rw [agree]; exact id⟩
  · rintro ⟨first, second⟩
    exact first.antisymm second

/-- Being the same is an equivalence. -/
theorem equivalence_same : Equivalence fun a b : State => a.same b = true where
  refl _ := same_iff.mpr fun _ => rfl
  symm agree := same_iff.mpr fun name => (same_iff.mp agree name).symm
  trans first second := same_iff.mpr fun name => (same_iff.mp first name).trans
    (same_iff.mp second name)

/-- Joins of states that are the same are the same. -/
theorem same_join {states others : List State}
    (agree : List.Forall₂ (fun a b => a.same b = true) states others) :
    (join states).same (join others) = true := by
  cases agree with
  | nil => exact equivalence_same.refl _
  | @cons a b states others first rest =>
    induction rest generalizing a b with
    | nil => rwa [join_singleton, join_singleton]
    | @cons c d states others next _ ih =>
      rw [join_cons (cons_ne_nil _ _), join_cons (cons_ne_nil _ _), same_iff]
      intro name
      rw [reaching_merge, reaching_merge, same_iff.mp first name, same_iff.mp (ih next) name]

/-- A join is the same as its first state if all others lie below that one. -/
theorem same_join_cons {head : State} {rest : List State} :
    (join (head :: rest)).same head = true ↔ ∀ s ∈ rest, s.Below head := by
  rw [same_iff_below]
  constructor
  · rintro ⟨below, _⟩ s member
    exact (below_join (mem_cons_of_mem head member)).trans below
  · intro below
    refine ⟨join_below (cons_ne_nil _ _) ?_, below_join (mem_cons_self ..)⟩
    exact forall_mem_cons.mpr ⟨.refl head, below⟩

end Lineage.Flow.State

namespace Lineage.Flow

open State in
/-- A join of at least one state is the least state above them; it holds the names that they hold,
and neither order nor repetition nor grouping makes a difference. Two states are the same if each
lies below the other, which is an equivalence that joins respect. So a loop is left when what comes
back to its head, from the end of its body and from every `continue`, lies below the head. -/
theorem join_least {states : List State} (some : states ≠ []) :
    (∀ s ∈ states, s.Below (join states)) ∧
      (∀ t, (∀ s ∈ states, s.Below t) → (join states).Below t) ∧
      (∀ name, name ∈ join states ↔ ∃ s ∈ states, name ∈ s) ∧
      (∀ others, (∀ s, s ∈ others ↔ s ∈ states) → join others = join states) ∧
      (∀ leaves s, (∀ leaf, leaf ∈ leaves ↔ leaf ∈ states) → Grouped leaves s → s = join states) ∧
      (∀ a b : State, a.same b = true ↔ a.Below b ∧ b.Below a) ∧
      (Equivalence fun a b : State => a.same b = true) ∧
      (∀ others, List.Forall₂ (fun a b => a.same b = true) states others →
      (join states).same (join others) = true) ∧
        (∀ head, (join (head :: states)).same head = true ↔ ∀ s ∈ states, s.Below head) ∧
          ∀ (body : Progress → Progress) (passes : Nat) (head : State) (p : Progress),
          ((∀ s ∈ (body (p.resume head)).state :: (body (p.resume head)).continues, s.Below head) →
            Progress.settle body (passes + 1) head p = (head, body (p.resume head))) ∧
        (¬ (∀ s ∈ (body (p.resume head)).state :: (body (p.resume head)).continues, s.Below head) →
          Progress.settle body (passes + 1) head p = Progress.settle body passes
            (join (head :: (body (p.resume head)).state :: (body (p.resume head)).continues))
            (body (p.resume head))) := by
  refine ⟨fun s member => below_join member, fun t above => join_below some above,
    fun name => mem_join, fun others same => join_eq_of_mem some same,
    fun leaves s same grouped => ?_, fun a b => same_iff_below, equivalence_same,
    fun others agree => same_join agree, fun head => same_join_cons,
    fun body passes head p => ⟨?_, ?_⟩⟩
  · rw [grouped.eq_join]
    exact join_eq_of_mem some same
  · intro below
    rw [Progress.settle]
    exact if_pos (same_join_cons.mpr below)
  · intro more
    rw [Progress.settle]
    exact if_neg fun rests => more (same_join_cons.mp rests)

/-- Two states that hold different names, and the one that holds none. -/
def branching : List State :=
  [({} : State).insert "x" {.statement 0}, ({} : State).insert "y" {.statement 1}, ∅]

/-- A name that one of the states does not hold may still have its value from before in the join. -/
theorem join_least_branching : branching ≠ [] ∧ (∀ s ∈ branching, s.Below (State.join branching)) ∧
    State.join (branching.reverse ++ branching) = State.join branching ∧
    "x" ∈ State.join branching := by
  have some : branching ≠ [] := by simp [branching]
  obtain ⟨below, _, names, same, _⟩ := join_least some
  refine ⟨some, below, same _ fun s => ?_, (names "x").mpr ⟨_, List.mem_cons_self .., ?_⟩⟩
  · rw [List.mem_append, List.mem_reverse, or_self]
  · rw [Std.ExtTreeMap.mem_insert]
    exact Or.inl rfl

end Lineage.Flow
