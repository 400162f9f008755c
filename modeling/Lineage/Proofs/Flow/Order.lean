import Lineage.Flow.Progress

/-!
States ordered by what they allow: a state lies below another if every origin that it gives a name
is also given by the other. Merging gives the least state above two others, and two states are the
same exactly when each name has the same origins in both. Everything here is said about `reaching`,
so that the form in which a state is kept does not matter later.
-/

namespace Lineage.Flow

open List Std

variable {origin : Origin} {a b s : State} {states : List State} {name : String}

@[simp] theorem Origins.mem_insert {origins : Origins} {added : Origin} :
    origin ∈ origins.insert added ↔ origin = added ∨ origin ∈ origins := by
  rw [ExtTreeSet.mem_insert, Std.LawfulEqOrd.compare_eq_iff_eq, eq_comm]

@[simp] theorem Origins.mem_singleton {added : Origin} :
    origin ∈ ({added} : Origins) ↔ origin = added := by
  rw [ExtTreeSet.singleton_eq_insert, Origins.mem_insert, or_iff_left ExtTreeSet.not_mem_empty]

namespace State

/-- Every origin that the first state gives a name is one that the second gives it. -/
def Below (a b : State) : Prop :=
  ∀ name origin, origin ∈ a.reaching name → origin ∈ b.reaching name

theorem Below.refl (a : State) : a.Below a :=
  fun _ _ h => h

theorem Below.trans {c : State} (first : a.Below b) (second : b.Below c) : a.Below c :=
  fun name origin h => second name origin (first name origin h)

theorem reaching_eq_getD (s : State) (name : String) :
    s.reaching name = (s[name]?).getD untouched := by
  unfold reaching
  exact ExtTreeMap.getD_eq_getD_getElem?

theorem reaching_of_not_mem (missing : name ∉ s) : s.reaching name = untouched := by
  unfold reaching
  exact ExtTreeMap.getD_eq_fallback missing

@[simp] theorem reaching_empty (name : String) : (∅ : State).reaching name = untouched := by
  unfold reaching
  exact ExtTreeMap.getD_empty

@[simp] theorem mem_untouched : origin ∈ untouched ↔ origin = .entry := by
  unfold untouched
  exact Origins.mem_singleton

theorem reaching_insert (s : State) (name other : String) (origins : Origins) :
    State.reaching (s.insert name origins) other = if name = other then origins
    else s.reaching other := by
  unfold reaching
  rw [ExtTreeMap.getD_insert]
  simp only [Std.LawfulEqOrd.compare_eq_iff_eq]

/-- Once a name is put into a state, putting in further names leaves it as it is. -/
theorem reaching_foldl_insert (origins : String → Origins) (names : List String) (joined : State)
    (name : String) : reaching (names.foldl (fun joined name => joined.insert name (origins name))
      joined) name = if name ∈ names then origins name else joined.reaching name := by
  induction names generalizing joined with
  | nil => simp
  | cons first rest ih =>
    rw [foldl_cons, ih]
    by_cases later : name ∈ rest
    · simp [later]
    · rw [if_neg later, reaching_insert]
      by_cases same : first = name
      · simp [same]
      · have other : name ∉ first :: rest := by
          simp [later, Ne.symm same]
        rw [if_neg same, if_neg other]

theorem mem_foldl_insert (origins : String → Origins) (names : List String) (joined : State)
    (name : String) : name ∈ names.foldl (fun joined name => joined.insert name (origins name))
      joined ↔ name ∈ names ∨ name ∈ joined := by
  induction names generalizing joined with
  | nil => simp
  | cons first rest ih =>
    rw [foldl_cons, ih, ExtTreeMap.mem_insert, Std.LawfulEqOrd.compare_eq_iff_eq, mem_cons]
    grind

theorem mem_reachingAny : origin ∈ reachingAny states name ↔
    ∃ s ∈ states, origin ∈ s.reaching name := by
  have each : ∀ origins : Origins, origin ∈ states.foldl
      (fun origins s => origins ∪ s.reaching name) origins ↔ origin ∈ origins ∨
      ∃ s ∈ states, origin ∈ s.reaching name := by
    induction states with
    | nil => simp
    | cons s rest ih =>
      intro origins
      rw [foldl_cons, ih, ExtTreeSet.mem_union_iff]
      simp only [mem_cons, exists_eq_or_imp, or_assoc]
  exact (each ∅).trans (or_iff_right ExtTreeSet.not_mem_empty)

theorem mem_flatMap_keys : name ∈ (states.flatMap fun s => s.keys) ↔ ∃ s ∈ states, name ∈ s := by
  simp only [mem_flatMap, ExtTreeMap.mem_keys]

/-- A join holds the names that one of the states holds. -/
theorem mem_join : name ∈ join states ↔ ∃ s ∈ states, name ∈ s := by
  unfold join
  rw [mem_foldl_insert, mem_flatMap_keys]
  exact or_iff_left ExtTreeMap.not_mem_empty

/-- What reaches a name in the join of some states is what reaches it in one of them. -/
theorem mem_reaching_join {rest : List State} :
    origin ∈ (join (s :: rest)).reaching name ↔ ∃ t ∈ s :: rest, origin ∈ t.reaching name := by
  unfold join
  rw [reaching_foldl_insert]
  split
  · exact mem_reachingAny
  · rename_i missing
    -- None of the states holds the name, so all of them have the same origins for it.
    have each : ∀ t ∈ s :: rest, t.reaching name = untouched := fun t member =>
      reaching_of_not_mem fun held => missing (mem_flatMap_keys.mpr ⟨t, member, held⟩)
    rw [reaching_empty]
    constructor
    · exact fun entry => ⟨s, mem_cons_self .., each s (mem_cons_self ..) ▸ entry⟩
    · rintro ⟨t, member, reaches⟩
      exact each t member ▸ reaches

/-- A merged state holds the names that one of the two holds. -/
theorem mem_merge : name ∈ a.merge b ↔ name ∈ a ∨ name ∈ b := by
  simp [merge, mem_join]

/-- What reaches a name in a merged state is what reaches it in one of the two. -/
@[simp] theorem mem_reaching_merge :
    origin ∈ (a.merge b).reaching name ↔ origin ∈ a.reaching name ∨ origin ∈ b.reaching name := by
  simp [merge, mem_reaching_join]

theorem reaching_merge (a b : State) (name : String) :
    (a.merge b).reaching name = a.reaching name ∪ b.reaching name := by
  ext origin
  rw [mem_reaching_merge, ExtTreeSet.mem_union_iff]

theorem below_merge_left (a b : State) : a.Below (a.merge b) :=
  fun _ _ h => mem_reaching_merge.mpr (Or.inl h)

theorem below_merge_right (a b : State) : b.Below (a.merge b) :=
  fun _ _ h => mem_reaching_merge.mpr (Or.inr h)

theorem below_join (member : s ∈ states) : s.Below (join states) := by
  cases states with
  | nil => exact absurd member not_mem_nil
  | cons first rest => exact fun name origin h => mem_reaching_join.mpr ⟨s, member, h⟩

/-- Two states are the same if and only if every name has the same origins in both. -/
theorem same_iff : a.same b = true ↔ ∀ name, a.reaching name = b.reaching name := by
  unfold same
  rw [all_eq_true]
  constructor
  · intro agree name
    by_cases held : name ∈ a.keys ++ b.keys
    · exact eq_of_beq (agree name held)
    · rw [mem_append, ExtTreeMap.mem_keys, ExtTreeMap.mem_keys, not_or] at held
      rw [reaching_of_not_mem held.1, reaching_of_not_mem held.2]
  · intro agree name _
    exact beq_iff_eq.mpr (agree name)

/-- States that hold the same names and give them the same origins are equal. -/
theorem eq_of_reaching (held : ∀ name, name ∈ a ↔ name ∈ b)
    (reaches : ∀ name, a.reaching name = b.reaching name) : a = b := by
  refine ExtTreeMap.ext_getElem? fun name => ?_
  by_cases inside : name ∈ a
  · have same := reaches name
    rw [reaching_eq_getD, reaching_eq_getD] at same
    rw [ExtTreeMap.getElem?_eq_some_getElem inside, ExtTreeMap.getElem?_eq_some_getElem
      ((held name).mp inside)] at same ⊢
    exact congrArg some same
  · rw [ExtTreeMap.getElem?_eq_none inside, ExtTreeMap.getElem?_eq_none fun other => inside
      ((held name).mpr other)]

/-- A join is put together from one state after the other. -/
theorem join_cons (some : states ≠ []) : join (s :: states) = s.merge (join states) := by
  obtain ⟨t, rest, rfl⟩ := exists_cons_of_ne_nil some
  refine eq_of_reaching (fun name => ?_) fun name => ?_
  · simp only [mem_merge, mem_join, mem_cons, exists_eq_or_imp]
  · ext origin
    simp only [mem_reaching_merge, mem_reaching_join, mem_cons, exists_eq_or_imp]

theorem join_singleton (s : State) : join [s] = s := by
  refine eq_of_reaching (fun name => ?_) fun name => ?_
  · simp [mem_join]
  · ext origin
    simp [mem_reaching_join]

theorem merge_comm (a b : State) : a.merge b = b.merge a := by
  refine eq_of_reaching (fun name => ?_) fun name => ?_
  · simp only [mem_merge, or_comm]
  · ext origin
    simp only [mem_reaching_merge, or_comm]

theorem below_of_same (same : a.same b = true) : a.Below b := by
  intro name origin h
  rwa [← same_iff.mp same name]

/-- Binding a name adds no other name. -/
theorem mem_define {i : Nat} {d : Definition} : name ∈ s.define i d ↔ d.name = name ∨ name ∈ s := by
  unfold define
  split <;> rw [ExtTreeMap.mem_insert, Std.LawfulEqOrd.compare_eq_iff_eq]

/-- Binding a name changes what reaches that name only. -/
theorem reaching_define (s : State) (i : Nat) (d : Definition) (name : String) :
    (s.define i d).reaching name =
      if d.name = name then
        if d.kind.kills then {Origin.statement i} else (s.reaching name).insert (.statement i)
      else s.reaching name := by
  unfold define
  by_cases kills : d.kind.kills = true
  · rw [if_pos kills, if_pos kills, reaching_insert]
  · rw [if_neg kills, if_neg kills, reaching_insert]
    by_cases same : d.name = name
    · simp [same]
    · simp [same]

theorem mem_reaching_define {i : Nat} {d : Definition} :
    origin ∈ (s.define i d).reaching name ↔
      (d.name = name ∧ origin = .statement i) ∨
        (¬ (d.name = name ∧ d.kind.kills = true) ∧ origin ∈ s.reaching name) := by
  rw [reaching_define]
  by_cases same : d.name = name
  · by_cases kills : d.kind.kills = true
    · rw [if_pos same, if_pos kills, Origins.mem_singleton]
      simp [same, kills]
    · rw [if_pos same, if_neg kills, Origins.mem_insert]
      simp [same, kills]
  · simp [same]

end State

end Lineage.Flow
