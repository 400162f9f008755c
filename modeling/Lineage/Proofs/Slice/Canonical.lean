import Lineage.Proofs.Slice.Ranges
import Mathlib.Data.List.Perm.Subperm

/-!
Merging ranges brings a set of lines into its one shortest form. The ranges of this form stand in
order, with a line that none of them covers between any two; so whatever ranges the lines were given
by, the form is the same.
-/

namespace Lineage.LineRange

open List

variable {line : Int} {r : LineRange} {rest rs ts : List LineRange}

/-- A line is one of those that some ranges cover. -/
def Cover (rs : List LineRange) (line : Int) : Prop :=
  ∃ r ∈ rs, r.first ≤ line ∧ line ≤ r.last

theorem cover_cons : Cover (r :: rs) line ↔ r.first ≤ line ∧ line ≤ r.last ∨ Cover rs line := by
  simp [Cover]

/-- Merging neither loses nor adds a line, also where ranges stand the wrong way round. -/
theorem cover_merge (rs : List LineRange) (line : Int) : Cover (merge rs) line ↔ Cover rs line := by
  have same := exists_mem_merge rs line
  simp only [mem_lines] at same
  exact same

/-- Ranges that hold lines, in order, with a line between any two. -/
structure Canonical (rs : List LineRange) : Prop where
  proper : ∀ r ∈ rs, r.first ≤ r.last
  apart : rs.Pairwise fun a b => a.last + 1 < b.first

namespace Canonical

theorem nil : Canonical [] :=
  ⟨forall_mem_nil _, List.Pairwise.nil⟩

theorem tail (form : Canonical (r :: rest)) : Canonical rest :=
  ⟨fun s member => form.proper s (mem_cons_of_mem r member), (pairwise_cons.mp form.apart).2⟩

/-- UnderLeader the first range and the line that follows it lie all others. -/
theorem behind (form : Canonical (r :: rest)) (covered : Cover rest line) : r.last + 1 < line := by
  obtain ⟨s, member, low, _⟩ := covered
  have gap := (pairwise_cons.mp form.apart).1 s member
  omega

/-- Right behind each range there is a line that no range covers. -/
theorem not_cover_next (form : Canonical rs) (member : r ∈ rs) : ¬ Cover rs (r.last + 1) := by
  induction rs with
  | nil => exact absurd member not_mem_nil
  | cons s rest ih =>
    intro covered
    rcases cover_cons.mp covered with ⟨low, high⟩ | later
    · rcases mem_cons.mp member with rfl | member
      · omega
      · have gap := (pairwise_cons.mp form.apart).1 r member
        have proper := form.proper r (mem_cons_of_mem s member)
        omega
    · rcases mem_cons.mp member with rfl | member
      · have gap := form.behind later
        omega
      · exact ih form.tail member later

/-- The first range starts at the first line and ends in front of the first line that is missing. -/
theorem head_eq {s : LineRange} {others : List LineRange} (form : Canonical (r :: rest))
    (other : Canonical (s :: others)) (same : ∀ line, Cover (r :: rest) line ↔
      Cover (s :: others) line) : r = s := by
  have starts : ∀ {a b : LineRange} {as bs : List LineRange}, Canonical (a :: as) →
      Canonical (b :: bs) → (∀ line, Cover (a :: as) line ↔ Cover (b :: bs) line) →
      b.first ≤ a.first := by
    intro a b as bs formA formB agree
    have proper := formA.proper a (mem_cons_self ..)
    have properB := formB.proper b (mem_cons_self ..)
    rcases cover_cons.mp ((agree a.first).mp (cover_cons.mpr (Or.inl ⟨Int.le_refl _,
      proper⟩))) with ⟨low, _⟩ | later
    · exact low
    · have gap := formB.behind later
      omega
  have ends : ∀ {a b : LineRange} {as bs : List LineRange}, Canonical (a :: as) →
      Canonical (b :: bs) → (∀ line, Cover (a :: as) line ↔ Cover (b :: bs) line) →
      b.first ≤ a.first → b.last ≤ a.last := by
    intro a b as bs formA formB agree low
    have proper := formA.proper a (mem_cons_self ..)
    by_contra longer
    refine formA.not_cover_next (mem_cons_self ..)
      ((agree (a.last + 1)).mpr (cover_cons.mpr (Or.inl ?_)))
    omega
  have agree : ∀ line, Cover (s :: others) line ↔ Cover (r :: rest) line :=
    fun line => (same line).symm
  have first : r.first = s.first := Int.le_antisymm (starts other form agree)
    (starts form other same)
  have last : r.last = s.last :=
    Int.le_antisymm (ends other form agree (starts other form agree))
      (ends form other same (starts form other same))
  cases r
  cases s
  simp_all

/-- The lines determine the ranges. -/
theorem eq_of_cover (form : Canonical rs) (other : Canonical ts)
    (same : ∀ line, Cover rs line ↔ Cover ts line) : rs = ts := by
  induction rs generalizing ts with
  | nil =>
    cases ts with
    | nil => rfl
    | cons t rest =>
      have proper := other.proper t (mem_cons_self ..)
      obtain ⟨r, member, _⟩ := (same t.first).mpr (cover_cons.mpr (Or.inl ⟨Int.le_refl _, proper⟩))
      exact absurd member not_mem_nil
  | cons r rest ih =>
    cases ts with
    | nil =>
      have proper := form.proper r (mem_cons_self ..)
      obtain ⟨t, member, _⟩ := (same r.first).mp (cover_cons.mpr (Or.inl ⟨Int.le_refl _, proper⟩))
      exact absurd member not_mem_nil
    | cons t others =>
      obtain rfl := form.head_eq other same
      congr 1
      refine ih form.tail other.tail fun line => ⟨fun covered => ?_, fun covered => ?_⟩
      · have past := form.behind covered
        refine (cover_cons.mp ((same line).mp (cover_cons.mpr (Or.inr covered)))).resolve_left ?_
        omega
      · have past := other.behind covered
        refine (cover_cons.mp ((same line).mpr (cover_cons.mpr (Or.inr covered)))).resolve_left ?_
        omega

/-- Two of the ranges never lie in one range of lines that are all covered. -/
theorem not_both (form : Canonical rs) {s t : LineRange} (first : r ∈ rs)
    (less : r.last + 1 < s.first) (inside : ∀ line, t.first ≤ line → line ≤ t.last → Cover rs line)
    (starts : t.first ≤ r.first) (reaches : s.first ≤ t.last) : False := by
  have proper := form.proper r first
  exact form.not_cover_next first (inside (r.last + 1) (by omega) (by omega))

/-- No ranges with the same lines are fewer. -/
theorem length_le (form : Canonical rs) (same : ∀ line, Cover ts line ↔ Cover rs line) :
    rs.length ≤ ts.length := by
  -- Each range is assigned one of the others that covers its first line, and no two the same.
  have each : ∀ r, ∃ t, r ∈ rs → t ∈ ts ∧ t.first ≤ r.first ∧ r.first ≤ t.last := by
    intro r
    by_cases member : r ∈ rs
    · have covered : Cover rs r.first := ⟨r, member, Int.le_refl _, form.proper r member⟩
      obtain ⟨t, found, low, high⟩ := (same r.first).mpr covered
      exact ⟨t, fun _ => ⟨found, low, high⟩⟩
    · exact ⟨r, fun other => absurd other member⟩
  choose assigned covering using each
  have inside : ∀ t ∈ ts, ∀ line, t.first ≤ line → line ≤ t.last → Cover rs line :=
    fun t member line low high => (same line).mp ⟨t, member, low, high⟩
  have distinct : (rs.map assigned).Nodup := by
    refine pairwise_map.mpr ((pairwise_iff_getElem.mpr ?_))
    intro i j hi hj less equal
    have gap := pairwise_iff_getElem.mp form.apart i j hi hj less
    obtain ⟨found, low, _⟩ := covering rs[i] (getElem_mem hi)
    obtain ⟨_, _, high⟩ := covering rs[j] (getElem_mem hj)
    exact form.not_both (getElem_mem hi) gap (inside _ found) low (equal ▸ high)
  have subset : rs.map assigned ⊆ ts := by
    intro t member
    obtain ⟨r, own, rfl⟩ := mem_map.mp member
    exact (covering r own).1
  have fewer := (subperm_of_subset distinct subset).length_le
  rwa [length_map] at fewer

end Canonical

/-- Joining ranges in order from one on gives ranges apart, none of which starts in front of it. -/
theorem canonical_joinFrom {current : LineRange} (proper : ∀ r ∈ current :: rest, r.first ≤ r.last)
    (order : (current :: rest).Pairwise fun a b => a.first ≤ b.first) :
    Canonical (joinFrom current rest) ∧ ∀ r ∈ joinFrom current rest, current.first ≤ r.first := by
  induction rest generalizing current with
  | nil =>
    refine ⟨⟨proper, pairwise_singleton _ _⟩, fun r member => ?_⟩
    exact Int.le_of_eq (congrArg first (List.mem_singleton.mp member)).symm
  | cons r rest ih =>
    obtain ⟨least, later⟩ := pairwise_cons.mp order
    obtain ⟨first, least⟩ := forall_mem_cons.mp least
    obtain ⟨own, others⟩ := forall_mem_cons.mp proper
    obtain ⟨next, others⟩ := forall_mem_cons.mp others
    rw [joinFrom]
    split
    · refine ih (forall_mem_cons.mpr ⟨?_, others⟩)
        (pairwise_cons.mpr ⟨least, (pairwise_cons.mp later).2⟩)
      exact Int.le_trans own (Int.le_max_left ..)
    · rename_i separate
      simp only [touches, decide_eq_true_eq] at separate
      obtain ⟨form, starts⟩ := ih (forall_mem_cons.mpr ⟨next, others⟩) later
      refine ⟨⟨forall_mem_cons.mpr ⟨own, form.proper⟩,
        pairwise_cons.mpr ⟨fun s member => ?_, form.apart⟩⟩,
        forall_mem_cons.mpr ⟨Int.le_refl _, fun s member => Int.le_trans first (starts s member)⟩⟩
      have low := starts s member
      omega

/-- Merging ranges that hold lines gives ranges apart. -/
theorem canonical_merge (proper : ∀ r ∈ rs, r.first ≤ r.last) : Canonical (merge rs) := by
  have order := pairwise_sorted rs
  have all : ∀ r ∈ rs.mergeSort before, r.first ≤ r.last :=
    fun r member => proper r (mem_mergeSort.mp member)
  rw [merge]
  cases sorted : rs.mergeSort before with
  | nil => exact .nil
  | cons first rest =>
    rw [sorted] at order all
    exact (canonical_joinFrom all order).1

theorem merge_eq_of_cover (proper : ∀ r ∈ rs, r.first ≤ r.last) (other : ∀ t ∈ ts, t.first ≤ t.last)
    (same : ∀ line, Cover rs line ↔ Cover ts line) : merge rs = merge ts := by
  refine (canonical_merge proper).eq_of_cover (canonical_merge other) fun line => ?_
  rw [cover_merge, cover_merge, same]

/-- Ranges that are apart stay as they are. -/
theorem Canonical.merge_eq (form : Canonical rs) : merge rs = rs :=
  (canonical_merge form.proper).eq_of_cover form fun line => cover_merge rs line

/-- Merging keeps the lines of any ranges. If none stands the wrong way round, the result is in
order with a line that is not covered behind each range, it is the same for all ranges with these
lines, and it is the shortest of them. -/
theorem merge_canonical (rs : List LineRange) :
    (∀ line, Cover (merge rs) line ↔ Cover rs line) ∧
      ((∀ r ∈ rs, r.first ≤ r.last) →
        (merge rs).Pairwise (fun a b => a.last + 1 < b.first) ∧
        (∀ r ∈ merge rs, r.first ≤ r.last ∧ ¬ Cover (merge rs) (r.last + 1)) ∧
        (∀ ts, (∀ t ∈ ts, t.first ≤ t.last) → (∀ line, Cover ts line ↔ Cover rs line) →
        merge ts = merge rs) ∧ (∀ ts, (∀ line, Cover ts line ↔ Cover rs line) →
        (merge rs).length ≤ ts.length) ∧ merge (merge rs) = merge rs) := by
  refine ⟨cover_merge rs, fun proper => ?_⟩
  have form := canonical_merge proper
  refine ⟨form.apart, fun r member => ⟨form.proper r member, form.not_cover_next member⟩, ?_, ?_,
    form.merge_eq⟩
  · exact fun ts other same => merge_eq_of_cover other proper same
  · exact fun ts same => form.length_le fun line => (same line).trans (cover_merge rs line).symm

/-- Ranges that overlap, abut and lie in one another. -/
def scattered : List LineRange := [⟨6, 9⟩, ⟨1, 2⟩, ⟨3, 3⟩, ⟨7, 8⟩]

/-- Three ranges of the same lines are merged into the same two. -/
theorem merge_canonical_scattered : (∀ r ∈ scattered, r.first ≤ r.last) ∧
    (∀ line, Cover [⟨6, 9⟩, ⟨1, 3⟩, ⟨2, 2⟩] line ↔ Cover scattered line) ∧
    merge [⟨6, 9⟩, ⟨1, 3⟩, ⟨2, 2⟩] = merge scattered ∧ merge (merge scattered) =
    merge scattered := by
  have proper : ∀ r ∈ scattered, r.first ≤ r.last := by decide
  have same : ∀ line, Cover [⟨6, 9⟩, ⟨1, 3⟩, ⟨2, 2⟩] line ↔ Cover scattered line := by
    intro line
    simp only [Cover, scattered, mem_cons, not_mem_nil, or_false, exists_eq_or_imp, exists_eq_left]
    omega
  obtain ⟨_, _, unique, _, again⟩ := (merge_canonical scattered).2 proper
  exact ⟨proper, same, unique _ (by decide) same, again⟩

end Lineage.LineRange
