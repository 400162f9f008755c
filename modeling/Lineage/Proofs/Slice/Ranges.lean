import Lineage.Slice.Slicer
import Lineage.Proofs.Slice.Scene

/-!
The lines of a slice. Merging ranges keeps their lines, and the parts of a slice are those
executions with included statements, each with the lines that these statements cover.
-/

namespace Lineage

open List Std

variable {line : Int} {f : Flow.StatementFacts}

namespace LineRange

theorem mem_lines {r : LineRange} : line ∈ r.lines ↔ r.first ≤ line ∧ line ≤ r.last := by
  simp only [lines, mem_map, mem_range]
  constructor
  · rintro ⟨k, inside, rfl⟩
    omega
  · rintro ⟨low, high⟩
    exact ⟨(line - r.first).toNat, by omega, by omega⟩

/-- A range that touches one that starts no later is joined to it without a line gained or lost. -/
theorem mem_lines_join {a b : LineRange} (order : a.first ≤ b.first)
    (touching : a.touches b = true) : line ∈ (⟨a.first, max a.last b.last⟩ : LineRange).lines ↔
    line ∈ a.lines ∨ line ∈ b.lines := by
  simp only [touches, decide_eq_true_eq] at touching
  simp only [mem_lines]
  omega

theorem exists_mem_joinFrom {current : LineRange} {rest : List LineRange}
    (order : (current :: rest).Pairwise fun a b => a.first ≤ b.first) :
    (∃ r ∈ joinFrom current rest, line ∈ r.lines) ↔ ∃ r ∈ current :: rest, line ∈ r.lines := by
  induction rest generalizing current with
  | nil => rfl
  | cons r rest ih =>
    obtain ⟨least, later⟩ := pairwise_cons.mp order
    obtain ⟨first, least⟩ := forall_mem_cons.mp least
    rw [joinFrom]
    split
    · rename_i touching
      have joined : ((⟨current.first, max current.last r.last⟩ : LineRange) :: rest).Pairwise
          fun a b => a.first ≤ b.first := pairwise_cons.mpr ⟨least, (pairwise_cons.mp later).2⟩
      rw [ih joined]
      simp only [mem_cons, exists_eq_or_imp, mem_lines_join first touching, or_assoc]
    · simp only [mem_cons, exists_eq_or_imp] at ih ⊢
      rw [ih later]

theorem pairwise_sorted (rs : List LineRange) : (rs.mergeSort before).Pairwise fun a b => a.first ≤
    b.first := by
  refine (pairwise_mergeSort (fun a b c => ?_) (fun a b => ?_) rs).imp fun {a b} less => ?_
  · simp only [before, decide_eq_true_eq]
    omega
  · simp only [before, Bool.or_eq_true, decide_eq_true_eq]
    omega
  · simp only [before, decide_eq_true_eq] at less
    omega

/-- Merged ranges have the same lines. -/
theorem exists_mem_merge (rs : List LineRange) (line : Int) :
    (∃ r ∈ merge rs, line ∈ r.lines) ↔ ∃ r ∈ rs, line ∈ r.lines := by
  have order := pairwise_sorted rs
  have same : (∃ r ∈ rs.mergeSort before, line ∈ r.lines) ↔ ∃ r ∈ rs, line ∈ r.lines := by
    simp only [mem_mergeSort]
  rw [← same, merge]
  cases sorted : rs.mergeSort before with
  | nil => rfl
  | cons first rest =>
    rw [sorted] at order
    exact exists_mem_joinFrom order

end LineRange

theorem Flow.StatementFacts.coversLine_iff :
    f.coversLine line = true ↔ ∃ span ∈ f.spans, span.1 ≤ line ∧ line ≤ span.2 := by
  simp [coversLine]

namespace Slice

/-- The ranges of lines that a statement contributes. -/
def contributed (f : Flow.StatementFacts) : List LineRange :=
  f.spans.map fun (first, last) => ⟨first, last⟩

theorem exists_mem_contributed :
    (∃ r ∈ contributed f, line ∈ r.lines) ↔ f.coversLine line = true := by
  simp only [contributed, mem_map, Flow.StatementFacts.coversLine_iff]
  constructor
  · rintro ⟨r, ⟨span, member, rfl⟩, inside⟩
    exact ⟨span, member, LineRange.mem_lines.mp inside⟩
  · rintro ⟨span, member, inside⟩
    exact ⟨_, ⟨span, member, rfl⟩, LineRange.mem_lines.mpr inside⟩

/-- Adds the ranges of a statement. -/
def gather (s : Scene) (found : Ranges) (t : Timestamp) : Ranges :=
  match s.log.at? t.ordinal, s.statement? t with
  | some e, some f => addRanges found e (contributed f)
  | _, _ => found

theorem rangesOf_eq (s : Scene) (c : Closure) :
    rangesOf s c = c.included.toList.foldl (gather s) ∅ := rfl

/-- What has been added up from some parts: under an ordinal stand an execution with it and the
ranges of all parts with it. -/
structure Collected (cs : List CellSlice) (found : Ranges) : Prop where
  source : ∀ k e rs, found[k]? = some (e, rs) → e.ordinal = k ∧ ∃ c ∈ cs, c.execution = e
  ranges : ∀ k e rs, found[k]? = some (e, rs) → ∀ r, r ∈ rs ↔ ∃ c ∈ cs, c.ordinal = k ∧ r ∈ c.ranges
  mem : ∀ k, k ∈ found ↔ ∃ c ∈ cs, c.ordinal = k

theorem collected_empty : Collected [] ∅ where
  source k e rs held := by simp at held
  ranges k e rs held := by simp at held
  mem k := by simp

namespace Collected

variable {cs : List CellSlice} {found : Ranges}

theorem add (collected : Collected cs found) (c : CellSlice) :
    Collected (cs ++ [c]) (addRanges found c.execution c.ranges) := by
  unfold addRanges
  constructor
  case source =>
    intro k e rs entry
    rw [ExtTreeMap.getElem?_insert] at entry
    split at entry
    · rename_i same
      obtain ⟨rfl, _⟩ := Prod.mk.inj (Option.some.inj entry)
      exact ⟨Std.LawfulEqOrd.eq_of_compare same, c, by simp, rfl⟩
    · obtain ⟨own, d, among, same⟩ := collected.source k e rs entry
      exact ⟨own, d, mem_append_left _ among, same⟩
  case ranges =>
    intro k e rs entry r
    rw [ExtTreeMap.getElem?_insert] at entry
    simp only [mem_append, mem_singleton, or_and_right, exists_or, exists_eq_left]
    split at entry
    · rename_i same
      obtain rfl := Std.LawfulEqOrd.eq_of_compare same
      obtain ⟨_, rfl⟩ := Prod.mk.inj (Option.some.inj entry)
      rw [mem_append]
      refine or_congr ?_ (by simp [CellSlice.ordinal])
      cases before : found[c.execution.ordinal]? with
      | none =>
        have missing : c.execution.ordinal ∉ found := by simpa using before
        rw [collected.mem] at missing
        grind
      | some entry => exact collected.ranges _ entry.1 entry.2 before r
    · rename_i other
      have different : c.ordinal ≠ k := fun same => other
        (Std.LawfulEqOrd.compare_eq_iff_eq.mpr same)
      simp [collected.ranges k e rs entry, different]
  case mem =>
    intro k
    simp only [ExtTreeMap.mem_insert, Std.LawfulEqOrd.compare_eq_iff_eq, collected.mem, mem_append,
      mem_singleton, or_and_right, exists_or, exists_eq_left, CellSlice.ordinal]
    exact or_comm

theorem foldl (collected : Collected cs found) (more : List CellSlice) :
    Collected (cs ++ more) (more.foldl (fun found c => addRanges found c.execution c.ranges)
      found) := by
  induction more generalizing cs found with
  | nil => rwa [append_nil]
  | cons c rest ih =>
    rw [append_cons]
    exact ih (collected.add c)

/-- What the parts that ranges make up come from. -/
theorem mem_partsOf (collected : Collected cs found) {part : CellSlice}
    (member : part ∈ partsOf found) : (∃ c ∈ cs, c.execution = part.execution) ∧
      ∃ rs, part.ranges = LineRange.merge rs ∧ ∀ r, r ∈ rs ↔ ∃ c ∈ cs, c.ordinal = part.ordinal ∧
      r ∈ c.ranges := by
  obtain ⟨⟨k, e, rs⟩, entry, rfl⟩ := mem_map.mp member
  rw [ExtTreeMap.mem_toList_iff_getElem?_eq_some] at entry
  obtain ⟨rfl, origin⟩ := collected.source k e rs entry
  exact ⟨origin, rs, rfl, collected.ranges _ e rs entry⟩

theorem exists_partsOf (collected : Collected cs found) {c : CellSlice} (member : c ∈ cs) :
    ∃ part ∈ partsOf found, part.ordinal = c.ordinal := by
  have present : c.ordinal ∈ found := (collected.mem c.ordinal).mpr ⟨c, member, rfl⟩
  have entry := ExtTreeMap.getElem?_eq_some_getElem present
  generalize found[c.ordinal] = held at entry
  obtain ⟨e, rs⟩ := held
  refine ⟨.ofRanges e rs, mem_map.mpr ⟨(c.ordinal, e, rs), ?_, rfl⟩,
    (collected.source _ e rs entry).1⟩
  exact ExtTreeMap.mem_toList_iff_getElem?_eq_some.mpr entry

end Collected

/-- What the statements of a closure contribute. -/
def pieces (s : Scene) (c : Closure) : List CellSlice :=
  c.included.toList.filterMap fun t => (s.log.at? t.ordinal).bind fun e => (s.statement? t).map
    fun f => ⟨e, contributed f⟩

theorem collected_rangesOf (s : Scene) (c : Closure) : Collected (pieces s c) (rangesOf s c) := by
  have same : rangesOf s c = (pieces s c).foldl
      (fun found c => addRanges found c.execution c.ranges) ∅ := by
    rw [pieces, foldl_filterMap, rangesOf_eq]
    congr 1
    funext found t
    unfold gather
    cases s.log.at? t.ordinal <;> cases s.statement? t <;> rfl
  rw [same]
  exact collected_empty.foldl _

section Sound

variable {s : Scene} {c : Closure} (sound : s.log.Sound)

include sound

theorem mem_pieces {piece : CellSlice} :
    piece ∈ pieces s c ↔ ∃ t ∈ c.included, ∃ f, s.log.Holds t f ∧
    piece.execution ∈ s.log.executions ∧ piece.ordinal = t.ordinal ∧
    piece.ranges = contributed f := by
  simp only [pieces, mem_filterMap, ExtTreeSet.mem_toList, Option.bind_eq_some_iff,
    Option.map_eq_some_iff, sound.at?_eq_some, Scene.statement?_eq_some sound]
  constructor
  · rintro ⟨t, included, e, own, f, holds, rfl⟩
    exact ⟨t, included, f, holds, own.1, own.2, rfl⟩
  · rintro ⟨t, included, f, holds, among, own, same⟩
    exact ⟨t, included, piece.execution, ⟨among, own⟩, f, holds, by rw [← same]⟩

/-- The parts of a slice are executions with included statements, and the lines of a part are those
that its included statements cover. -/
theorem mem_parts {part : CellSlice} (member : part ∈ partsOf (rangesOf s c)) :
    part.execution ∈ s.log.executions ∧ (∃ t ∈ c.included, t.ordinal = part.ordinal) ∧
      ∀ line, (∃ r ∈ part.ranges, line ∈ r.lines) ↔
        ∃ t ∈ c.included, t.ordinal = part.ordinal ∧ ∃ f, s.log.Holds t f ∧
        f.coversLine line = true := by
  obtain ⟨⟨piece, among, same⟩, rs, merged, origin⟩ := (collected_rangesOf s c).mem_partsOf member
  obtain ⟨t, included, _, _, recorded, own, _⟩ := (mem_pieces sound).mp among
  rw [CellSlice.ordinal, same] at own
  refine ⟨same ▸ recorded, ⟨t, included, own.symm⟩, fun line => ?_⟩
  simp only [merged, LineRange.exists_mem_merge, origin, ← exists_mem_contributed]
  constructor
  · rintro ⟨r, ⟨d, listed, equal, mem⟩, inside⟩
    obtain ⟨t, included, f, holds, _, own, ranges⟩ := (mem_pieces sound).mp listed
    exact ⟨t, included, own.symm.trans equal, f, holds, r, ranges ▸ mem, inside⟩
  · rintro ⟨t, included, equal, f, holds, r, mem, inside⟩
    have ⟨e, recorded, own, _⟩ := holds
    exact ⟨r, ⟨⟨e, contributed f⟩, (mem_pieces sound).mpr ⟨t, included, f, holds, recorded,
      own, rfl⟩, own.trans equal, mem⟩, inside⟩

/-- An execution with an included statement has a part. -/
theorem exists_part {t : Timestamp} (included : t ∈ c.included) (holds : s.log.Holds t f) :
    ∃ part ∈ partsOf (rangesOf s c), part.ordinal = t.ordinal := by
  have ⟨e, recorded, own, _⟩ := holds
  obtain ⟨part, member, same⟩ := (collected_rangesOf s c).exists_partsOf
    ((mem_pieces sound).mpr ⟨t, included, f, holds, recorded, own,
      rfl⟩ : (⟨e, contributed f⟩ : CellSlice) ∈ _)
  exact ⟨part, member, same.trans own⟩

end Sound

end Slice

end Lineage
