import Lineage.Proofs.Log.Restore
import Lineage.Proofs.Slice.Alike

/-!
Slices of a restored log. What is needed is found from the facts about executions, which restoring
finds as they were, so a slice of the restored log is the slice of the saved one.
-/

namespace Lineage

open List

/-- A part of a slice as it is in another epoch. -/
def CellSlice.inEpoch (epoch : Epoch) (c : CellSlice) : CellSlice :=
  ⟨c.execution.inEpoch epoch, c.ranges⟩

namespace Slice

/-- A slice as it is in another epoch. -/
def inEpoch (epoch : Epoch) (s : Slice) : Slice :=
  ⟨s.target.inEpoch epoch, s.parts.map (CellSlice.inEpoch epoch), s.unresolved⟩

/-- The text of a slice does not tell its epoch. -/
theorem toText_inEpoch (epoch : Epoch) (s : Slice) (format : String → String)
    (headers : Bool) : (s.inEpoch epoch).toText format headers = s.toText format headers := by
  simp only [toText, inEpoch, map_map]
  rfl

end Slice

namespace Log

/-- Epochs do not matter to slices. -/
theorem slice_inEpoch {l : Log} (sound : l.Sound) {epoch : Epoch} (other : (l.inEpoch epoch).Sound)
    {e : Execution} (member : e ∈ l.executions) (atCall : Bool) (lines : Option (List Int)) :
      ∃ s, l.slice atCall e lines = .ok s ∧ (l.inEpoch epoch).slice atCall (e.inEpoch epoch) lines =
      .ok (s.inEpoch epoch) := by
  have alike : l.Alike (· = ·) (l.inEpoch epoch) := by
    refine ⟨sound, other, by omega, ?_, ?_⟩
    · exact fun _ a among _ r facts => ⟨a.inEpoch epoch, mem_map_of_mem among, rfl, facts⟩
    · intro _ _ _ a' among _ r facts
      obtain ⟨a, here, rfl⟩ := mem_map.mp among
      exact ⟨a, here, rfl, facts⟩
  obtain ⟨s, s', made, made', target, target', parts, unresolved⟩ :=
    alike.slice member (mem_map_of_mem member) rfl rfl rfl atCall lines
  have moved : s.parts.map (CellSlice.inEpoch epoch) = s'.parts := by
    refine List.forall₂_eq_eq_eq ▸ List.forall₂_map_left_iff.mpr
      (parts.imp fun part part' ⟨recorded, stands, ranges⟩ => ?_)
    obtain ⟨a, here, same⟩ := mem_map.mp recorded.2
    obtain rfl := sound.eq_of_ordinal here recorded.1
      ((congrArg Execution.ordinal same).trans stands.symm)
    rw [CellSlice.inEpoch, same, ← ranges]
  refine ⟨s, made, made'.trans (congrArg Except.ok ?_)⟩
  rw [Slice.inEpoch, moved, target, ← unresolved, ← target']

/-- Saving a log and restoring it loses nothing: in whatever epoch it is restored, the log is there
again with all its executions, is saved as it was before, and has the same slices. -/
theorem restore_saved {l : Log} (reachable : l.Reachable) (plain : ∀ e ∈ l.executions, e.Plain)
    (epoch : Epoch) : ∃ restored, ofRecords l.settings l.plain epoch l.toRecords = .ok restored ∧
      restored.executions = l.executions.map (Execution.inEpoch epoch) ∧
      restored.toRecords = l.toRecords ∧ ∀ e ∈ l.executions, ∀ atCall lines, ∃ s s', l.slice atCall
        e lines = .ok s ∧ restored.slice atCall (e.inEpoch epoch) lines = .ok s' ∧
        s'.ordinals = s.ordinals ∧ s'.parts.map CellSlice.ranges = s.parts.map CellSlice.ranges ∧
        (∀ format headers, s'.toText format headers = s.toText format headers) ∧
        s'.unresolved = s.unresolved := by
  have restored := reachable.restorable plain epoch
  refine ⟨_, restored, rfl, toRecords_inEpoch epoch l, fun e member atCall lines => ?_⟩
  obtain ⟨s, saved, restored⟩ := slice_inEpoch reachable.sound (Reachable.restore restored).sound
    member atCall lines
  refine ⟨s, s.inEpoch epoch, saved, restored, ?_, ?_, Slice.toText_inEpoch epoch s, rfl⟩
  · simp only [Slice.ordinals, Slice.inEpoch, map_map]
    rfl
  · simp only [Slice.inEpoch, map_map]
    rfl

/-- A session with a cell that is run twice, one that cannot be read and one that puts something
out. -/
def unreadable : Log :=
  (Log.empty ⟨∅, ∅⟩ Magic.plainSource ⟨0, 0⟩).runAll
    [⟨"a", "x = 1", some 1, []⟩, ⟨"b", "def f(:", some 2,
      [⟨.error, [("ename", .text "SyntaxError")]⟩]⟩,
      ⟨"a", "%time\ny = x", some 3, [⟨.stream, [("text", .text "done")]⟩]⟩]

theorem restore_saved_unreadable : unreadable.executions.map Execution.isParsed =
    [true, false, true] ∧ ∃ restored, ofRecords unreadable.settings unreadable.plain
      ⟨7, 0⟩ unreadable.toRecords = .ok restored ∧ restored.executions.map Execution.previous =
      [none, none, some 1] ∧ ∃ e ∈ restored.executions, e.epoch = ⟨7, 0⟩ ∧ e.ordinal = 3 ∧
        ∃ s, restored.slice true e none = .ok s ∧ s.ordinals = [1, 3] := by
  have reachable : unreadable.Reachable := (Reachable.start _ _ _).runAll _
  have plain : ∀ e ∈ unreadable.executions, ∀ o ∈ e.outputs, o.Plain := by decide +kernel
  have previous : unreadable.executions.map Execution.previous =
    [none, none, some 1] := by decide +kernel
  have last : ∃ e ∈ unreadable.executions, e.ordinal = 3 ∧
      (unreadable.slice true e none).toOption.map Slice.ordinals = some [1, 3] := by decide +kernel
  obtain ⟨e, member, own, sliced⟩ := last
  obtain ⟨restored, made, executions, _, slices⟩ := restore_saved reachable plain ⟨7, 0⟩
  obtain ⟨s, s', saved, again, ordinals, _⟩ := slices e member true none
  rw [saved] at sliced
  refine ⟨by decide +kernel, restored, made, ?_, e.inEpoch ⟨7, 0⟩, ?_, rfl, own, s', again, ?_⟩
  · rw [executions, map_map]
    exact previous
  · rw [executions]
    exact mem_map_of_mem member
  · rw [ordinals]
    exact Option.some.inj sliced

end Log

end Lineage
