import Lineage.Proofs.Log.Renumber
import Lineage.Proofs.Slice.Alike

/-!
Slices when executions that could not be read are left out and the others get other ordinals in the
same order. The log is like the one before then, so its slices have the same lines.
-/

namespace Lineage

namespace Log.Renumbered

variable {renumber : Int → Int} {kept : List Execution} {l l' : Log} {e : Execution}
  (renumbered : Renumbered renumber kept l l')

include renumbered

theorem alike : l.Alike (fun k k' => ∃ a ∈ kept, a.ordinal = k ∧ renumber k = k') l' where
  sound := renumbered.sound
  other := renumbered.other
  order := by
    rintro _ _ _ _ ⟨a, first, rfl, rfl⟩ ⟨b, second, rfl, rfl⟩
    exact (renumbered.lt_iff first second).symm
  forth _ a among _ r facts := by
    have member := renumbered.mem_of_facts among facts
    obtain ⟨a', there, moved⟩ := renumbered.forth member
    exact ⟨a', there, ⟨a, member, rfl, moved.ordinal.symm⟩, moved.facts?.trans facts⟩
  back _ a' there _ r facts := by
    obtain ⟨a, member, moved⟩ := renumbered.back there
    exact ⟨a, renumbered.mem member, ⟨a, member, rfl, moved.ordinal.symm⟩,
      moved.facts?.symm.trans facts⟩

/-- The slice of an execution that is kept has the same lines of the same executions. -/
theorem slice_eq {e' : Execution} (member : e ∈ kept) (there : e' ∈ l'.executions)
    (moved : e.Moved renumber e') (atCall : Bool) (lines : Option (List Int)) :
    ∃ slice slice', l.slice atCall e lines = .ok slice ∧ l'.slice atCall e' lines = .ok slice' ∧
      slice'.ordinals = slice.ordinals.map renumber ∧
      slice'.parts.map CellSlice.ranges = slice.parts.map CellSlice.ranges ∧
      slice'.unresolved = slice.unresolved := by
  obtain ⟨slice, slice', made, made', _, _, parts, unresolved⟩ :=
    renumbered.alike.slice (renumbered.mem member) there ⟨e, member, rfl, moved.ordinal.symm⟩
    moved.facts? moved.displayLines atCall lines
  have mapped : ∀ {α : Type} {f g : CellSlice → α},
      (∀ part part' : CellSlice, renumber part.ordinal = part'.ordinal →
        part'.ranges = part.ranges → f part = g part') →
        slice.parts.map f = slice'.parts.map g := by
    intro α f g same
    refine List.forall₂_eq_eq_eq ▸ List.forall₂_map_left_iff.mpr
      (List.forall₂_map_right_iff.mpr (parts.imp ?_))
    rintro part part' ⟨_, ⟨_, _, _, stands⟩, ranges⟩
    exact same part part' stands ranges
  refine ⟨slice, slice', made, made', ?_, ?_, unresolved⟩
  · rw [Slice.ordinals, Slice.ordinals, List.map_map]
    exact (mapped fun _ _ stands _ => stands).symm
  · exact (mapped fun _ _ _ ranges => ranges.symm).symm

end Log.Renumbered

namespace Log

/-- **Executions that cannot be read do not count, and of ordinals only their order does.** Records
that are accepted are accepted without some that cannot be read and with other ordinals in the same
order, and then each execution that is left has the slice that it had, under the new ordinals. -/
theorem slice_of_renumbered_records {settings : Flow.Settings} {plain : String → String}
    {epoch : Epoch} {records kept : List Notebook.Value} {l : Log}
    (restored : ofRecords settings plain epoch records = .ok l)
    (thinned : Thinned plain records kept) {renumber : Int → Int}
    (increasing : ∀ j ∈ ordinalsOf kept, ∀ k ∈ ordinalsOf kept, j < k → renumber j < renumber k)
    (positive : ∀ k ∈ ordinalsOf kept, 0 < renumber k) (epoch' : Epoch) :
      ∃ l', ofRecords settings plain epoch' (kept.map (renumberRecord renumber)) = .ok l' ∧
      l'.executions.map Execution.ordinal = (ordinalsOf kept).map renumber ∧
        ∀ k ∈ ordinalsOf kept, ∃ e e', l.at? k = some e ∧ l'.at? (renumber k) = some e' ∧
          e'.text = e.text ∧ ∀ atCall lines, ∃ slice slice', l.slice atCall e lines = .ok slice ∧
          l'.slice atCall e' lines = .ok slice' ∧ slice'.ordinals = slice.ordinals.map renumber ∧
          slice'.parts.map CellSlice.ranges = slice.parts.map CellSlice.ranges ∧
          slice'.unresolved = slice.unresolved := by
  obtain ⟨l', more, restored', renumbered, numbers⟩ :=
    thinned.restoreAll (renumbered_empty renumber settings plain epoch epoch') rfl restored
      increasing positive
  rw [List.nil_append] at renumbered
  refine ⟨l', restored', by rw [renumbered.ordinals, numbers], fun k member => ?_⟩
  rw [← numbers] at member
  obtain ⟨e, among, rfl⟩ := List.mem_map.mp member
  obtain ⟨e', there, moved⟩ := renumbered.forth among
  refine ⟨e, e', renumbered.sound.at?_ordinal (renumbered.mem among),
    moved.ordinal ▸ renumbered.other.at?_ordinal there, moved.text, fun atCall lines => ?_⟩
  exact renumbered.slice_eq among there moved atCall lines

/-- The records of runs of a cell, from their ordinals and texts. -/
def plainRecords (runs : List (Int × String)) : List Notebook.Value :=
  runs.map fun (ordinal, text) =>
    .object [("persistent_id", .text "a"), ("ordinal", .number ordinal 0),
      ("execution_count", .null), ("text", .text text), ("outputs", .list [])]

theorem slice_of_renumbered_records_unread :
    let kept := plainRecords [(2, "x = 1"), (7, "def f(:"), (11, "y = x\nz")]
    let renumber : Int → Int := fun k => if k < 7 then 1 else if k < 11 then 2 else 9
    ∃ l', ofRecords ⟨∅, ∅⟩ id ⟨1, 0⟩ (kept.map (renumberRecord renumber)) = .ok l' ∧
      l'.executions.map Execution.ordinal = [1, 2, 9] ∧
      ∃ e', l'.at? 9 = some e' ∧ ∃ slice', l'.slice true e' (some [1]) = .ok slice' ∧
      slice'.ordinals = [1, 9] := by
  intro kept renumber
  have sliced : ((ofRecords ⟨∅, ∅⟩ id ⟨0, 0⟩
      (plainRecords [(2, "x = 1"), (4, "def f(:"), (7, "def f(:"), (11, "y = x\nz")])).toOption.bind
        fun l => (l.at? 11).bind fun e => (l.slice true e (some [1])).toOption.map Slice.ordinals) =
        some [2, 11] := by
    decide +kernel
  have unread : ∃ error, Node.parse "def f(:" = .error error := by
    have failed : (Node.parse "def f(:").toOption.isNone = true := by decide +kernel
    cases parsed : Node.parse "def f(:" with
    | error error => exact ⟨error, rfl⟩
    | ok tree => simp [parsed, Except.toOption] at failed
  have thinned :
      Thinned id (plainRecords [(2, "x = 1"), (4, "def f(:"), (7, "def f(:"), (11, "y = x\nz")])
      kept :=
    .keep (.drop ⟨_, _, rfl, unread⟩ (.keep (.keep .nil)))
  have ordinals : ordinalsOf kept = [2, 7, 11] := by decide +kernel
  have increasing : ∀ j ∈ ordinalsOf kept, ∀ k ∈ ordinalsOf kept, j < k →
      renumber j < renumber k := by
    rw [ordinals]
    decide
  have positive : ∀ k ∈ ordinalsOf kept, 0 < renumber k := by
    rw [ordinals]
    decide
  obtain ⟨l, restored, found⟩ := Option.bind_eq_some_iff.mp sliced
  obtain ⟨e, looked, made⟩ := Option.bind_eq_some_iff.mp found
  obtain ⟨l', restored', numbers, slices⟩ :=
    slice_of_renumbered_records (ok_of_toOption restored) thinned increasing positive ⟨1, 0⟩
  obtain ⟨a, e', lookedA, looked', _, same⟩ := slices 11 (by rw [ordinals]; decide)
  obtain rfl := Option.some.inj (lookedA.symm.trans looked)
  obtain ⟨slice, slice', own, own', renumbered, _⟩ := same true (some [1])
  refine ⟨l', restored', ?_, e', looked', slice', own', ?_⟩
  · rw [numbers, ordinals]
    decide
  · rw [own] at made
    rw [renumbered, Option.some.inj made]
    decide

end Log

end Lineage
