import Lineage.Proofs.Log.History

/-!
Saving a log and restoring it. A record keeps less than an execution does, and a restored log
belongs to an epoch of its own. Recording does not depend on the epoch, so what a record leaves out
is found again as it was.
-/

namespace Lineage

open Notebook List Std

/-! ### Epochs -/

/-- An execution as it stands in a log of another epoch. -/
def Execution.inEpoch (epoch : Epoch) (e : Execution) : Execution :=
  { e with epoch := epoch }

namespace Log

/-- A log as it would be in another epoch. -/
def inEpoch (epoch : Epoch) (l : Log) : Log :=
  { l with
    epoch := epoch
    executions := l.executions.map (Execution.inEpoch epoch)
    byOrdinal := l.byOrdinal.map fun _ e => e.inEpoch epoch
    byId := l.byId.map fun _ es => es.map (Execution.inEpoch epoch) }

variable (epoch : Epoch) (l : Log)

@[simp] theorem at?_inEpoch (k : Int) :
    (l.inEpoch epoch).at? k = (l.at? k).map (Execution.inEpoch epoch) :=
  ExtTreeMap.getElem?_map

@[simp] theorem executionsOf_inEpoch (id : String) :
    (l.inEpoch epoch).executionsOf id = (l.executionsOf id).map (Execution.inEpoch epoch) := by
  simp only [executionsOf, inEpoch, ExtTreeMap.getD_eq_getD_getElem?, ExtTreeMap.getElem?_map]
  cases l.byId[id]? <;> rfl

@[simp] theorem lastOrdinal_inEpoch : (l.inEpoch epoch).lastOrdinal = l.lastOrdinal := by
  simp only [lastOrdinal, inEpoch, getLast?_map, Option.map_map]
  rfl

@[simp] theorem originsAt_inEpoch (name : String) (ordinal : Int) :
    (l.inEpoch epoch).originsAt name ordinal = l.originsAt name ordinal := by
  simp only [originsAt, at?_inEpoch, Option.bind_map]
  rfl

@[simp] theorem writesAt_inEpoch (ordinal : Int) (origins : Flow.Origins) :
    (l.inEpoch epoch).writesAt ordinal origins = l.writesAt ordinal origins := by
  simp only [writesAt, at?_inEpoch, Option.map_map]
  rfl

theorem writesBack_inEpoch (name : String) (ordinals : List Int) :
    (l.inEpoch epoch).writesBack name ordinals = l.writesBack name ordinals := by
  induction ordinals with
  | nil => rfl
  | cons ordinal older ih => simp only [writesBack, originsAt_inEpoch, writesAt_inEpoch, ih]

theorem calledWrites_inEpoch (n : Node) (ordinal : Int) :
    (l.inEpoch epoch).calledWrites n ordinal = l.calledWrites n ordinal := by
  simp only [calledWrites, globalWritesBefore, writesBack_inEpoch]
  rfl

theorem execute_inEpoch (cell : Cell) (ordinal : Int) :
    (l.inEpoch epoch).execute cell ordinal = (l.execute cell ordinal).map
    (Execution.inEpoch epoch) := by
  have read (source : String) : (l.inEpoch epoch).read source ordinal = l.read source ordinal := by
    unfold Log.read
    simp only [calledWrites_inEpoch]
    rfl
  have previous : ((l.inEpoch epoch).latest? cell.id).map Execution.ordinal =
      (l.latest? cell.id).map Execution.ordinal := by
    simp only [latest?, executionsOf_inEpoch, getLast?_map, Option.map_map]
    rfl
  have plain : (l.inEpoch epoch).plain = l.plain := rfl
  simp only [execute, read, previous, plain]
  generalize l.read _ ordinal = content
  cases content <;> rfl

theorem append_inEpoch (e : Execution) :
    (l.inEpoch epoch).append (e.inEpoch epoch) = (l.append e).map (inEpoch epoch) := by
  have executionsOf := executionsOf_inEpoch epoch l e.id
  unfold append
  rw [lastOrdinal_inEpoch]
  change (if e.ordinal ≤ l.lastOrdinal then _ else _) = _
  split
  case isTrue => rfl
  case isFalse =>
    simp only [Except.map, Except.ok.injEq]
    unfold inEpoch at executionsOf ⊢
    congr 1
    case e_executions => simp
    case e_byOrdinal =>
      refine ExtTreeMap.ext_getElem? fun k => ?_
      simp only [ExtTreeMap.getElem?_map, ExtTreeMap.getElem?_insert, apply_ite (Option.map _)]
      rfl
    case e_byId =>
      refine ExtTreeMap.ext_getElem? fun id => ?_
      simp only [ExtTreeMap.getElem?_map, ExtTreeMap.getElem?_insert, apply_ite (Option.map _),
        Option.map_some, map_append, map_cons, map_nil]
      rw [← executionsOf]
      rfl

theorem recordAt_inEpoch {l l' : Log} {cell : Cell} {ordinal : Int} {e : Execution}
    (recorded : l.recordAt cell ordinal = .ok (l', e)) :
    (l.inEpoch epoch).recordAt cell ordinal = .ok (l'.inEpoch epoch, e.inEpoch epoch) := by
  obtain ⟨executed, appended⟩ := recordAt_eq_ok recorded
  have again := execute_inEpoch epoch l cell ordinal
  have longer := append_inEpoch epoch l e
  rw [executed] at again
  rw [appended] at longer
  unfold recordAt
  rw [again]
  simp only [Except.map, Except.mapError, bind, Except.bind, longer, pure, Except.pure]

end Log

/-! ### Records -/

namespace Notebook

/-- The kind of an output is told by its own field and not by its payload. -/
def Output.Plain (o : Output) : Prop :=
  Fields.has o.payload Output.kindField = false

instance (o : Output) : Decidable o.Plain :=
  inferInstanceAs (Decidable (_ = _))

theorem Output.ofFields_toFields {o : Output} (plain : o.Plain) : ofFields o.toFields = o := by
  have other : ∀ f ∈ o.payload, (f.1 != kindField) = true := by
    simpa [Plain, Fields.has] using plain
  have kind : Fields.get? o.toFields kindField = some (.text o.kind.word) := by
    simp [toFields, Fields.get?]
  have payload : Fields.without o.toFields kindField = o.payload := by
    simp only [toFields, Fields.without]
    rw [filter_cons_of_neg (by simp), filter_eq_self.mpr other]
  rw [ofFields, kind, payload]
  simp only [OutputKind.ofValue, OutputKind.ofWord_word]

theorem outputsOfList_toFields {outputs : List Output} (plain : ∀ o ∈ outputs, o.Plain) :
    outputsOfList (outputs.map fun o => .object o.toFields) = .ok outputs := by
  induction outputs with
  | nil => rfl
  | cons first rest ih =>
    obtain ⟨own, others⟩ := forall_mem_cons.mp plain
    simp only [map_cons, outputsOfList, ih others, Output.ofFields_toFields own]
    rfl

end Notebook

namespace Execution

/-- The cell that an execution has run. -/
def cell (e : Execution) : Cell :=
  ⟨e.id, e.text, e.count, e.outputs⟩

/-- The outputs of an execution can be told from their records. -/
def Plain (e : Execution) : Prop :=
  ∀ o ∈ e.outputs, o.Plain

end Execution

namespace Log

/-- A record gives back the cell that was run and the ordinal of the run. -/
theorem readRecord_recordOf {e : Execution} (plain : e.Plain) :
    readRecord (.object (recordOf e)) = .ok (e.cell, e.ordinal) := by
  have outputs := outputsOfList_toFields plain
  have ordinal : wholeNumber (.number e.ordinal 0) = .ok e.ordinal :=
    congrArg Except.ok (Int.tdiv_one e.ordinal)
  have count : Cell.countOfValue (some ((e.count.map fun n => Value.number n 0).getD .null)) =
      e.count := by
    cases e.count <;> rfl
  simp [readRecord, recordOf, required, Fields.get?, outputsOfValue, outputs, ordinal,
    count, textOf, Execution.cell, bind, Except.bind, pure, Except.pure]

theorem cell_of_execute {l : Log} {cell : Cell} {ordinal : Int} {e : Execution}
    (executed : l.execute cell ordinal = .ok e) : e.cell = cell := by
  unfold execute at executed
  generalize l.plain cell.text = source at executed
  cases found : l.read source ordinal with
  | error fault => simp [found, Except.map] at executed
  | ok content =>
    simp only [found, Except.map, Except.ok.injEq] at executed
    rw [← executed]
    rfl

theorem restoreOne_recordOf {l l' : Log} {cell : Cell} {ordinal : Int} {e : Execution}
    (epoch : Epoch) (recorded : l.recordAt cell ordinal = .ok (l', e)) (plain : e.Plain) :
    (l.inEpoch epoch).restoreOne (.object (recordOf e)) = .ok (l'.inEpoch epoch) := by
  obtain ⟨executed, _⟩ := recordAt_eq_ok recorded
  have same := cell_of_execute executed
  obtain ⟨numbered, _⟩ := execute_eq_ok executed
  have again := recordAt_inEpoch epoch recorded
  rw [← same, ← numbered] at again
  simp [restoreOne, readRecord_recordOf plain, again, Except.mapError, bind, Except.bind, pure,
    Except.pure]

theorem restoreAll_append (l : Log) (older newer : List Value) :
    l.restoreAll (older ++ newer) = (l.restoreAll older).bind (restoreAll · newer) := by
  induction older generalizing l with
  | nil => rfl
  | cons record rest ih =>
    simp only [cons_append, restoreAll]
    cases l.restoreOne record with
    | error error => rfl
    | ok next => exact ih next

/-- The records of a log describe the log, in whatever epoch it is restored. -/
def Restorable (l : Log) : Prop :=
  (∀ e ∈ l.executions, e.Plain) →
    ∀ epoch, ofRecords l.settings l.plain epoch l.toRecords = .ok (l.inEpoch epoch)

theorem restorable_empty (settings : Flow.Settings) (plain : String → String) (epoch : Epoch) :
    (empty settings plain epoch).Restorable := by
  intro _ other
  change Except.ok _ = Except.ok _
  simp [inEpoch, empty]

theorem Restorable.recordAt {l l' : Log} {cell : Cell} {ordinal : Int} {e : Execution}
    (restorable : l.Restorable) (recorded : l.recordAt cell ordinal = .ok (l', e)) :
    l'.Restorable := by
  intro plain epoch
  obtain ⟨_, grown⟩ := append_eq_ok (recordAt_eq_ok recorded).2
  have executions : l'.executions = l.executions ++ [e] := by rw [grown]
  rw [executions] at plain
  obtain ⟨older, own⟩ := forall_mem_append.mp plain
  have before := restorable older epoch
  have records : l'.toRecords = l.toRecords ++ [.object (recordOf e)] := by
    rw [toRecords, executions, map_append]
    rfl
  have context : l'.settings = l.settings ∧ l'.plain = l.plain := by
    rw [grown]
    exact ⟨rfl, rfl⟩
  unfold ofRecords at before ⊢
  rw [context.1, context.2, records, restoreAll_append, before]
  have last := restoreOne_recordOf epoch recorded (forall_mem_singleton.mp own)
  simp [restoreAll, last, Except.bind, bind]

/-- However a log has come about, its records describe it. -/
theorem Reachable.restorable {l : Log} (reachable : l.Reachable) : l.Restorable := by
  induction reachable with
  | start settings plain epoch => exact restorable_empty settings plain epoch
  | record _ recorded ih => exact ih.recordAt recorded
  | restore restored =>
    exact restoreAll_induction Restorable.recordAt (restorable_empty _ _ _) restored
  | reset _ _ => exact restorable_empty _ _ _

theorem toRecords_inEpoch (epoch : Epoch) (l : Log) :
    (l.inEpoch epoch).toRecords = l.toRecords := by
  simp only [toRecords, inEpoch, map_map]
  rfl

end Log

end Lineage
