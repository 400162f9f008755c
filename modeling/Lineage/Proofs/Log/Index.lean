import Lineage.Proofs.Log.Restore
import Mathlib.Data.List.Sort

/-!
The indices of a log over whole sessions. Four views of the same history are kept in step: the list
of executions, and the indices by ordinal, by cell and by name. However a session goes, each of them
can be read off the list.
-/

namespace Lineage

open List

variable {e : Execution} {l : Log}

namespace Execution

/-- Whether an execution could be read and leaves a name, or all names, defined. -/
def mayLeave (e : Execution) (name : String) : Bool :=
  e.facts?.any fun r => r.exit.contains name || r.exit.contains Flow.allNames

theorem mayLeave_iff {name : String} : e.mayLeave name = true ↔ name ∈ e.exit ∨
    Flow.allNames ∈ e.exit := by
  unfold mayLeave
  simp only [mem_exit, Option.any_eq_true, Bool.or_eq_true, Std.ExtTreeMap.contains_iff_mem]
  constructor
  · rintro ⟨r, facts, own | all⟩
    · exact Or.inl ⟨r, facts, own⟩
    · exact Or.inr ⟨r, facts, all⟩
  · rintro (⟨r, facts, own⟩ | ⟨r, facts, all⟩)
    · exact ⟨r, facts, Or.inl own⟩
    · exact ⟨r, facts, Or.inr all⟩

end Execution

namespace Log

/-! ### Cells -/

/-- The executions of each cell stand under its id in the order of the list, and each of them knows
the one before it. -/
structure Filed (l : Log) : Prop where
  byId : ∀ id, l.executionsOf id = l.executions.filter fun e => e.id == id
  previous : ∀ older e newer, l.executions = older ++ e :: newer →
    e.previous = (older.filter fun a => a.id == e.id).getLast?.map Execution.ordinal

theorem filed_empty (settings : Flow.Settings) (plain : String → String) (epoch : Epoch) :
    (empty settings plain epoch).Filed where
  byId id := by simp [executionsOf, empty]
  previous older e newer split := by simp [empty] at split

/-- An execution is made with the ordinal of the last one of its cell. -/
theorem previous_of_execute {cell : Notebook.Cell} {ordinal : Int}
    (executed : l.execute cell ordinal = .ok e) :
    e.previous = (l.latest? e.id).map Execution.ordinal := by
  unfold execute at executed
  generalize l.plain cell.text = source at executed
  cases found : l.read source ordinal with
  | error fault => simp [found, Except.map] at executed
  | ok content =>
    simp only [found, Except.map, Except.ok.injEq] at executed
    rw [← executed]

theorem executionsOf_append {l' : Log} (appended : l.append e = .ok l') (id : String) :
    l'.executionsOf id = l.executionsOf id ++ if e.id = id then [e] else [] := by
  obtain ⟨_, rfl⟩ := append_eq_ok appended
  unfold executionsOf
  simp only [Std.ExtTreeMap.getD_insert, Std.LawfulEqOrd.compare_eq_iff_eq]
  by_cases same : e.id = id
  · rw [if_pos same, if_pos same, same]
  · rw [if_neg same, if_neg same, append_nil]

theorem Filed.append {l' : Log} (filed : l.Filed) (appended : l.append e = .ok l')
    (previous : e.previous = (l.latest? e.id).map Execution.ordinal) : l'.Filed := by
  have executions : l'.executions = l.executions ++ [e] := by
    obtain ⟨_, rfl⟩ := append_eq_ok appended
    rfl
  constructor
  case byId =>
    intro id
    rw [executionsOf_append appended, filed.byId, executions, filter_append, filter_singleton]
    simp only [beq_iff_eq, Bool.cond_eq_ite]
  case previous =>
    intro older other newer split
    rw [executions] at split
    rcases eq_nil_or_concat' newer with rfl | ⟨early, last, rfl⟩
    · -- The execution is the one that was added.
      obtain ⟨rfl, same⟩ := append_inj' split rfl
      obtain rfl := singleton_inj.mp same
      rw [previous, latest?, filed.byId]
    · refine filed.previous older other early ?_
      have regrouped : l.executions ++ [e] = (older ++ other :: early) ++
      [last] := by simpa using split
      exact (append_inj' regrouped rfl).1

/-- However a session goes, executions are filed by their cells. -/
theorem Reachable.filed (reachable : l.Reachable) : l.Filed := by
  have recordAt : ∀ {l l' : Log} {cell ordinal e}, l.Filed → l.recordAt cell ordinal = .ok (l', e) →
      l'.Filed := by
    intro l l' cell ordinal e filed recorded
    obtain ⟨executed, appended⟩ := recordAt_eq_ok recorded
    exact filed.append appended (previous_of_execute executed)
  induction reachable with
  | start settings plain epoch => exact filed_empty settings plain epoch
  | record _ recorded ih => exact recordAt ih recorded
  | restore restored => exact restoreAll_induction recordAt (filed_empty _ _ _) restored
  | reset _ _ => exact filed_empty _ _ _

/-- The last of the ordinals in an increasing list is the greatest. -/
theorem max?_eq_getLast? {ordinals : List Int} (increasing : ordinals.Pairwise (· < ·)) :
    ordinals.max? = ordinals.getLast? := by
  rcases eq_nil_or_concat' ordinals with rfl | ⟨older, last, rfl⟩
  · rfl
  · rw [getLast?_concat, max?_eq_some_iff]
    refine ⟨mem_append_right _ (mem_singleton_self last), fun k member => ?_⟩
    rcases mem_append.mp member with before | own
    · exact Int.le_of_lt ((pairwise_append.mp increasing).2.2 k before last
        (mem_singleton_self last))
    · exact Int.le_of_eq (List.mem_singleton.mp own)

namespace Sound

variable {l : Log} (sound : l.Sound)

include sound

/-- The executions in front of one are those with smaller ordinals. -/
theorem filter_ordinal_lt {older newer : List Execution} (split : l.executions = older ++ e ::
    newer) : (l.executions.filter fun a => decide (a.ordinal < e.ordinal)) = older := by
  have increasing := sound.increasing
  rw [split] at increasing ⊢
  obtain ⟨_, behind, across⟩ := pairwise_append.mp increasing
  have kept : older.filter (fun a => decide (a.ordinal < e.ordinal)) = older := by
    refine filter_eq_self.mpr fun a member => decide_eq_true ?_
    exact across a member e (mem_cons_self ..)
  have dropped : (e :: newer).filter (fun a => decide (a.ordinal < e.ordinal)) = [] := by
    refine filter_eq_nil_iff.mpr fun a member => ?_
    rw [decide_eq_true_eq]
    rcases mem_cons.mp member with rfl | later
    · omega
    · have := (pairwise_cons.mp behind).1 a later
      omega
  rw [filter_append, kept, dropped, append_nil]

/-- The execution before one of the same cell is the one with the greatest smaller ordinal. -/
theorem previous_eq_max? (filed : l.Filed) (member : e ∈ l.executions) : e.previous =
    ((l.executions.filter fun a => a.id == e.id && decide (a.ordinal < e.ordinal)).map
      Execution.ordinal).max? := by
  obtain ⟨older, newer, split⟩ := append_of_mem member
  have increasing := sound.increasing.filter fun a => a.id == e.id && decide (a.ordinal < e.ordinal)
  rw [max?_eq_getLast? (pairwise_map.mpr increasing), getLast?_map, ← filter_filter,
    sound.filter_ordinal_lt split]
  exact filed.previous older e newer split

/-- The executions that may have defined a name before an ordinal are found as they stand in the
list, read from its end. -/
theorem definersBefore_eq (name : String) (bound : Int) : l.definersBefore name bound =
    ((l.executions.filter fun e => e.mayLeave name && decide (e.ordinal < bound)).map
      Execution.ordinal).reverse := by
  have decreasing : List.Pairwise (· > ·)
      ((l.executions.filter fun e => e.mayLeave name && decide (e.ordinal < bound)).map
        Execution.ordinal).reverse := by
    rw [pairwise_reverse, pairwise_map]
    exact sound.increasing.filter _
  refine (l.decreasing_definersBefore name bound).eq_of_mem_iff decreasing fun k => ?_
  rw [sound.mem_definersBefore]
  simp only [mem_reverse, mem_map, mem_filter, Bool.and_eq_true, Execution.mayLeave_iff,
    decide_eq_true_eq]
  constructor
  · rintro ⟨⟨e, among, leaves, rfl⟩, below⟩
    exact ⟨e, ⟨among, leaves, below⟩, rfl⟩
  · rintro ⟨e, ⟨among, leaves, below⟩, rfl⟩
    exact ⟨⟨e, among, leaves, rfl⟩, below⟩

end Sound

/-! ### Adding in place -/

/-- Adds an execution to one index after the other. If it is broken off, what has been changed by
then stays changed. -/
def appendInPlace (e : Execution) : EStateM LogError Log Unit := do
  let l ← get
  if e.ordinal ≤ l.lastOrdinal then
    throw (.notIncreasing e.ordinal l.lastOrdinal)
  modify fun l => { l with executions := l.executions ++ [e] }
  modify fun l => { l with byOrdinal := l.byOrdinal.insert e.ordinal e }
  modify fun l => { l with byId := l.byId.insert e.id (l.executionsOf e.id ++ [e]) }
  e.exit.keys.forM fun name => modify
      fun l => { l with byName := addDefiner l.byName e.ordinal name }

theorem run_get_bind {ε σ α : Type} (f : σ → EStateM ε σ α) (s : σ) :
    (get >>= f).run s = (f s).run s := rfl

/-- Adding names to the index in place is to add them at once. -/
theorem run_forM_addDefiner (ordinal : Int) (names : List String) (l : Log) :
    EStateM.run (names.forM fun name =>
      (modify fun l => { l with byName := addDefiner l.byName ordinal name } :
        EStateM LogError Log Unit)) l =
      .ok () { l with
        byName := names.foldl (fun byName name => addDefiner byName ordinal name) l.byName } := by
  induction names generalizing l with
  | nil => rfl
  | cons name rest ih => exact ih { l with byName := addDefiner l.byName ordinal name }

/-- Adding in place does what adding does, and where it fails it has changed nothing. -/
theorem run_appendInPlace (l : Log) (e : Execution) : (appendInPlace e).run l =
    match l.append e with
    | .ok l' => .ok () l'
    | .error error => .error error l := by
  rw [append, appendInPlace, run_get_bind]
  dsimp only
  by_cases early : e.ordinal ≤ l.lastOrdinal
  · rw [if_pos early, if_pos early]
    rfl
  · rw [if_neg early, if_neg early]
    exact run_forM_addDefiner e.ordinal e.exit.keys { l with
      executions := l.executions ++ [e]
      byOrdinal := l.byOrdinal.insert e.ordinal e
      byId := l.byId.insert e.id (l.executionsOf e.id ++ [e]) }

/-! ### Sessions -/

/-- **The indices of a log agree over whole sessions.** Whatever is recorded, reset and restored,
ordinals increase from one on, and an ordinal stands for one execution or for none. The executions
of a cell are found in order, and each of them knows the last one before it. The executions that may
have defined a name before an ordinal are found newest first, and so are the names that have been
left defined by then. An execution that comes too early is refused without a change to any index. -/
theorem indices_of_session {l : Log} (reachable : l.Reachable) :
    l.executions.Pairwise (fun a b => a.ordinal < b.ordinal) ∧
    (∀ e ∈ l.executions, 1 ≤ e.ordinal) ∧
    (∀ k e, l.at? k = some e ↔ e ∈ l.executions ∧ e.ordinal = k) ∧
    (∀ id, l.executionsOf id = l.executions.filter fun e => e.id == id) ∧
    (∀ e ∈ l.executions, e.previous =
      ((l.executions.filter fun a => a.id == e.id && decide (a.ordinal < e.ordinal)).map
        Execution.ordinal).max?) ∧
    (∀ name bound, (l.definersBefore name bound).Pairwise (· > ·) ∧ l.definersBefore name bound =
      ((l.executions.filter fun e => e.mayLeave name && decide (e.ordinal < bound)).map
        Execution.ordinal).reverse) ∧
    (∀ bound name, name ∈ l.namesBefore bound ↔ name ≠ Flow.allNames ∧
      ∃ e ∈ l.executions, (∃ r, e.facts? = some r ∧ name ∈ r.exit) ∧ e.ordinal < bound) ∧
    ∀ e, e.ordinal ≤ l.lastOrdinal →
      (appendInPlace e).run l = .error (.notIncreasing e.ordinal l.lastOrdinal) l := by
  have sound := reachable.sound
  refine ⟨sound.increasing, sound.positive, sound.byOrdinal, reachable.filed.byId, ?_, ?_, ?_, ?_⟩
  · exact fun e member => sound.previous_eq_max? reachable.filed member
  · exact fun name bound => ⟨l.decreasing_definersBefore name bound,
      sound.definersBefore_eq name bound⟩
  · intro bound name
    rw [sound.mem_namesBefore]
    simp only [Execution.mem_exit]
  · intro e early
    rw [run_appendInPlace, append, if_pos early]

/-- The records of a session from which cells have been deleted. -/
def gappedRecords : List Notebook.Value :=
  [(3, "a", "x = 1"), (5, "b", "def f(:"), (9, "a", "x = 2")].map fun (ordinal, id, text) =>
    .object [("persistent_id", .text id), ("ordinal", .number ordinal 0),
      ("execution_count", .null), ("text", .text text), ("outputs", .list [])]

/-- A log with gaps between its ordinals, in which a cell is run once more. -/
def gapped : Log :=
  ((ofRecords ⟨∅, ∅⟩ id ⟨1, 0⟩ gappedRecords).toOption.getD (empty ⟨∅, ∅⟩ id ⟨1, 0⟩)).run
    ⟨"a", "y = x", none, []⟩

theorem indices_of_session_gapped : gapped.Reachable ∧
    gapped.executions.map (fun e => (e.ordinal, e.previous)) =
    [(3, none), (5, none), (9, some 3), (10, some 9)] ∧ gapped.definersBefore "x" 10 = [9, 3] ∧
    (gapped.at? 5).map Execution.isParsed = some false ∧ ∀ e, e.ordinal ≤ 10 →
    (appendInPlace e).run gapped = .error (.notIncreasing e.ordinal 10) gapped := by
  have restored : (ofRecords ⟨∅, ∅⟩ id ⟨1, 0⟩ gappedRecords).toOption.isSome =
    true := by decide +kernel
  have reachable : gapped.Reachable := by
    unfold gapped
    cases read : ofRecords ⟨∅, ∅⟩ id ⟨1, 0⟩ gappedRecords with
    | error error => simp [read, Except.toOption] at restored
    | ok l => exact (Reachable.restore read).run _
  have last : gapped.lastOrdinal = 10 := by decide +kernel
  obtain ⟨_, _, _, _, _, _, _, refused⟩ := indices_of_session reachable
  rw [last] at refused
  exact ⟨reachable, by decide +kernel, by decide +kernel, by decide +kernel, refused⟩

end Log

end Lineage
