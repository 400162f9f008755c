import Lineage.Proofs.Log.Index
import Mathlib.Data.List.Forall2
import Mathlib.Data.List.Pairwise

/-!
Logs that differ only in executions that could not be read and in the numbers of the others. An
execution that could not be read leaves no name defined, so no lookup comes across it, and all
lookups go by the order of ordinals and not by their values. So what a cell is read as does not
change when such executions are left out and the others get other ordinals in the same order, and
the records of the log can be edited accordingly.
-/

namespace Lineage

open Notebook List

/-- The same run of a cell under another ordinal. -/
structure Execution.Moved (renumber : Int → Int) (e e' : Execution) : Prop where
  ordinal : e'.ordinal = renumber e.ordinal
  text : e'.text = e.text
  source : e'.source = e.source
  content : e'.content = e.content

namespace Execution.Moved

variable {renumber : Int → Int} {e e' : Execution} (moved : Moved renumber e e')

include moved

theorem facts? : e'.facts? = e.facts? := by
  rw [Execution.facts?, Execution.facts?, moved.content]

theorem statements : e'.statements = e.statements := by
  rw [Execution.statements, Execution.statements, moved.facts?]

theorem exit : e'.exit = e.exit := by
  rw [Execution.exit, Execution.exit, moved.facts?]

theorem mayLeave (name : String) : e'.mayLeave name = e.mayLeave name := by
  rw [Execution.mayLeave, Execution.mayLeave, moved.facts?]

theorem displayLines : e'.displayLines = e.displayLines := by
  rw [Execution.displayLines, Execution.displayLines, moved.text, moved.source]

end Execution.Moved

namespace Log

variable {a b e : Execution} {bound bound' : Int} {kept : List Execution} {l : Log}

/-- The second log has some executions of the first under other ordinals, and all that could be read
are among them. -/
structure Renumbered (renumber : Int → Int) (kept : List Execution) (l l' : Log) : Prop where
  sound : l.Sound
  other : l'.Sound
  settings : l'.settings = l.settings
  plain : l'.plain = l.plain
  sublist : kept.Sublist l.executions
  unread : ∀ e ∈ l.executions, e ∉ kept → e.facts? = none
  moved : List.Forall₂ (Execution.Moved renumber) kept l'.executions

theorem exists_moved {moves : Execution → Execution → Prop} {there : List Execution}
    (moved : List.Forall₂ moves kept there) (member : e ∈ kept) : ∃ e' ∈ there, moves e e' := by
  induction moved with
  | nil => exact absurd member not_mem_nil
  | @cons a a' kept there own _ ih =>
    rcases mem_cons.mp member with rfl | later
    · exact ⟨a', mem_cons_self .., own⟩
    · obtain ⟨e', among, moved⟩ := ih later
      exact ⟨e', mem_cons_of_mem _ among, moved⟩

/-- Filtering keeps lists of moved executions in step. -/
theorem map_ordinal_filter {renumber : Int → Int} {there : List Execution}
    (moved : List.Forall₂ (Execution.Moved renumber) kept there) {keep keep' : Execution → Bool}
    (same : ∀ e ∈ kept, ∀ e', e.Moved renumber e' → keep' e' = keep e) :
    (there.filter keep').map Execution.ordinal = ((kept.filter keep).map Execution.ordinal).map
    renumber := by
  induction moved with
  | nil => rfl
  | @cons e e' kept there own _ ih =>
    obtain ⟨first, others⟩ := forall_mem_cons.mp same
    have rest := ih others
    rw [filter_cons, filter_cons, first e' own]
    by_cases held : keep e = true
    · rw [if_pos held, if_pos held, map_cons, map_cons, map_cons, rest, own.ordinal]
    · rw [if_neg held, if_neg held, rest]

/-- What a filter takes is not changed when others are left out. -/
theorem filter_eq_of_sublist {all : List Execution} (sublist : kept.Sublist all)
    (distinct : all.Nodup) {keep : Execution → Bool} (out : ∀ e ∈ all, e ∉ kept → keep e = false) :
    all.filter keep = kept.filter keep := by
  induction sublist with
  | slnil => rfl
  | @cons kept all e sublist ih =>
    obtain ⟨fresh, distinct⟩ := nodup_cons.mp distinct
    obtain ⟨own, others⟩ := forall_mem_cons.mp out
    have dropped : keep e = false := own fun member => fresh (sublist.subset member)
    rw [filter_cons_of_neg (by rw [dropped]; exact Bool.false_ne_true), ih distinct others]
  | @cons_cons kept all e sublist ih =>
    obtain ⟨fresh, distinct⟩ := nodup_cons.mp distinct
    have others : ∀ a ∈ all, a ∉ kept → keep a = false := by
      intro a among absent
      refine out a (mem_cons_of_mem _ among) fun member => ?_
      rcases mem_cons.mp member with rfl | later
      · exact fresh among
      · exact absent later
    rw [filter_cons, filter_cons, ih distinct others]

theorem Sound.nodup (sound : l.Sound) : l.executions.Nodup := by
  refine sound.increasing.imp fun {a b} less => ?_
  rintro rfl
  omega

namespace Renumbered

variable {renumber : Int → Int} {kept : List Execution} {l l' : Log}
  (renumbered : Renumbered renumber kept l l')

include renumbered

/-! ### Executions -/

theorem mem (member : e ∈ kept) : e ∈ l.executions :=
  renumbered.sublist.subset member

theorem forth (member : e ∈ kept) : ∃ e' ∈ l'.executions, e.Moved renumber e' :=
  exists_moved renumbered.moved member

theorem back {e' : Execution} (member : e' ∈ l'.executions) : ∃ e ∈ kept, e.Moved renumber e' :=
  exists_moved renumbered.moved.flip member

theorem mem_of_facts (member : e ∈ l.executions) {r : Flow.Result} (facts : e.facts? = some r) :
    e ∈ kept := by
  by_contra absent
  rw [renumbered.unread e member absent] at facts
  exact nomatch facts

theorem ordinals : l'.executions.map Execution.ordinal = (kept.map Execution.ordinal).map
    renumber := by
  have every : ∀ e ∈ kept, ∀ e', e.Moved renumber e' → (fun _ => true) e' = (fun _ => true) e :=
    fun _ _ _ _ => rfl
  have same := map_ordinal_filter renumbered.moved every
  rwa [filter_true, filter_true] at same

/-- The new ordinals are in the order of the old ones. -/
theorem lt_of_lt (first : a ∈ kept) (second : b ∈ kept) (less : a.ordinal < b.ordinal) :
    renumber a.ordinal < renumber b.ordinal := by
  have increasing : kept.Pairwise fun a b => a.ordinal < b.ordinal :=
    renumbered.sound.increasing.sublist renumbered.sublist
  have increasing' : kept.Pairwise fun a b => renumber a.ordinal < renumber b.ordinal := by
    have there := pairwise_map.mpr renumbered.other.increasing
    rw [renumbered.ordinals, pairwise_map, pairwise_map] at there
    exact there
  have both := pairwise_iff_getElem.mp (increasing.and increasing')
  obtain ⟨i, insideA, rfl⟩ := mem_iff_getElem.mp first
  obtain ⟨j, insideB, rfl⟩ := mem_iff_getElem.mp second
  rcases Nat.lt_trichotomy i j with before | rfl | behind
  · exact (both i j insideA insideB before).2
  · omega
  · have := (both j i insideB insideA behind).1
    omega

theorem lt_iff (first : a ∈ kept) (second : b ∈ kept) :
    renumber a.ordinal < renumber b.ordinal ↔ a.ordinal < b.ordinal := by
  refine ⟨fun less => ?_, renumbered.lt_of_lt first second⟩
  rcases Int.lt_trichotomy a.ordinal b.ordinal with before | same | behind
  · exact before
  · rw [same] at less
    omega
  · have := renumbered.lt_of_lt second first behind
    omega

/-! ### Lookups -/

theorem at?_eq (member : e ∈ kept) : ∃ e', l'.at? (renumber e.ordinal) = some e' ∧
    e.Moved renumber e' := by
  obtain ⟨e', there, moved⟩ := renumbered.forth member
  exact ⟨e', moved.ordinal ▸ renumbered.other.at?_ordinal there, moved⟩

theorem originsAt_eq (member : e ∈ kept) (name : String) :
    l'.originsAt name (renumber e.ordinal) = l.originsAt name e.ordinal := by
  obtain ⟨e', found, moved⟩ := renumbered.at?_eq member
  rw [originsAt, originsAt, found, renumbered.sound.at?_ordinal (renumbered.mem member),
    Option.bind_some, Option.bind_some, moved.exit]

theorem writesAt_eq (member : e ∈ kept) (origins : Flow.Origins) :
    l'.writesAt (renumber e.ordinal) origins = l.writesAt e.ordinal origins := by
  obtain ⟨e', found, moved⟩ := renumbered.at?_eq member
  rw [writesAt, writesAt, found, renumbered.sound.at?_ordinal (renumbered.mem member),
    Option.map_some, Option.map_some, moved.statements]

theorem writesBack_eq (name : String) {executions : List Execution}
    (among : ∀ e ∈ executions, e ∈ kept) :
      l'.writesBack name ((executions.map Execution.ordinal).map renumber) = l.writesBack name
      (executions.map Execution.ordinal) := by
  induction executions with
  | nil => rfl
  | cons e older ih =>
    obtain ⟨own, others⟩ := forall_mem_cons.mp among
    rw [map_cons, map_cons, writesBack, writesBack, renumbered.originsAt_eq own, ih others]
    cases l.originsAt name e.ordinal with
    | none => rfl
    | some origins =>
      dsimp only
      rw [renumbered.writesAt_eq own]

/-- The executions that may have defined a name before a bound are the same, if the bound is moved
with them. -/
theorem definersBefore_eq (name : String) (moves : ∀ e ∈ kept, renumber e.ordinal < bound' ↔
    e.ordinal < bound) : l'.definersBefore name bound' = (l.definersBefore name bound).map
      renumber ∧ ∃ executions : List Execution, (∀ e ∈ executions, e ∈ kept) ∧
        l.definersBefore name bound = executions.map Execution.ordinal := by
  have out : ∀ e ∈ l.executions, e ∉ kept → (e.mayLeave name && decide (e.ordinal < bound)) =
      false := by
    intro e member absent
    rw [Execution.mayLeave, renumbered.unread e member absent]
    rfl
  have here := renumbered.sound.definersBefore_eq name bound
  rw [filter_eq_of_sublist renumbered.sublist renumbered.sound.nodup out] at here
  constructor
  · rw [here, renumbered.other.definersBefore_eq, map_reverse]
    refine congrArg List.reverse (map_ordinal_filter renumbered.moved fun e member e' moved => ?_)
    rw [moved.mayLeave, moved.ordinal, decide_eq_decide.mpr (moves e member)]
  · refine ⟨(kept.filter fun e => e.mayLeave name && decide (e.ordinal < bound)).reverse,
      fun e among => ?_, ?_⟩
    · exact (mem_filter.mp (mem_reverse.mp among)).1
    · rw [here, map_reverse]

/-- What called functions are known to assign does not change. -/
theorem calledWrites_eq (n : Node) (moves : ∀ e ∈ kept, renumber e.ordinal < bound' ↔
    e.ordinal < bound) : l'.calledWrites n bound' = l.calledWrites n bound := by
  have each : ∀ name, l'.globalWritesBefore name bound' = l.globalWritesBefore name bound := by
    intro name
    obtain ⟨there, executions, among, here⟩ := renumbered.definersBefore_eq name moves
    rw [globalWritesBefore, globalWritesBefore, there, here, renumbered.writesBack_eq name among]
  simp only [calledWrites, each]

end Renumbered

/-! ### Recording -/

section Recording

variable {renumber : Int → Int} {kept : List Execution} {l l' l'' : Log} {cell : Cell}
  {ordinal : Int} {e : Execution}

/-- A log in which the last execution could not be read stands for what the log before it stands
for. -/
theorem Renumbered.drop (renumbered : Renumbered renumber kept l l')
    (recorded : l.recordAt cell ordinal = .ok (l'', e)) (unread : e.facts? = none) :
    Renumbered renumber kept l'' l' := by
  obtain ⟨_, appended⟩ := recordAt_eq_ok recorded
  have sound := renumbered.sound.recordAt recorded
  obtain ⟨_, rfl⟩ := append_eq_ok appended
  refine { renumbered with sound := sound, sublist := ?_, unread := ?_ }
  · exact renumbered.sublist.trans (sublist_append_left _ _)
  · exact forall_mem_append.mpr ⟨renumbered.unread, forall_mem_singleton.mpr fun _ => unread⟩

/-- What a cell is read as does not change. -/
theorem Renumbered.execute (renumbered : Renumbered renumber kept l l')
    (executed : l.execute cell ordinal = .ok e) {ordinal' : Int}
    (moves : ∀ a ∈ kept, renumber a.ordinal < ordinal' ↔ a.ordinal < ordinal) :
      ∃ e', l'.execute cell ordinal' = .ok e' ∧ e'.ordinal = ordinal' ∧ e'.text = e.text ∧
      e'.source = e.source ∧ e'.content = e.content := by
  have read : ∀ source, l'.read source ordinal' = l.read source ordinal := by
    intro source
    unfold Log.read
    simp only [renumbered.calledWrites_eq _ moves, renumbered.settings]
  unfold Log.execute at executed ⊢
  rw [renumbered.plain]
  generalize l.plain cell.text = source at executed ⊢
  simp only [read]
  cases found : l.read source ordinal with
  | error fault => simp [found, Except.map] at executed
  | ok content =>
    simp only [found, Except.map, Except.ok.injEq] at executed
    subst executed
    exact ⟨_, rfl, rfl, rfl, rfl, rfl⟩

theorem Renumbered.keep (renumbered : Renumbered renumber kept l l')
    (recorded : l.recordAt cell ordinal = .ok (l'', e)) (positive : 0 < renumber ordinal)
    (later : ∀ a ∈ kept, renumber a.ordinal < renumber ordinal) :
      ∃ longer e', l'.recordAt cell (renumber ordinal) = .ok (longer, e') ∧
      Renumbered renumber (kept ++ [e]) l'' longer := by
  obtain ⟨executed, appended⟩ := recordAt_eq_ok recorded
  obtain ⟨after, same⟩ := append_eq_ok appended
  obtain ⟨numbered, _⟩ := execute_eq_ok executed
  have moves : ∀ a ∈ kept, renumber a.ordinal < renumber ordinal ↔ a.ordinal < ordinal := by
    intro a member
    have := renumbered.sound.le_lastOrdinal (renumbered.mem member)
    exact iff_of_true (later a member) (by omega)
  obtain ⟨e', executed', numbered', text, source, content⟩ := renumbered.execute executed moves
  have last : l'.lastOrdinal < e'.ordinal := by
    rw [numbered', lastOrdinal]
    cases found : l'.executions.getLast? with
    | none => exact positive
    | some latest =>
      obtain ⟨a, member, moved⟩ := renumbered.back (mem_of_getLast? found)
      rw [Option.map_some, Option.getD_some, moved.ordinal]
      exact later a member
  have recorded' : ∃ longer, l'.recordAt cell (renumber ordinal) = .ok (longer, e') ∧
      longer.executions = l'.executions ++ [e'] ∧ longer.settings = l'.settings ∧
      longer.plain = l'.plain := by
    unfold Log.recordAt
    simp only [executed', Except.mapError, bind, Except.bind, Log.append,
      if_neg (Int.not_le.mpr last), pure, Except.pure]
    exact ⟨_, rfl, rfl, rfl, rfl⟩
  obtain ⟨longer, recorded', executions', settings', plain'⟩ := recorded'
  have moved : e.Moved renumber e' := ⟨by rw [numbered', numbered], text, source, content⟩
  refine ⟨longer, e', recorded', ?_⟩
  have sound := renumbered.sound.recordAt recorded
  subst same
  constructor
  case sound => exact sound
  case other => exact renumbered.other.recordAt recorded'
  case settings => exact settings'.trans renumbered.settings
  case plain => exact plain'.trans renumbered.plain
  case sublist => exact renumbered.sublist.append (List.Sublist.refl _)
  case unread =>
    refine forall_mem_append.mpr ⟨fun a among absent => ?_, forall_mem_singleton.mpr
      fun absent => ?_⟩
    · exact renumbered.unread a among fun member => absent (mem_append_left _ member)
    · exact absurd (mem_append_right _ (mem_singleton_self e)) absent
  case moved =>
    rw [executions']
    exact rel_append renumbered.moved (.cons moved .nil)

end Recording

/-! ### Records -/

/-- A record of a run whose source cannot be read, as one that names a character in full. -/
def Unreadable (plain : String → String) (record : Value) : Prop :=
  ∃ cell ordinal, readRecord record = .ok (cell, ordinal) ∧
    ∃ error, Node.parse (plain cell.text) = .error error

/-- The second records are the first without some that cannot be read. -/
inductive Thinned (plain : String → String) : List Value → List Value → Prop where
  | nil : Thinned plain [] []
  | keep {record : Value} {records kept : List Value} :
      Thinned plain records kept → Thinned plain (record :: records) (record :: kept)
  | drop {record : Value} {records kept : List Value} :
      Unreadable plain record → Thinned plain records kept → Thinned plain (record :: records) kept

/-- The ordinals that records hold. -/
def ordinalsOf (records : List Value) : List Int :=
  records.filterMap fun record => (readRecord record).toOption.map Prod.snd

/-- A record with another ordinal in the place of its own. -/
def renumberRecord (renumber : Int → Int) (record : Value) : Value :=
  match record, readRecord record with
  | .object fields, .ok (_, ordinal) => .object
      (Fields.set fields "ordinal" (.number (renumber ordinal) 0))
  | _, _ => record

theorem get?_set_self (fields : Fields) (key : String) (v : Value) :
    Fields.get? (Fields.set fields key v) key = some v := by
  unfold Fields.set Fields.get? Fields.has
  by_cases held : (fields.any fun f => f.1 == key) = true
  · rw [if_pos held]
    induction fields with
    | nil => simp at held
    | cons f rest ih =>
      by_cases own : f.1 = key
      · simp [own]
      · have later : (rest.any fun f => f.1 == key) = true := by simpa [own] using held
        simpa [own] using ih later
  · rw [if_neg held]
    have missing : fields.find? (fun f => f.1 == key) = none :=
      find?_eq_none.mpr fun f member own => held (any_eq_true.mpr ⟨f, member, own⟩)
    simp [find?_append, missing]

theorem get?_set_of_ne (fields : Fields) {key other : String} (different : other ≠ key)
    (v : Value) : Fields.get? (Fields.set fields key v) other = Fields.get? fields other := by
  unfold Fields.set Fields.get?
  split
  · rw [find?_map]
    have same : ((fun f : String × Value => f.1 == other) ∘ fun f => if f.1 == key then (key, v)
        else f) = fun f => f.1 == other := by
      funext f
      by_cases own : f.1 = key
      · simp [own]
      · simp [own]
    rw [same, Option.map_map]
    cases found : fields.find? fun f => f.1 == other with
    | none => rfl
    | some f =>
      have own : f.1 = other := by simpa using find?_some found
      simp [own, different]
  · simp [find?_append, different.symm]

theorem ok_of_bind {ε α β : Type} {x : Except ε α} {f : α → Except ε β} {b : β}
    (bound : (x >>= f) = .ok b) : ∃ a, x = .ok a ∧ f a = .ok b := by
  cases x with
  | error error => exact nomatch bound
  | ok a => exact ⟨a, rfl, bound⟩

/-- A renumbered record holds the same cell. -/
theorem readRecord_renumberRecord {record : Value} {cell : Cell} {ordinal : Int}
    (read : readRecord record = .ok (cell, ordinal)) (renumber : Int → Int) :
    readRecord (renumberRecord renumber record) = .ok (cell, renumber ordinal) := by
  cases record with
  | object fields =>
    have renumbered : renumberRecord renumber (.object fields) =
        .object (Fields.set fields "ordinal" (.number (renumber ordinal) 0)) := by
      simp only [renumberRecord, read]
    have number : wholeNumber (.number (renumber ordinal) 0) = .ok (renumber ordinal) :=
      congrArg Except.ok (Int.tdiv_one _)
    have others : ∀ key, key ≠ "ordinal" →
        Fields.get? (Fields.set fields "ordinal" (.number (renumber ordinal) 0)) key =
        Fields.get? fields key := fun key different => get?_set_of_ne fields different _
    rw [readRecord] at read
    obtain ⟨text, readText, read⟩ := ok_of_bind read
    obtain ⟨outputs, readOutputs, read⟩ := ok_of_bind read
    obtain ⟨id, readId, read⟩ := ok_of_bind read
    obtain ⟨_, _, read⟩ := ok_of_bind read
    obtain ⟨_, _, read⟩ := ok_of_bind read
    obtain ⟨idText, ofId, read⟩ := ok_of_bind read
    obtain ⟨cellText, ofText, read⟩ := ok_of_bind read
    obtain ⟨rfl, rfl⟩ := Prod.mk.inj (Except.ok.inj read)
    unfold required at readText readId
    rw [renumbered, readRecord]
    unfold required
    rw [get?_set_self, others "text" (by decide), others "outputs" (by decide),
      others "persistent_id" (by decide), others "execution_count" (by decide), readText,
      readOutputs, readId]
    simp only [bind, Except.bind, number, ofId, ofText]
    rfl
  | _ => cases read

/-! ### Restoring -/

theorem restoreAll_cons {last : Log} {record : Value} {rest : List Value} :
    l.restoreAll (record :: rest) = .ok last ↔ ∃ cell ordinal next e, readRecord record =
      .ok (cell, ordinal) ∧ l.recordAt cell ordinal = .ok (next, e) ∧ next.restoreAll rest =
      .ok last := by
  constructor
  · intro restored
    obtain ⟨next, one, restored⟩ := ok_of_bind restored
    obtain ⟨⟨cell, ordinal⟩, read, one⟩ := ok_of_bind one
    obtain ⟨⟨longer, e⟩, recorded, same⟩ := ok_of_bind one
    obtain rfl := Except.ok.inj same
    refine ⟨cell, ordinal, longer, e, ?_, recorded, restored⟩
    cases found : readRecord record with
    | error error => simp [found, Except.mapError] at read
    | ok made => simpa [found, Except.mapError] using read
  · rintro ⟨cell, ordinal, next, e, read, recorded, restored⟩
    rw [restoreAll, restoreOne, read]
    simp only [Except.mapError, bind, Except.bind, recorded, pure, Except.pure]
    exact restored

/-- A run whose source cannot be read has no facts. -/
theorem facts?_of_execute {cell : Cell} {ordinal : Int} (executed : l.execute cell ordinal = .ok e)
    {error : ParseError}
    (unread : Node.parse (l.plain cell.text) = .error error) :
    e.facts? = none := by
  unfold execute read at executed
  simp only [unread, Except.map, Except.ok.injEq] at executed
  rw [← executed]
  rfl

theorem renumbered_empty (renumber : Int → Int) (settings : Flow.Settings) (plain : String → String)
    (epoch epoch' : Epoch) : Renumbered renumber [] (empty settings plain epoch)
    (empty settings plain epoch') where
  sound := sound_empty _ _ _
  other := sound_empty _ _ _
  settings := rfl
  plain := rfl
  sublist := List.Sublist.refl _
  unread := forall_mem_nil _
  moved := .nil

/-- Records without some that cannot be read, and with other ordinals in the same order, are
restored as the records themselves are. -/
theorem Thinned.restoreAll {plain : String → String} {records kept : List Value}
    (thinned : Thinned plain records kept) {renumber : Int → Int} {before : List Execution}
    {l' last : Log} (renumbered : Renumbered renumber before l l') (own : l.plain = plain)
    (restored : l.restoreAll records = .ok last)
      (increasing : ∀ j ∈ before.map Execution.ordinal ++ ordinalsOf kept, ∀ k ∈ ordinalsOf kept,
        j < k → renumber j < renumber k) (positive : ∀ k ∈ ordinalsOf kept, 0 < renumber k) :
    ∃ last' more, l'.restoreAll (kept.map (renumberRecord renumber)) = .ok last' ∧
      Renumbered renumber (before ++ more) last last' ∧ more.map Execution.ordinal =
      ordinalsOf kept := by
  induction thinned generalizing before l l' with
  | nil =>
    obtain rfl := Except.ok.inj restored
    exact ⟨l', [], rfl, by rwa [append_nil], rfl⟩
  | @drop record records kept unreadable _ ih =>
    obtain ⟨cell, ordinal, next, e, read, recorded, rest⟩ := restoreAll_cons.mp restored
    obtain ⟨cell', _, read', error, unread⟩ := unreadable
    obtain ⟨rfl, _⟩ := Prod.mk.inj (Except.ok.inj (read'.symm.trans read))
    rw [← own] at unread
    obtain ⟨executed, appended⟩ := recordAt_eq_ok recorded
    obtain ⟨_, rfl⟩ := append_eq_ok appended
    exact ih (renumbered.drop recorded (facts?_of_execute executed unread)) own rest increasing
      positive
  | @keep record records kept _ ih =>
    obtain ⟨cell, ordinal, next, e, read, recorded, rest⟩ := restoreAll_cons.mp restored
    have ordinals : ordinalsOf (record :: kept) = ordinal :: ordinalsOf kept := by
      simp [ordinalsOf, read, Except.toOption]
    rw [ordinals] at increasing positive
    obtain ⟨executed, appended⟩ := recordAt_eq_ok recorded
    obtain ⟨numbered, _⟩ := execute_eq_ok executed
    obtain ⟨after, same⟩ := append_eq_ok appended
    have later : ∀ a ∈ before, renumber a.ordinal < renumber ordinal := by
      intro a member
      have := renumbered.sound.le_lastOrdinal (renumbered.mem member)
      refine increasing _ (mem_append_left _ (mem_map_of_mem member)) _ (mem_cons_self ..) ?_
      omega
    obtain ⟨longer, e', recorded', renumbered'⟩ :=
      renumbered.keep recorded (positive _ (mem_cons_self ..)) later
    obtain ⟨last', more, restored', done, numbers⟩ := ih renumbered' (by rw [same]; exact own) rest
      (fun j among k member => increasing j (by simpa [numbered] using among) k
      (mem_cons_of_mem _ member)) fun k member => positive k (mem_cons_of_mem _ member)
    refine ⟨last', e :: more, ?_, ?_, ?_⟩
    · rw [map_cons]
      exact restoreAll_cons.mpr ⟨cell, _, longer, e', readRecord_renumberRecord read renumber,
        recorded', restored'⟩
    · rwa [append_assoc, singleton_append] at done
    · rw [map_cons, numbers, ordinals, numbered]

end Log

end Lineage
