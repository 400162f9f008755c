import Lineage.Log.Store
import Lineage.Proofs.Log.History

/-!
Executions of different logs. Among all executions that have been made in a process, those of a log
are the ones that it contains: no execution of another log is one of its own, no copy of one of its
own is, and neither is one from before it was reset.
-/

namespace Lineage

open List

variable {a b e : Execution} {l l' : Log} {made more : List Execution} {s s' : LogStore}
  {cell : Notebook.Cell}

theorem Execution.same_iff : a.same b = true ↔ a.epoch = b.epoch ∧ a.ordinal = b.ordinal := by
  simp [same]

theorem Execution.same_eq_false (apart : a.epoch ≠ b.epoch ∨ a.ordinal ≠ b.ordinal) :
    a.same b = false := by
  rw [← Bool.not_eq_true, same_iff, not_and_or]
  exact apart

namespace Log

theorem epoch_of_recordAt {ordinal : Int} (recorded : l.recordAt cell ordinal = .ok (l', e)) :
    l'.epoch = l.epoch ∧ e.epoch = l.epoch := by
  obtain ⟨executed, appended⟩ := recordAt_eq_ok recorded
  obtain ⟨_, rfl⟩ := append_eq_ok appended
  exact ⟨rfl, (execute_eq_ok executed).2.1⟩

theorem executions_of_recordAt {ordinal : Int} (recorded : l.recordAt cell ordinal = .ok (l', e)) :
    l'.executions = l.executions ++ [e] := by
  obtain ⟨_, rfl⟩ := append_eq_ok (recordAt_eq_ok recorded).2
  rfl

theorem epoch_of_ofRecords {settings : Flow.Settings} {plain : String → String} {epoch : Epoch}
    {records : List Notebook.Value} (restored : ofRecords settings plain epoch records = .ok l) :
    l.epoch = epoch :=
  restoreAll_induction (motive := fun l => l.epoch = epoch)
    (fun before recorded => (epoch_of_recordAt recorded).1.trans before) rfl restored

/-- The executions of a log carry its epoch. -/
theorem Reachable.epoch (reachable : l.Reachable) : ∀ e ∈ l.executions, e.epoch = l.epoch := by
  have recordAt : ∀ {l l' : Log} {cell ordinal e}, (∀ e ∈ l.executions, e.epoch = l.epoch) →
      l.recordAt cell ordinal = .ok (l', e) → ∀ e ∈ l'.executions, e.epoch = l'.epoch := by
    intro l l' cell ordinal e before recorded
    obtain ⟨kept, own⟩ := epoch_of_recordAt recorded
    rw [executions_of_recordAt recorded, kept]
    exact forall_mem_append.mpr ⟨before, forall_mem_singleton.mpr own⟩
  induction reachable with
  | start settings plain epoch => exact forall_mem_nil _
  | record _ recorded ih => exact recordAt ih recorded
  | restore restored => exact restoreAll_induction recordAt (forall_mem_nil _) restored
  | reset _ _ => exact forall_mem_nil _

/-- A log contains what is the same as one of its executions. -/
theorem Sound.contains_iff (sound : l.Sound) : l.contains e = true ↔ ∃ a ∈ l.executions, e.same a =
    true := by
  simp only [contains, Option.any_eq_true, sound.at?_eq_some, Execution.same_iff]
  constructor
  · rintro ⟨a, ⟨member, _⟩, same⟩
    exact ⟨a, member, same⟩
  · rintro ⟨a, member, epoch, ordinal⟩
    exact ⟨a, ⟨member, ordinal.symm⟩, epoch, ordinal⟩

/-- A log accounts for its epochs: of the executions that have been made, those of its present epoch
are the ones that it has, and none is of a later epoch. -/
structure Accounts (l : Log) (made : List Execution) : Prop where
  reachable : l.Reachable
  own : l.executions ⊆ made
  present : ∀ e ∈ made, e.epoch = l.epoch → e ∈ l.executions
  past : ∀ e ∈ made, e.epoch.log = l.epoch.log → e.epoch.resets ≤ l.epoch.resets

namespace Accounts

theorem append_other (accounts : l.Accounts made) (others : ∀ e ∈ more, e.epoch.log ≠ l.epoch.log) :
    l.Accounts (made ++ more) where
  reachable := accounts.reachable
  own := subset_append_of_subset_left _ accounts.own
  present := forall_mem_append.mpr
    ⟨accounts.present, fun e member same => absurd (congrArg Epoch.log same) (others e member)⟩
  past := forall_mem_append.mpr ⟨accounts.past, fun e member same => absurd same (others e member)⟩

/-- A log under a new number accounts for all that has been made. -/
theorem of_fresh (reachable : l.Reachable) (others : ∀ e ∈ made, e.epoch.log ≠ l.epoch.log) :
    l.Accounts (made ++ l.executions) where
  reachable := reachable
  own := subset_append_right _ _
  present := forall_mem_append.mpr
    ⟨fun e member same => absurd (congrArg Epoch.log same) (others e member),
      fun _ member _ => member⟩
  past := forall_mem_append.mpr ⟨fun e member same => absurd same (others e member),
    fun e member _ => Nat.le_of_eq (congrArg Epoch.resets (reachable.epoch e member))⟩

theorem record (accounts : l.Accounts made) (recorded : l.record cell = .ok (l', e)) :
    l'.Accounts (made ++ [e]) := by
  obtain ⟨kept, own⟩ := epoch_of_recordAt recorded
  have grown := executions_of_recordAt recorded
  refine ⟨.record accounts.reachable recorded, ?_, ?_, ?_⟩
  · rw [grown]
    exact append_subset.mpr ⟨subset_append_of_subset_left _ accounts.own, subset_append_right _ _⟩
  · rw [grown, kept]
    intro a member same
    rcases mem_append.mp member with older | last
    · exact mem_append_left _ (accounts.present a older same)
    · exact mem_append_right _ last
  · rw [kept]
    exact forall_mem_append.mpr ⟨accounts.past,
      forall_mem_singleton.mpr fun _ => Nat.le_of_eq (congrArg Epoch.resets own)⟩

theorem reset (accounts : l.Accounts made) : l.reset.Accounts made where
  reachable := .reset accounts.reachable
  own := nil_subset _
  present e member same := by
    have number : e.epoch.log = l.reset.epoch.log := congrArg Epoch.log same
    have late := accounts.past e member number
    rw [same] at late
    exact absurd late (Nat.not_succ_le_self _)
  past e member same := Nat.le_succ_of_le (accounts.past e member same)

theorem contains_iff (accounts : l.Accounts made) (member : e ∈ made) :
    l.contains e = true ↔ e ∈ l.executions := by
  rw [accounts.reachable.sound.contains_iff]
  constructor
  · rintro ⟨a, among, same⟩
    refine accounts.present e member ?_
    rw [(Execution.same_iff.mp same).1, accounts.reachable.epoch a among]
  · exact fun among => ⟨e, among, Execution.same_iff.mpr ⟨rfl, rfl⟩⟩

end Accounts

end Log

namespace LogStore

/-- The stores that a process comes to, and the executions that have been made in it: those that its
logs have recorded or restored, and copies. -/
inductive History : LogStore → List Execution → Prop where
  | start : History .empty []
  | create {s : LogStore} {made : List Execution} (settings : Flow.Settings)
      (plain : String → String) : History s made → History (s.create settings plain) made
  | restore {s s' : LogStore} {made : List Execution} {settings : Flow.Settings}
      {plain : String → String} {records : List Notebook.Value} {l : Log} :
      History s made → s.restore settings plain records = .ok (s', l) →
      History s' (made ++ l.executions)
  | record {s s' : LogStore} {made : List Execution} {number : Nat} {l : Log} {cell : Notebook.Cell}
      {e : Execution} : History s made → s.log? number = some l → s.record l cell = .ok (s', e) →
      History s' (made ++ [e])
  | reset {s : LogStore} {made : List Execution} {number : Nat} {l : Log} :
      History s made → s.log? number = some l → History (s.reset l) made
  | copy {s : LogStore} {made : List Execution} (e : Execution) :
      History s made → History (s.copy e).1 (made ++ [(s.copy e).2])

theorem log?_put (s : LogStore) (l : Log) (number : Nat) :
    (s.put l).log? number = if l.epoch.log = number then some l else s.log? number := by
  simp only [log?, put, Std.ExtTreeMap.getElem?_insert, Std.LawfulEqOrd.compare_eq_iff_eq]

theorem log?_create (s : LogStore) (settings : Flow.Settings) (plain : String → String)
    (number : Nat) : (s.create settings plain).log? number =
      if s.numbers = number then some (.empty settings plain s.fresh) else s.log? number :=
  log?_put s.take (.empty settings plain s.fresh) number

theorem History.of_record {number : Nat} (history : s.History made) (among : s.log? number = some l)
    (recorded : l.record cell = .ok (l', e)) : (s.put l').History (made ++ [e]) := by
  refine .record history among (?_ : s.record l cell = _)
  rw [LogStore.record, recorded]
  rfl

/-- All numbers have been taken, no two executions are the same, and each log accounts for its
epochs. -/
structure Orderly (s : LogStore) (made : List Execution) : Prop where
  taken : ∀ e ∈ made, e.epoch.log < s.numbers
  apart : made.Pairwise fun a b => a.same b = false
  logs : ∀ number l, s.log? number = some l → l.epoch.log = number ∧ number < s.numbers ∧
    l.Accounts made

namespace Orderly

theorem of_take (orderly : s.Orderly made) : s.take.Orderly made where
  taken e member := Nat.lt_succ_of_lt (orderly.taken e member)
  apart := orderly.apart
  logs number l found :=
    have ⟨own, taken, accounts⟩ := orderly.logs number l found
    ⟨own, Nat.lt_succ_of_lt taken, accounts⟩

/-- Executions under one number are added, of which no other log knows, and the log with this number
is changed. -/
theorem put (orderly : s.Orderly made) (taken : l.epoch.log < s.numbers)
    (epochs : ∀ e ∈ more, e.epoch.log = l.epoch.log)
    (apart : (made ++ more).Pairwise fun a b => a.same b = false)
    (accounts : l.Accounts (made ++ more)) : (s.put l).Orderly (made ++ more) where
  taken := forall_mem_append.mpr ⟨orderly.taken, fun e member => (epochs e member).symm ▸ taken⟩
  apart := apart
  logs number found among := by
    rw [log?_put] at among
    split at among
    · rename_i own
      obtain rfl := Option.some.inj among
      exact ⟨own, own ▸ taken, accounts⟩
    · rename_i other
      obtain ⟨own, taken, before⟩ := orderly.logs number found among
      refine ⟨own, taken, before.append_other fun e member same => other ?_⟩
      rw [← epochs e member, same, own]

end Orderly

/-- Executions under a number that none has had are none of those. -/
theorem apart_of_fresh (before : made.Pairwise fun a b => a.same b = false)
    (own : more.Pairwise fun a b => a.same b = false)
    (others : ∀ a ∈ made, ∀ b ∈ more, a.epoch.log ≠ b.epoch.log) :
    (made ++ more).Pairwise fun a b => a.same b = false :=
  pairwise_append.mpr ⟨before, own, fun a first b second =>
    Execution.same_eq_false (Or.inl fun same => others a first b second (congrArg Epoch.log same))⟩

/-- However a process went, its store is orderly. -/
theorem History.orderly (history : s.History made) : s.Orderly made := by
  induction history with
  | start => exact ⟨forall_mem_nil _, .nil, fun number l found => by simp [log?, empty] at found⟩
  | @create s made settings plain _ ih =>
    have others : ∀ e ∈ made, e.epoch.log ≠ s.numbers :=
      fun e member => Nat.ne_of_lt (ih.taken e member)
    have accounts := Log.Accounts.of_fresh (.start settings plain s.fresh) others
    have longer : (s.create settings plain).Orderly (made ++ []) :=
      ih.of_take.put (Nat.lt_succ_self _) (forall_mem_nil _) ((append_nil made).symm ▸ ih.apart)
        accounts
    rwa [append_nil] at longer
  | @restore s s' made settings plain records l _ restored ih =>
    unfold LogStore.restore at restored
    cases read : Log.ofRecords settings plain s.fresh records with
    | error error => simp [read, Except.map] at restored
    | ok found =>
      simp only [read, Except.map, Except.ok.injEq, Prod.mk.injEq] at restored
      obtain ⟨rfl, rfl⟩ := restored
      have reachable : found.Reachable := .restore read
      have number : found.epoch.log = s.numbers := congrArg Epoch.log (Log.epoch_of_ofRecords read)
      have epochs : ∀ e ∈ found.executions, e.epoch.log = found.epoch.log :=
        fun e member => congrArg Epoch.log (reachable.epoch e member)
      have others : ∀ e ∈ made, e.epoch.log ≠ found.epoch.log :=
        fun e member => number ▸ Nat.ne_of_lt (ih.taken e member)
      have own : found.executions.Pairwise fun a b => a.same b = false :=
        reachable.sound.increasing.imp fun less => Execution.same_eq_false
          (Or.inr (Int.ne_of_lt less))
      refine ih.of_take.put (number ▸ Nat.lt_succ_self _) epochs ?_ (.of_fresh reachable others)
      exact apart_of_fresh ih.apart own fun a first b second => epochs b second ▸ others a first
  | @record s s' made number l cell e _ among recorded ih =>
    unfold LogStore.record at recorded
    cases one : l.record cell with
    | error error => simp [one, Except.map] at recorded
    | ok found =>
      simp only [one, Except.map, Except.ok.injEq, Prod.mk.injEq] at recorded
      obtain ⟨rfl, rfl⟩ := recorded
      obtain ⟨own, taken, accounts⟩ := ih.logs number l among
      obtain ⟨kept, epoch⟩ := Log.epoch_of_recordAt one
      have later := (Log.append_eq_ok (Log.recordAt_eq_ok one).2).1
      refine ih.put (by rw [kept, own]; exact taken) (forall_mem_singleton.mpr ?_) ?_
        (accounts.record one)
      · rw [epoch, kept]
      · refine pairwise_append.mpr ⟨ih.apart, pairwise_singleton _ _, fun a first => ?_⟩
        refine forall_mem_singleton.mpr (Execution.same_eq_false
          (not_and_or.mp fun ⟨same, ordinal⟩ => ?_))
        -- An execution of the same epoch is one of the log, and the new one has a greater ordinal.
        have older := accounts.reachable.sound.le_lastOrdinal
          (accounts.present a first (same.trans epoch))
        omega
  | @reset s made number l _ among ih =>
    obtain ⟨own, taken, accounts⟩ := ih.logs number l among
    have longer : (s.reset l).Orderly (made ++ []) :=
      ih.put (Nat.lt_of_le_of_lt (Nat.le_of_eq own) taken) (forall_mem_nil _)
        ((append_nil made).symm ▸ ih.apart) ((append_nil made).symm ▸ accounts.reset)
    rwa [append_nil] at longer
  | @copy s made e _ ih =>
    have others : ∀ a ∈ made, ∀ b ∈ [(s.copy e).2], a.epoch.log ≠ b.epoch.log :=
      fun a member => forall_mem_singleton.mpr (Nat.ne_of_lt (ih.taken a member))
    refine ⟨forall_mem_append.mpr ⟨ih.of_take.taken, forall_mem_singleton.mpr (Nat.lt_succ_self _)⟩,
      apart_of_fresh ih.apart (pairwise_singleton _ _) others, fun number l found => ?_⟩
    obtain ⟨own, taken, accounts⟩ := ih.logs number l found
    refine ⟨own, Nat.lt_succ_of_lt taken, accounts.append_other (forall_mem_singleton.mpr ?_)⟩
    exact own ▸ Nat.ne_of_gt taken

end LogStore

end Lineage
