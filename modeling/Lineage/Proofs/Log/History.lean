import Lineage.Log.Record
import Lineage.Proofs.Flow.Regular

/-!
The histories that a session can have. However executions are recorded and restored, ordinals
increase, and the indices of the log say what its list of executions says. All lookups are brought
back to that list here, so nothing else has to open an index.
-/

namespace Lineage

open List Std Flow

variable {e : Execution} {f : StatementFacts} {bound k ordinal : Int} {l l' : Log}
  {cell : Notebook.Cell} {name : String}

theorem ok_of_toOption {ε α : Type} {x : Except ε α} {a : α} (some : x.toOption = some a) :
    x = .ok a := by
  cases x with
  | error error => exact nomatch some
  | ok b => exact congrArg Except.ok (Option.some.inj some)

namespace Execution

variable {e : Execution} {r : Result}

theorem facts?_eq {p : Parsed} (content : e.content = .ok p) : e.facts? = some p.facts := by
  rw [facts?, content]
  rfl

/-- The facts of an execution come with a tree. -/
theorem exists_tree (facts : e.facts? = some r) : ∃ tree, e.content = .ok ⟨tree, r⟩ := by
  unfold facts? at facts
  cases content : e.content with
  | error error => simp [content, Except.toOption] at facts
  | ok p =>
    simp only [content, Except.toOption, Option.map_some, Option.some.injEq] at facts
    exact ⟨p.tree, by rw [← facts]⟩

theorem statements_eq (facts : e.facts? = some r) : e.statements = r.statements.toList := by
  rw [statements, facts]
  rfl

theorem mem_statements (facts : e.facts? = some r) : f ∈ e.statements ↔ f ∈ r.statements := by
  rw [statements_eq facts, Array.mem_toList_iff]

/-- Only an execution that could be read has statements. -/
theorem exists_facts (listed : f ∈ e.statements) : ∃ r, e.facts? = some r := by
  cases facts : e.facts? with
  | none => simp [statements, facts] at listed
  | some r => exact ⟨r, rfl⟩

theorem exit_eq (facts : e.facts? = some r) : e.exit = r.exit := by
  rw [exit, facts]
  rfl

/-- Only an execution that could be read leaves names defined. -/
theorem mem_exit : name ∈ e.exit ↔ ∃ r, e.facts? = some r ∧ name ∈ r.exit := by
  unfold exit
  cases e.facts? with
  | none => simp
  | some r => simp

end Execution

namespace Log

/-- The logs that a session comes across. -/
inductive Reachable : Log → Prop where
  | start (settings : Settings) (plain : String → String) (epoch : Epoch) : Reachable
      (.empty settings plain epoch)
  | record {l l' : Log} {cell : Notebook.Cell} {e : Execution} :
      Reachable l → l.record cell = .ok (l', e) → Reachable l'
  | restore {settings : Settings} {plain : String → String} {epoch : Epoch}
      {records : List Notebook.Value} {l : Log} : Log.ofRecords settings plain epoch records =
      .ok l → Reachable l
  | reset {l : Log} : Reachable l → Reachable l.reset

/-- The ordinals of those executions that may leave a name defined. -/
def definersIn (executions : List Execution) (name : String) : List Int :=
  (executions.filter fun e => e.exit.contains name).map Execution.ordinal

/-- The source of an execution is what the log makes of its text, and its tree was read from it. -/
def Reads (l : Log) (e : Execution) : Prop :=
  e.source = l.plain e.text ∧
    ∀ p, e.content = .ok p → Node.parse e.source = .ok p.tree

/-- The indices of a log agree with its list of executions, and the facts of each execution were
found by analysing its tree. -/
structure Sound (l : Log) : Prop where
  increasing : l.executions.Pairwise fun a b => a.ordinal < b.ordinal
  positive : ∀ e ∈ l.executions, 0 < e.ordinal
  byOrdinal : ∀ k e, l.byOrdinal[k]? = some e ↔ e ∈ l.executions ∧ e.ordinal = k
  byName : ∀ name, l.byName.getD name [] = definersIn l.executions name
  reads : ∀ e ∈ l.executions, l.Reads e
  analyzed : ∀ e ∈ l.executions, ∀ p, e.content = .ok p →
    ∃ writes, analyze l.settings writes p.tree = .ok p.facts

theorem sound_empty (settings : Settings) (plain : String → String) (epoch : Epoch) :
    (empty settings plain epoch).Sound where
  increasing := .nil
  positive := forall_mem_nil _
  byOrdinal k e := by simp [empty]
  byName name := by simp [empty, definersIn]
  reads := forall_mem_nil _
  analyzed := forall_mem_nil _

/-! ### Recording -/

theorem append_eq_ok (appended : l.append e = .ok l') :
    l.lastOrdinal < e.ordinal ∧ l' = { l with
      executions := l.executions ++ [e]
      byOrdinal := l.byOrdinal.insert e.ordinal e
      byId := l.byId.insert e.id (l.executionsOf e.id ++ [e])
      byName := e.exit.keys.foldl (fun byName name => addDefiner byName e.ordinal name)
          l.byName } := by
  unfold append at appended
  split at appended
  · exact nomatch appended
  · rename_i later
    exact ⟨Int.lt_of_not_ge later, (Except.ok.inj appended).symm⟩

theorem recordAt_eq_ok (recorded : l.recordAt cell ordinal = .ok (l', e)) :
    l.execute cell ordinal = .ok e ∧ l.append e = .ok l' := by
  unfold recordAt at recorded
  cases executed : l.execute cell ordinal with
  | error fault =>
    rw [executed] at recorded
    exact nomatch recorded
  | ok made =>
    rw [executed] at recorded
    cases appended : l.append made with
    | error error => simp [Except.mapError, bind, Except.bind, appended] at recorded
    | ok longer =>
      simp only [Except.mapError, bind, Except.bind, appended, pure, Except.pure, Except.ok.injEq,
        Prod.mk.injEq] at recorded
      obtain ⟨rfl, rfl⟩ := recorded
      exact ⟨rfl, appended⟩

/-- What an execution is recorded with: the ordinal it was given, the tree of its source, and facts
found by analysing the tree after what the log tells of the functions that it calls. -/
theorem execute_eq_ok (executed : l.execute cell ordinal = .ok e) :
      e.ordinal = ordinal ∧ e.epoch = l.epoch ∧ l.Reads e ∧ ∀ p, e.content = .ok p →
      analyze l.settings (l.calledWrites p.tree ordinal) p.tree = .ok p.facts := by
  unfold execute at executed
  generalize same : l.plain cell.text = source at executed
  cases found : l.read source ordinal with
  | error fault => simp [found, Except.map] at executed
  | ok content =>
    simp only [found, Except.map, Except.ok.injEq] at executed
    subst executed
    have all : ∀ p, content = .ok p → Node.parse source = .ok p.tree ∧
        analyze l.settings (l.calledWrites p.tree ordinal) p.tree = .ok p.facts := by
      intro p made
      unfold read at found
      cases parsed : Node.parse source with
      | error error =>
        simp only [parsed, Except.ok.injEq] at found
        simp [← found] at made
      | ok tree =>
        rw [parsed] at found
        cases analyzed : analyze l.settings (l.calledWrites tree ordinal) tree with
        | error fault => simp [analyzed, Except.map] at found
        | ok result =>
          simp only [analyzed, Except.map, Except.ok.injEq] at found
          obtain rfl := Except.ok.inj (found.trans made)
          exact ⟨rfl, analyzed⟩
    exact ⟨rfl, rfl, ⟨same.symm, fun p made => (all p made).1⟩, fun p made => (all p made).2⟩

/-- What each recording keeps, restoring keeps. -/
theorem restoreAll_induction {motive : Log → Prop}
    (recordAt : ∀ {l l' cell ordinal e}, motive l → l.recordAt cell ordinal = .ok (l', e) →
    motive l') {records : List Notebook.Value} (start : motive l)
    (restored : l.restoreAll records = .ok l') : motive l' := by
  induction records generalizing l with
  | nil =>
    obtain rfl := Except.ok.inj restored
    exact start
  | cons record rest ih =>
    unfold restoreAll at restored
    cases one : l.restoreOne record with
    | error error => simp [one, bind, Except.bind] at restored
    | ok next =>
      simp only [one, bind, Except.bind] at restored
      refine ih ?_ restored
      unfold restoreOne at one
      cases read : (readRecord record).mapError LogError.shape with
      | error error => simp [read, bind, Except.bind] at one
      | ok found =>
        cases recorded : l.recordAt found.1 found.2 with
        | error error => simp [read, recorded, bind, Except.bind] at one
        | ok made =>
          simp only [read, recorded, bind, Except.bind, pure, Except.pure, Except.ok.injEq] at one
          subst one
          exact recordAt (e := made.2) start recorded

/-- An ordinal is added behind those of each name in a list without repetition. -/
theorem getD_foldl_addDefiner (ordinal : Int) {names : List String} (distinct : names.Nodup)
    (byName : ExtTreeMap String (List Int)) (name : String) :
    (names.foldl (fun byName name => addDefiner byName ordinal name) byName).getD name [] =
      byName.getD name [] ++ if name ∈ names then [ordinal] else [] := by
  induction names generalizing byName with
  | nil => simp
  | cons first rest ih =>
    obtain ⟨fresh, distinct⟩ := nodup_cons.mp distinct
    rw [foldl_cons, ih distinct, addDefiner, ExtTreeMap.getD_insert]
    by_cases same : first = name
    · subst same
      simp [fresh]
    · simp [same, Ne.symm same]

namespace Sound

variable {l l' : Log} (sound : l.Sound)

include sound

theorem le_lastOrdinal (member : e ∈ l.executions) : e.ordinal ≤ l.lastOrdinal := by
  unfold lastOrdinal
  cases found : l.executions.getLast? with
  | none =>
    rw [getLast?_eq_none_iff.mp found] at member
    exact absurd member not_mem_nil
  | some last =>
    obtain ⟨older, split⟩ := getLast?_eq_some_iff.mp found
    have increasing := sound.increasing
    rw [split] at increasing member
    rcases mem_append.mp member with before | own
    · exact Int.le_of_lt ((pairwise_append.mp increasing).2.2 e before last
        (mem_singleton_self last))
    · obtain rfl := List.mem_singleton.mp own
      exact Int.le_refl _

theorem lastOrdinal_nonneg : 0 ≤ l.lastOrdinal := by
  unfold lastOrdinal
  cases found : l.executions.getLast? with
  | none => exact Int.le_refl 0
  | some last => exact Int.le_of_lt (sound.positive last (mem_of_getLast? found))

theorem append (appended : l.append e = .ok l') (reads : l.Reads e)
    (analyzed : ∀ p, e.content = .ok p → ∃ writes, analyze l.settings writes p.tree = .ok p.facts) :
    l'.Sound := by
  obtain ⟨later, rfl⟩ := append_eq_ok appended
  have latest : ∀ other ∈ l.executions, other.ordinal < e.ordinal :=
    fun other member => Int.lt_of_le_of_lt (sound.le_lastOrdinal member) later
  constructor
  case increasing =>
    refine pairwise_append.mpr ⟨sound.increasing, pairwise_singleton _ _,
      fun other member own among => ?_⟩
    obtain rfl := List.mem_singleton.mp among
    exact latest other member
  case positive =>
    refine forall_mem_append.mpr ⟨sound.positive, forall_mem_singleton.mpr ?_⟩
    exact Int.lt_of_le_of_lt sound.lastOrdinal_nonneg later
  case byOrdinal =>
    intro k other
    simp only [ExtTreeMap.getElem?_insert, Std.LawfulEqOrd.compare_eq_iff_eq, mem_append,
      List.mem_singleton]
    by_cases same : e.ordinal = k
    · rw [if_pos same]
      constructor
      · intro found
        obtain rfl := Option.some.inj found
        exact ⟨Or.inr rfl, same⟩
      · rintro ⟨member | rfl, own⟩
        · have := latest other member
          omega
        · rfl
    · rw [if_neg same, sound.byOrdinal]
      constructor
      · exact fun found => ⟨Or.inl found.1, found.2⟩
      · rintro ⟨member | rfl, own⟩
        · exact ⟨member, own⟩
        · exact absurd own same
  case byName =>
    intro name
    dsimp only
    rw [getD_foldl_addDefiner _ ExtTreeMap.nodup_keys, sound.byName, definersIn, definersIn,
      filter_append, map_append]
    by_cases held : name ∈ e.exit <;> simp [held]
  case reads => exact forall_mem_append.mpr ⟨sound.reads, forall_mem_singleton.mpr reads⟩
  case analyzed => exact forall_mem_append.mpr ⟨sound.analyzed, forall_mem_singleton.mpr analyzed⟩

theorem recordAt (recorded : l.recordAt cell ordinal = .ok (l', e)) : l'.Sound := by
  obtain ⟨executed, appended⟩ := recordAt_eq_ok recorded
  obtain ⟨_, _, reads, analyzed⟩ := execute_eq_ok executed
  exact sound.append appended reads fun p content => ⟨_, analyzed p content⟩

end Sound

/-- Every log that a session comes across is sound. -/
theorem Reachable.sound (reachable : l.Reachable) : l.Sound := by
  induction reachable with
  | start settings plain epoch => exact sound_empty settings plain epoch
  | record _ recorded ih => exact ih.recordAt recorded
  | restore restored =>
    exact restoreAll_induction (fun sound => sound.recordAt) (sound_empty _ _ _) restored
  | reset _ _ => exact sound_empty _ _ _

/-- The log after a cell has been run. A cell that is not recorded leaves it as it is. -/
def run (l : Log) (cell : Notebook.Cell) : Log :=
  match l.record cell with
  | .ok (l', _) => l'
  | .error _ => l

/-- The log after cells have been run in order. -/
def runAll (l : Log) (cells : List Notebook.Cell) : Log :=
  cells.foldl run l

theorem Reachable.run (reachable : l.Reachable) (cell : Notebook.Cell) :
    (l.run cell).Reachable := by
  unfold Log.run
  split
  · rename_i recorded
    exact .record reachable recorded
  · exact reachable

theorem Reachable.runAll (reachable : l.Reachable) (cells : List Notebook.Cell) :
    (l.runAll cells).Reachable := by
  induction cells generalizing l with
  | nil => exact reachable
  | cons cell rest ih => exact ih (reachable.run cell)

/-- A run adds executions behind those that are there. -/
theorem executions_run (l : Log) (cell : Notebook.Cell) :
    ∃ more, (l.run cell).executions = l.executions ++ more := by
  unfold run
  cases recorded : l.record cell with
  | error error => exact ⟨[], (append_nil _).symm⟩
  | ok made =>
    obtain ⟨longer, e⟩ := made
    obtain ⟨_, rfl⟩ := append_eq_ok (recordAt_eq_ok recorded).2
    exact ⟨[e], rfl⟩

theorem executions_runAll (l : Log) (cells : List Notebook.Cell) :
    ∃ more, (l.runAll cells).executions = l.executions ++ more := by
  induction cells generalizing l with
  | nil => exact ⟨[], (append_nil _).symm⟩
  | cons cell rest ih =>
    obtain ⟨first, one⟩ := l.executions_run cell
    obtain ⟨later, all⟩ := ih (l.run cell)
    exact ⟨first ++ later, by rw [runAll, foldl_cons, ← runAll, all, one, append_assoc]⟩

/-! ### Looking up -/

/-- In an increasing list, what lies below a bound is what comes first. -/
theorem mem_takeWhile_iff {xs : List Int} (increasing : xs.Pairwise (· < ·)) :
    k ∈ xs.takeWhile (· < bound) ↔ k ∈ xs ∧ k < bound := by
  induction xs with
  | nil => simp
  | cons x rest ih =>
    obtain ⟨least, increasing⟩ := pairwise_cons.mp increasing
    rw [takeWhile_cons]
    by_cases below : x < bound
    · simp only [below, decide_true, if_true, mem_cons, ih increasing]
      constructor
      · rintro (rfl | ⟨member, less⟩)
        · exact ⟨Or.inl rfl, below⟩
        · exact ⟨Or.inr member, less⟩
      · rintro ⟨rfl | member, less⟩
        · exact Or.inl rfl
        · exact Or.inr ⟨member, less⟩
    · simp only [below, decide_false, Bool.false_eq_true, if_false, not_mem_nil, false_iff]
      rintro ⟨member, less⟩
      rcases mem_cons.mp member with rfl | member
      · exact below less
      · have := least k member
        omega

theorem mem_definersIn {executions : List Execution} :
    k ∈ definersIn executions name ↔ ∃ e ∈ executions, name ∈ e.exit ∧ e.ordinal = k := by
  simp [definersIn, and_assoc]

/-- The newest comes first. -/
theorem decreasing_definersBefore (l : Log) (name : String) (bound : Int) :
    (l.definersBefore name bound).Pairwise (· > ·) := by
  unfold definersBefore
  dsimp only
  rw [pairwise_reverse]
  refine ExtTreeSet.ordered_toList.imp fun {a b} less => ?_
  exact Int.compare_eq_lt.mp less

namespace Sound

variable {l : Log} (sound : l.Sound)

include sound

theorem at?_eq_some : l.at? k = some e ↔ e ∈ l.executions ∧ e.ordinal = k :=
  sound.byOrdinal k e

theorem at?_ordinal (member : e ∈ l.executions) : l.at? e.ordinal = some e :=
  sound.at?_eq_some.mpr ⟨member, rfl⟩

/-- An ordinal stands for one execution only. -/
theorem eq_of_ordinal {a b : Execution} (first : a ∈ l.executions) (second : b ∈ l.executions)
    (same : a.ordinal = b.ordinal) : a = b := by
  have found := sound.at?_ordinal first
  rw [same, sound.at?_ordinal second] at found
  exact (Option.some.inj found).symm

theorem regular (member : e ∈ l.executions) {r : Result} (facts : e.facts? = some r) :
    r.Regular := by
  obtain ⟨tree, content⟩ := Execution.exists_tree facts
  obtain ⟨writes, analyzed⟩ := sound.analyzed e member _ content
  exact regular_analyze analyzed

/-- The facts of a statement stand at its index. -/
theorem index_eq (member : e ∈ l.executions) {k : Nat} (found : e.statements[k]? = some f) :
    f.index = k := by
  obtain ⟨r, facts⟩ := Execution.exists_facts (mem_of_getElem? found)
  rw [Execution.statements_eq facts, Array.getElem?_toList] at found
  exact (sound.regular member facts).index k f found

theorem increasing_definersIn (name : String) :
    (definersIn l.executions name).Pairwise (· < ·) := by
  unfold definersIn
  rw [pairwise_map]
  exact sound.increasing.filter _

theorem mem_ordinalsBefore : k ∈ l.ordinalsBefore name bound ↔
    (∃ e ∈ l.executions, name ∈ e.exit ∧ e.ordinal = k) ∧ k < bound := by
  unfold ordinalsBefore
  rw [sound.byName, mem_takeWhile_iff (sound.increasing_definersIn name), mem_definersIn]

/-- An execution may have defined a name if it leaves the name, or all names, defined. -/
theorem mem_definersBefore : k ∈ l.definersBefore name bound ↔
    (∃ e ∈ l.executions, (name ∈ e.exit ∨ Flow.allNames ∈ e.exit) ∧ e.ordinal = k) ∧ k < bound := by
  unfold definersBefore
  dsimp only
  rw [mem_reverse, ExtTreeSet.mem_toList, ExtTreeSet.mem_ofList, contains_iff_mem]
  split
  · rename_i all
    rw [sound.mem_ordinalsBefore, all]
    simp only [or_self]
  · rw [mem_append, sound.mem_ordinalsBefore, sound.mem_ordinalsBefore]
    grind

theorem mem_namesBefore : name ∈ l.namesBefore bound ↔
    name ≠ Flow.allNames ∧ ∃ e ∈ l.executions, name ∈ e.exit ∧ e.ordinal < bound := by
  have first : ∀ {ordinals : List Int}, definersIn l.executions name = ordinals →
      (ordinals.head?.any (· < bound) = true ↔ ∃ e ∈ l.executions, name ∈ e.exit ∧
        e.ordinal < bound) := by
    rintro _ rfl
    have increasing := sound.increasing_definersIn name
    have member : ∀ k, k ∈ definersIn l.executions name ↔ _ := fun k => mem_definersIn
    cases held : definersIn l.executions name with
    | nil =>
      simp only [held, not_mem_nil, false_iff] at member
      grind
    | cons least rest =>
      rw [held] at increasing member
      have below := (pairwise_cons.mp increasing).1
      simp only [head?_cons, Option.any_some, decide_eq_true_eq]
      constructor
      · intro less
        obtain ⟨e, among, leaves, own⟩ := (member least).mp (mem_cons_self ..)
        exact ⟨e, among, leaves, by omega⟩
      · rintro ⟨e, among, leaves, less⟩
        rcases mem_cons.mp ((member e.ordinal).mpr ⟨e, among, leaves, rfl⟩) with same | later
        · omega
        · have := below _ later
          omega
  unfold namesBefore
  simp only [mem_map, mem_filter, ExtTreeMap.mem_toList_iff_getElem?_eq_some, Bool.and_eq_true,
    bne_iff_ne, Prod.exists, exists_and_right, exists_eq_right]
  constructor
  · rintro ⟨ordinals, found, other, any⟩
    have held := sound.byName name
    rw [ExtTreeMap.getD_eq_getD_getElem?, found] at held
    exact ⟨other, (first held.symm).mp any⟩
  · rintro ⟨other, e, among, leaves, less⟩
    have held := sound.byName name
    cases found : l.byName[name]? with
    | none =>
      rw [ExtTreeMap.getD_eq_getD_getElem?, found] at held
      have none : e.ordinal ∉ definersIn l.executions name := by
        rw [← held]
        exact not_mem_nil
      exact absurd (mem_definersIn.mpr ⟨e, among, leaves, rfl⟩) none
    | some ordinals =>
      rw [ExtTreeMap.getD_eq_getD_getElem?, found] at held
      exact ⟨ordinals, rfl, other, (first held.symm).mpr ⟨e, among, leaves, less⟩⟩

end Sound

end Log

end Lineage
