import Lineage.Proofs.Flow.Outside
import Lineage.Proofs.Slice.Live

/-!
Looking names up across executions. There are two ways back over the executions that may have
defined a name, one for the statements that it may come from and one for what calling it assigns.
Both come to its live definitions.
-/

namespace Lineage

open List Std Flow

namespace Log

/-- No tree of the history mentions the name. -/
def Omits (l : Log) (name : String) : Prop :=
  ∀ e ∈ l.executions, ∀ p, e.content = .ok p → name ∉ p.tree.identifiers

/-- No tree of the history was analysed with a callee that assigns the name. -/
def Quiet (l : Log) (name : String) : Prop :=
  ∀ e ∈ l.executions, ∀ p, e.content = .ok p → ∃ writes,
    analyze l.settings writes p.tree = .ok p.facts ∧ ∀ callee, name ∉ writes.getD callee ∅

/-! ### What calls assign -/

section Sound

variable {l : Log} (sound : l.Sound) {name written : String} {bound : Int}

/-- Calling what a name holds at the end of an execution may assign the other name. -/
def MayAssign (e : Execution) (name written : String) : Prop :=
  ∃ k f, .statement k ∈ e.exit.reaching name ∧ e.statements[k]? = some f ∧ written ∈ f.globalWrites

include sound

theorem mem_writesAt {e : Execution} (member : e ∈ l.executions) {origins : Origins} :
    written ∈ l.writesAt e.ordinal origins ↔
      ∃ k f, .statement k ∈ origins ∧ e.statements[k]? = some f ∧ written ∈ f.globalWrites := by
  rw [writesAt, sound.at?_ordinal member]
  refine (mem_foldl_names (fun origin => ∃ k f, origin = .statement k ∧ e.statements[k]? = some f ∧
    written ∈ f.globalWrites) (fun names origin => ?_) origins.toList ∅).trans ?_
  · cases origin with
    | parameter => simp
    | entry => simp
    | statement j => cases found : e.statements[j]? <;> simp [found]
  · simp only [ExtTreeSet.not_mem_empty, false_or, ExtTreeSet.mem_toList]
    constructor
    · rintro ⟨_, among, k, f, rfl, found, assigned⟩
      exact ⟨k, f, among, found, assigned⟩
    · rintro ⟨k, f, among, found, assigned⟩
      exact ⟨_, among, k, f, rfl, found, assigned⟩

theorem mem_writesBack {executions : List Execution}
    (members : ∀ e ∈ executions, e ∈ l.executions) :
      written ∈ l.writesBack name (executions.map Execution.ordinal) ↔ ∃ newer e older, executions =
        newer ++ e :: older ∧ MayAssign e name written ∧
        ∀ later ∈ newer, .entry ∈ later.exit.reaching name := by
  induction executions with
  | nil => simp [writesBack]
  | cons first rest ih =>
    obtain ⟨own, others⟩ := forall_mem_cons.mp members
    rw [Slice.Scene.exists_split_cons, ← ih others, map_cons, writesBack, originsAt,
      sound.at?_ordinal own, Option.bind_some]
    cases held : first.exit[name]? with
    | none =>
      have missing : name ∉ first.exit := by simpa using held
      have reaching := State.reaching_of_not_mem missing
      simp [MayAssign, reaching, State.mem_untouched]
    | some origins =>
      have reaching := State.reaching_of_getElem? held
      dsimp only
      rw [MayAssign, reaching, ← mem_writesAt sound own]
      split
      · rename_i opens
        rw [ExtTreeSet.mem_union_iff, and_iff_right (ExtTreeSet.contains_iff_mem.mp opens)]
      · rename_i settled
        rw [ExtTreeSet.contains_iff_mem] at settled
        simp [settled]

/-- What calling a name may assign is assigned by what the name may come from itself. -/
theorem mem_globalWritesBefore : written ∈ l.globalWritesBefore name bound ↔
    ∃ e ∈ l.executions, MayAssign e name written ∧ e.ordinal < bound ∧ ∀ later ∈ l.executions,
      e.ordinal < later.ordinal → later.ordinal < bound → .entry ∈ later.exit.reaching name := by
  let s : Slice.Scene := ⟨l, true⟩
  obtain ⟨executions, same, decreasing, listed⟩ :=
    Slice.Scene.definersBefore_eq_map (s := s) sound name bound
  rw [globalWritesBefore, show l.definersBefore name bound = _ from same,
    mem_writesBack sound fun e member => ((listed e).mp member).1]
  refine Slice.Scene.exists_split_iff (fun e => ?_) decreasing listed
  rintro ⟨k, f, reaches, _⟩
  exact Or.inl (State.mem_of_statement reaches)

end Sound

theorem mem_calledWrites {l : Log} {n : Node} {ordinal : Int} {callee written : String}
    (member : written ∈ (l.calledWrites n ordinal).getD callee ∅) :
    written ∈ l.globalWritesBefore callee ordinal := by
  have each : ∀ (names : List String) (writes : GlobalWrites),
      written ∈ (names.foldl (fun writes name =>
        let written := l.globalWritesBefore name ordinal
        if written.isEmpty then writes else writes.insert name written) writes).getD callee ∅ →
      written ∈ writes.getD callee ∅ ∨ written ∈ l.globalWritesBefore callee ordinal := by
    intro names
    induction names with
    | nil => exact fun _ => Or.inl
    | cons name rest ih =>
      intro writes member
      refine (ih _ member).elim (fun before => ?_) Or.inr
      dsimp only at before
      split at before
      · exact Or.inl before
      · rw [ExtTreeMap.getD_insert] at before
        split at before
        · rename_i same
          obtain rfl := Std.LawfulEqOrd.eq_of_compare same
          exact Or.inr before
        · exact Or.inl before
  exact (each _ _ member).resolve_left (by simp)

/-! ### The name for all names -/

section Omits

variable {l : Log} {name : String}

theorem Quiet.not_mem_globalWrites (quiet : l.Quiet name) (omits : l.Omits name) {e : Execution}
    (member : e ∈ l.executions) {f : StatementFacts} (listed : f ∈ e.statements) :
    name ∉ f.globalWrites := by
  obtain ⟨r, facts⟩ := Execution.exists_facts listed
  obtain ⟨tree, content⟩ := Execution.exists_tree facts
  obtain ⟨writes, analyzed, silent⟩ := quiet e member _ content
  exact (globalWrites_analyze analyzed (omits e member _ content) silent).1 f
    ((Execution.mem_statements facts).mp listed)

/-- What an execution is told of its callees is found in the executions before it. -/
theorem quiet_recordAt {l' : Log} {cell : Notebook.Cell} {ordinal : Int} {e : Execution}
    (sound : l.Sound) (quiet : l.Omits name → l.Quiet name)
    (recorded : l.recordAt cell ordinal = .ok (l', e)) (omits : l'.Omits name) : l'.Quiet name := by
  obtain ⟨executed, appended⟩ := recordAt_eq_ok recorded
  obtain ⟨_, rfl⟩ := append_eq_ok appended
  obtain ⟨before, _⟩ := forall_mem_append.mp omits
  refine forall_mem_append.mpr ⟨quiet before, forall_mem_singleton.mpr fun p content => ?_⟩
  refine ⟨_, (execute_eq_ok executed).2.2.2 p content, fun callee member => ?_⟩
  obtain ⟨a, among, ⟨k, f, _, found, assigned⟩, _⟩ :=
    (mem_globalWritesBefore sound).mp (mem_calledWrites member)
  exact (quiet before).not_mem_globalWrites before among (mem_of_getElem? found) assigned

theorem Reachable.quiet (reachable : l.Reachable) (omits : l.Omits name) : l.Quiet name := by
  induction reachable with
  | start => exact forall_mem_nil _
  | record before recorded ih => exact quiet_recordAt before.sound ih recorded omits
  | restore restored =>
    have kept := restoreAll_induction (motive := fun l => l.Sound ∧ (l.Omits name → l.Quiet name))
      (fun held recorded => ⟨held.1.recordAt recorded, quiet_recordAt held.1 held.2 recorded⟩)
      ⟨sound_empty _ _ _, fun _ => forall_mem_nil _⟩ restored
    exact kept.2 omits
  | reset => exact forall_mem_nil _

/-- A statement that may have bound any name is no function that assigns anything. -/
theorem not_mayAssign (reachable : l.Reachable) (omits : l.Omits name) {e : Execution}
    (member : e ∈ l.executions) (written : String) : ¬ MayAssign e name written := by
  rintro ⟨k, f, reaches, found, assigned⟩
  obtain ⟨r, facts⟩ := Execution.exists_facts (mem_of_getElem? found)
  obtain ⟨tree, content⟩ := Execution.exists_tree facts
  obtain ⟨writes, analyzed, silent⟩ := reachable.quiet omits e member _ content
  rw [Execution.statements_eq facts, Array.getElem?_toList] at found
  have exit : e.exit = r.exit := by
    rw [Execution.exit, facts]
    rfl
  rw [exit] at reaches
  exact (globalWrites_analyze analyzed (omits e member _ content) silent).2 k f found reaches
    written assigned

end Omits

/-- Looking a name up before an ordinal leads to its live definitions and to nothing else: to each
of them, and to calls of them. The name is left unresolved exactly if it has none and the session
does not provide it. What is known to be assigned by calling it is what its live definitions assign,
if no text of the session has the name for all names. -/
theorem lookUp_live {l : Log} (reachable : l.Reachable) (atCall : Bool) (bound : Int)
    (site : Timestamp) {name : String}
    (other : name ≠ Flow.allNames) :
    let leads := Slice.Scene.lookUp ⟨l, atCall⟩ bound site name
    (∀ u, .statement u ∈ leads.goals ↔ l.Live bound name u) ∧
      (∀ c, .call c ∈ leads.goals → l.Live bound name c.target) ∧
      (∀ lacking, lacking ∈ leads.unresolved ↔
        lacking = name ∧ Slice.isImplicit name = false ∧ ∀ u, ¬ l.Live bound name u) ∧
      (l.Omits Flow.allNames → ∀ written, written ∈ l.globalWritesBefore name bound ↔
        ∃ u f, l.Live bound name u ∧ l.Holds u f ∧ written ∈ f.globalWrites) := by
  intro leads
  let s : Slice.Scene := ⟨l, atCall⟩
  have sound : s.log.Sound := reachable.sound
  have live : ∀ u, u ∈ s.found bound name ↔ l.Live bound name u := by
    intro u
    rw [Slice.Scene.found, if_neg other]
    exact Slice.Scene.mem_definersBack_iff_live sound
  have goals : ∀ g, g ∈ leads.goals ↔ ∃ u, l.Live bound name u ∧ g ∈ s.need (some site) u := by
    intro g
    rw [show leads.goals = _ from Slice.Scene.goals_lookUp bound site name, mem_flatMap]
    exact exists_congr fun u => and_congr_left' (live u)
  have held : ∀ {u}, l.Live bound name u → ∃ f, l.Holds u f := by
    rintro u ⟨e, member, own, _, ⟨k, index, reaches⟩, _⟩
    exact reaches.elim (fun reaches => Slice.Scene.holds_of_mayDefine sound member
      ⟨own.symm, k, index, reaches⟩)
      fun reaches => Slice.Scene.holds_of_mayDefine sound member ⟨own.symm, k, index, reaches⟩
  refine ⟨fun u => ?_, fun c member => ?_, fun lacking => ?_, fun omits written => ?_⟩
  · rw [goals]
    constructor
    · rintro ⟨v, lives, member⟩
      obtain ⟨_, _, same | ⟨_, same⟩⟩ := Slice.Scene.mem_need.mp member
      · exact Slice.Goal.statement.inj same ▸ lives
      · exact nomatch same
    · intro lives
      obtain ⟨f, holds⟩ := held lives
      exact ⟨u, lives, Slice.Scene.mem_need.mpr
        ⟨f, (Slice.Scene.statement?_eq_some sound).mpr holds, Or.inl rfl⟩⟩
  · obtain ⟨v, lives, member⟩ := (goals _).mp member
    obtain ⟨_, _, same | ⟨_, same⟩⟩ := Slice.Scene.mem_need.mp member
    · exact nomatch same
    · exact Slice.Goal.call.inj same ▸ lives
  · rw [Slice.Scene.unresolved_lookUp sound, Undefined, and_iff_right other]
  · rw [mem_globalWritesBefore sound]
    constructor
    · rintro ⟨e, member, ⟨k, f, reaches, found, assigned⟩, below, opens⟩
      exact ⟨⟨e.ordinal, k⟩, f, ⟨e, member, rfl, below, ⟨k, rfl, Or.inl reaches⟩, opens⟩,
        ⟨e, member, rfl, k, rfl, found⟩, assigned⟩
    · rintro ⟨u, f, ⟨e, member, own, below, ⟨k, index, reaches⟩, opens⟩,
        ⟨a, among, ordinal, j, place, found⟩, assigned⟩
      obtain rfl := sound.eq_of_ordinal among member (ordinal.trans own.symm)
      obtain rfl : k = j := Int.ofNat.inj (index.symm.trans place)
      rcases reaches with reaches | anything
      · exact ⟨a, among, ⟨k, f, reaches, found, assigned⟩, below, opens⟩
      · exact absurd ⟨k, f, anything, found, assigned⟩ (not_mayAssign reachable omits among written)

/-- A session that gives a name to a function, imports all that a module has, and may give the name
to another function. -/
def redefining : Log :=
  (Log.empty ⟨∅, ∅⟩ id ⟨0, 0⟩).runAll
    [⟨"a", "f = 0", none, []⟩, ⟨"b", "def f():\n    global n\n    n = 1", none, []⟩,
      ⟨"c", "from m import *", none, []⟩,
      ⟨"d", "if c:\n    def f():\n        global k\n        k = 2", none, []⟩]

/-- The name may come from the second function, the import or the first function, but not from the
assignment that this one has replaced; and calling it may assign what either function assigns. -/
theorem lookUp_live_redefining : redefining.Reachable ∧ "f" ≠ Flow.allNames ∧
    redefining.Omits Flow.allNames ∧ redefining.Live 5 "f" ⟨4, 1⟩ ∧ redefining.Live 5 "f" ⟨3, 0⟩ ∧
    redefining.Live 5 "f" ⟨2, 0⟩ ∧ ¬ redefining.Live 5 "f" ⟨1, 0⟩ ∧
    ∀ written ∈ ["n", "k"], ∃ u f, redefining.Live 5 "f" u ∧ redefining.Holds u f ∧
    written ∈ f.globalWrites := by
  have reachable : redefining.Reachable := (Reachable.start _ _ _).runAll _
  have other : "f" ≠ Flow.allNames := by decide
  have omits : redefining.Omits Flow.allNames := by
    have read : ∀ e ∈ redefining.executions, (match e.content with
        | .ok p => !p.tree.identifiers.contains Flow.allNames
        | .error _ => true) = true := by decide +kernel
    intro e member p content
    have absent := read e member
    rw [content] at absent
    simpa using absent
  obtain ⟨found, _, _, assigned⟩ := lookUp_live reachable true 5 ⟨5, 0⟩ other
  have goals : .statement ⟨4, 1⟩ ∈ (Slice.Scene.lookUp ⟨redefining, true⟩ 5 ⟨5, 0⟩ "f").goals ∧
      .statement ⟨3, 0⟩ ∈ (Slice.Scene.lookUp ⟨redefining, true⟩ 5 ⟨5, 0⟩ "f").goals ∧
      .statement ⟨2, 0⟩ ∈ (Slice.Scene.lookUp ⟨redefining, true⟩ 5 ⟨5, 0⟩ "f").goals ∧
      .statement ⟨1, 0⟩ ∉ (Slice.Scene.lookUp ⟨redefining, true⟩ 5 ⟨5, 0⟩ "f").goals ∧
      ∀ written ∈ ["n", "k"], written ∈ redefining.globalWritesBefore "f" 5 := by decide +kernel
  obtain ⟨second, imported, first, replaced, writes⟩ := goals
  refine ⟨reachable, other, omits, (found _).mp second, (found _).mp imported, (found _).mp first,
    (found _).not.mp replaced, fun written member => ?_⟩
  exact (assigned omits written).mp (writes written member)

end Log

end Lineage
