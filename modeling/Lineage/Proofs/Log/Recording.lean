import Lineage.Proofs.Grammar.Statement
import Lineage.Proofs.Log.History
import Lineage.Proofs.Tree.Build

/-!
Recording never fails. Whatever the text of a cell is, its tree is one that has an analysis, and one
execution is added to the log.
-/

namespace Lineage

open List Flow

/-- The tree of a text is in order, and statements stand in all places of statements. -/
theorem Node.wellFormed_parse {text : String} {tree : Node} (parses : Node.parse text = .ok tree) :
    tree.WellFormed ∧ ∀ s, Seat tree.code s → s.kind.isStatement = true := by
  unfold Node.parse at parses
  split at parses
  · exact nomatch parses
  · rename_i m reads
    cases parses
    exact wellFormed_ofModule fun s member => (Grammar.sound_parse reads s member).shaped

/-- The tree of a text has an analysis. -/
theorem Flow.analyze_parse {text : String} {tree : Node} (parses : Node.parse text = .ok tree)
    (settings : Settings) (writes : GlobalWrites) : ∃ r, analyze settings writes tree = .ok r := by
  obtain ⟨wellFormed, statements⟩ := Node.wellFormed_parse parses
  rcases analyze_cases settings writes wellFormed with ⟨found, _⟩ | ⟨s, seat, other, _⟩
  · exact found
  · rw [statements s seat] at other
    exact nomatch other

namespace Log

variable (l : Log)

theorem read_total (source : String) (ordinal : Int) :
    ∃ content, l.read source ordinal = .ok content ∧
    ((∃ p, content = .ok p) ↔ ∃ tree, Node.parse source = .ok tree) := by
  unfold read
  cases parsed : Node.parse source with
  | error e => exact ⟨_, rfl, by simp, by simp⟩
  | ok tree =>
    obtain ⟨facts, analyzed⟩ := analyze_parse parsed l.settings (l.calledWrites tree ordinal)
    simp only [analyzed]
    exact ⟨.ok ⟨tree, facts⟩, rfl, fun _ => ⟨tree, rfl⟩, fun _ => ⟨_, rfl⟩⟩

/-- A cell is recorded as one execution at the end of the log. -/
theorem record_total (cell : Notebook.Cell) : ∃ l' e, l.record cell = .ok (l', e) ∧
    l'.executions = l.executions ++ [e] ∧ e.text = cell.text ∧ e.source = l.plain cell.text ∧
    (e.isParsed = true ↔ ∃ tree, Node.parse e.source = .ok tree) := by
  obtain ⟨content, reads, parsed⟩ :=
    l.read_total (l.plain cell.text) (l.lastOrdinal + 1)
  have executes : ∃ e, l.execute cell (l.lastOrdinal + 1) = .ok e ∧ e.ordinal = l.lastOrdinal + 1 ∧
      e.text = cell.text ∧ e.source = l.plain cell.text ∧
      e.content = content := by
    unfold execute
    simp only [reads, Except.map]
    exact ⟨_, rfl, rfl, rfl, rfl, rfl⟩
  obtain ⟨e, executes, ordinal, text, source, same⟩ := executes
  have appends : ∃ l', l.append e = .ok l' ∧ l'.executions = l.executions ++ [e] := by
    unfold append
    rw [if_neg (by omega)]
    exact ⟨_, rfl, rfl⟩
  obtain ⟨l', appends, executions⟩ := appends
  refine ⟨l', e, ?_, executions, text, source, ?_⟩
  · rw [record, recordAt, executes]
    simp [Except.mapError, bind, Except.bind, appends]
    rfl
  · rw [source, ← parsed, ← same]
    cases found : e.content <;> simp [Execution.isParsed, Execution.facts?, found, Except.toOption]

/-- **Every text is recorded.** The tree of a module has its expressions and decorators in order and
statements in all places of statements, if the module is shaped, and every module that is read from
a text is. A tree whose expressions and decorators are in order is refused, as something that is no
statement, just if such a thing stands in the place of a statement at any depth; any other one has
an analysis, whatever is known of calls. So recording a cell never fails: it adds one execution at
the end of the log, which has facts just if its source can be read. A source that names a character
in full counts as one that cannot. -/
theorem record_of_any_text :
    (∀ (src : Source) (m : Grammar.Module), (∀ s ∈ m.body, s.Shaped) →
      (Node.ofModule src m).WellFormed ∧ ∀ s, Node.Seat (Node.ofModule src m).code s →
      s.kind.isStatement = true) ∧
    (∀ (text : String) (m : Grammar.Module), Grammar.Module.parse text = .ok m →
      ∀ s ∈ m.body, s.Shaped) ∧
    (∀ (settings : Settings) (writes : GlobalWrites) (n : Node), n.WellFormed →
      ((∃ kind, analyze settings writes n = .error (.notStatement kind)) ↔
        ∃ s, Node.Seat n.code s ∧ s.kind.isStatement = false) ∧
      ((∀ kind, analyze settings writes n ≠ .error (.notStatement kind)) →
        ∃ r, analyze settings writes n = .ok r)) ∧
    ∀ (l : Log) (cell : Notebook.Cell), ∃ l' e, l.record cell = .ok (l', e) ∧
      l'.executions = l.executions ++ [e] ∧ e.text = cell.text ∧ e.source = l.plain cell.text ∧
      (e.isParsed = true ↔ ∃ tree, Node.parse e.source = .ok tree) := by
  refine ⟨fun src m => Node.wellFormed_ofModule,
    fun text m reads s member => (Grammar.sound_parse reads s member).shaped, ?_, record_total⟩
  intro settings writes n wellFormed
  rcases analyze_cases settings writes wellFormed with ⟨⟨r, found⟩, statements⟩ | ⟨s, seat, other,
    refused⟩
  · refine ⟨⟨fun ⟨kind, refused⟩ => ?_, fun ⟨s, seat, other⟩ => ?_⟩, fun _ => ⟨r, found⟩⟩
    · rw [found] at refused
      exact nomatch refused
    · rw [statements s seat] at other
      exact nomatch other
  · exact ⟨⟨fun _ => ⟨s, seat, other⟩, fun _ => ⟨s.kind, refused⟩⟩, fun none => absurd refused
      (none s.kind)⟩

/-- A class in whose body a bare name stands. -/
def strayClass : Node :=
  .classDef default "C" default [] [] [.name default "stray"]

/-- A decorated function in whose body that class stands. -/
def strayFunction : Node :=
  .decorated default [.decorator default (.name default "cached")]
    (.function default "f" default [] none [strayClass] false)

theorem seat_stray {s : Node} (seat : Node.Seat [strayFunction] s) :
    s = strayFunction ∨ s = strayClass ∨ s = .name default "stray" := by
  induction seat with
  | top member => exact Or.inl (List.mem_singleton.mp member)
  | inside _ body ih =>
    rcases ih with rfl | rfl | rfl
    · exact Or.inr (Or.inl (List.mem_singleton.mp body))
    · exact Or.inr (Or.inr (List.mem_singleton.mp body))
    · exact absurd body not_mem_nil

theorem wellFormed_stray : (Node.module default [strayFunction]).WellFormed where
  made := by simp [strayFunction, strayClass, Node.nodes_eq, Node.children, Node.WellMade,
    Node.kind]
  expressions s seat := by
    rcases seat_stray seat with rfl | rfl | rfl
    · refine forall_mem_singleton.mpr (.of_expression trivial rfl (forall_mem_singleton.mpr ?_))
      exact .of_expression trivial rfl (forall_mem_nil _)
    · exact forall_mem_nil _
    · exact forall_mem_nil _

/-- The analysis refuses the bare name, two bodies deep, and recording a text that cannot be read
adds an execution. -/
theorem record_of_any_text_stray :
    (∃ kind, analyze .standard ∅ (.module default [strayFunction]) = .error (.notStatement kind)) ∧
    ∃ l' e, (empty .standard id ⟨0, 0⟩).record ⟨"a", "def g(:", none, []⟩ = .ok (l', e) ∧
      l'.executions = [e] ∧ e.isParsed = false := by
  obtain ⟨-, -, analyzed, recorded⟩ := record_of_any_text
  obtain ⟨l', e, made, executions, -, source, parsed⟩ :=
    recorded (empty .standard id ⟨0, 0⟩) ⟨"a", "def g(:", none, []⟩
  refine ⟨((analyzed .standard ∅ _ wellFormed_stray).1).mpr ⟨.name default "stray", ?_, rfl⟩, l', e,
    made, executions, ?_⟩
  · have top : Node.Seat [strayFunction] strayFunction := .top (mem_singleton_self _)
    have inner : Node.Seat [strayFunction] strayClass := .inside top (mem_singleton_self _)
    exact .inside inner (mem_singleton_self _)
  · have refused : (Node.parse "def g(:").isOk = false := by decide +kernel
    refine Bool.eq_false_iff.mpr fun known => ?_
    obtain ⟨tree, reads⟩ := parsed.mp known
    have same : e.source = "def g(:" := source
    rw [same] at reads
    rw [reads] at refused
    exact nomatch refused

end Log

end Lineage
