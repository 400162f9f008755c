import Lineage.Proofs.Flow.Source
import Lineage.Proofs.Slice.Integrity

/-!
Calls see what reaches them. Where calls are followed, a slice that holds a statement and a function
or class that the statement reads also holds whatever the names that the body reads may get where
the statement is entered. That is as much as the statement itself would get from the names, as far
as it reads them there; what it reads later, such as the test of a `while` loop when the loop comes
round, may get more.
-/

namespace Lineage

open List Flow

namespace Log

/-- The statements that a name which a statement reads may come from: those of the same execution
that its edges on data come from, and those of earlier executions that define a name it reads from
outside. -/
inductive Uses (l : Log) (t : Timestamp) (f : StatementFacts) : Timestamp → Prop where
  | data {e : Execution} {r : Result} {edge : Edge} {source : StatementFacts} : e ∈ l.executions →
      e.ordinal = t.ordinal → e.facts? = some r → edge ∈ f.inbound → edge.kind = .data →
      r.at? edge.source = some source → Uses l t f ⟨t.ordinal, source.index⟩
  | external {name : String} {u : Timestamp} : name ∈ f.external → l.Defines t.ordinal name u →
      Uses l t f u

end Log

namespace Slice

variable {s : Scene} {seeds : List Goal} {t u : Timestamp} {f d : StatementFacts}

section Uses

variable (sound : s.log.Sound)

include sound

/-- A statement leads to the needs of what it uses, there where it stands. -/
theorem need_of_uses (holds : s.log.Holds t f) (uses : s.log.Uses t f u) {g : Goal}
    (need : g ∈ s.need (some t) u) : g ∈ (s.follow (.statement t)).goals := by
  refine Scene.mem_goals_statement.mpr ⟨f, (Scene.statement?_eq_some sound).mpr holds, ?_⟩
  cases uses with
  | @data e r edge source among own facts member kind found =>
    refine Or.inl ⟨edge, member, _, ?_, by rwa [if_pos kind]⟩
    rw [Scene.sources, ← own, sound.at?_ordinal among]
    simp only [Option.bind_some, facts, found, Option.toList_some, map_cons, map_nil,
      List.mem_singleton]
  | external among defines => exact Or.inr ⟨_, among, u, (Scene.mem_found sound).mpr defines, need⟩

/-- With calls followed, the body of what a statement uses is taken to run where the statement
stands, and what the names that it reads may get there is needed too. -/
theorem reached_of_uses (atCall : s.atCall = true) (holds : s.log.Holds t f)
    (reached : Reached s seeds (.statement t)) (uses : s.log.Uses t f u)
    (defined : s.log.Holds u d) : Reached s seeds (.statement u) ∧
    ∀ v ∈ d.free, ∀ w, s.log.Resolves t v w → Reached s seeds (.statement w) := by
  have lead : ∀ g ∈ s.need (some t) u, Reached s seeds g := fun g need =>
    reached.follow (need_of_uses sound holds uses need)
  have own : s.statement? u = some d := (Scene.statement?_eq_some sound).mpr defined
  refine ⟨lead _ (Scene.mem_need.mpr ⟨d, own, Or.inl rfl⟩), fun v reads w resolves => ?_⟩
  have called := lead _ (Scene.call_mem_need sound defined reads (Or.inl ⟨atCall, rfl⟩))
  obtain ⟨g, found⟩ := Scene.holds_of_resolves sound resolves
  refine called.follow (Scene.mem_goals_call.mpr ⟨d, own, v, reads, w, ?_, ?_⟩)
  · exact (Scene.mem_resolved sound (.statement holds)).mpr resolves
  · exact Scene.mem_need.mpr ⟨g, (Scene.statement?_eq_some sound).mpr found, Or.inl rfl⟩

end Uses

end Slice

/-- **Calls see what reaches them.** Take a slice with calls followed, a statement in it that was
reached by some state, and a function or class that the statement uses. The function or class is in
the slice, and for each name that its body reads, so is every statement of the execution that
reaches the name where the statement is entered. Hence a statement that is entered in the same
state, with other expressions perhaps, gets the name from nothing else, unless it reads the name
late. -/
theorem Log.slice_calls {l : Log} (reachable : l.Reachable) {e : Execution}
    (member : e ∈ l.executions) {r : Result} (facts : e.facts? = some r)
      (lines : Option (List Int)) : ∃ c slice, c = Slice.closureOf ⟨l, true⟩ e
      ((lines.map r.onLines).getD r.statements.toList) ∧ l.slice true e lines = .ok slice ∧
      (∀ t ∈ c.included, ∀ f, l.Holds t f →
        ∃ part ∈ slice.parts, part.ordinal = t.ordinal ∧ ∀ line, f.coversLine line = true →
        part.HasLine line) ∧
      ∀ t ∈ c.included, ∀ f, l.Holds t f → ∀ u d, l.Uses t f u → l.Holds u d → u ∈ c.included ∧
        ∀ v ∈ d.free, (∀ other k, .statement k ∈ f.reaching other → other = v ∨
          other = Flow.allNames ∨ v = Flow.allNames → ⟨t.ordinal, k⟩ ∈ c.included) ∧
        ∀ writes tree (r' : Result), analyze l.settings writes tree = .ok r' →
          ∀ g ∈ r'.statements, g.entry = f.entry →
          ∀ edge ∈ g.inbound, edge.kind = .data → edge.name = some v ∨ v = Flow.allNames →
          (∀ name ∈ l.settings.lateNames g.node, edge.name ≠ some name ∧ name ≠ Flow.allNames) →
          ∃ (k : Nat) (h : StatementFacts), r'.statements[k]? = some h ∧ h.location = edge.source ∧
          ⟨t.ordinal, k⟩ ∈ c.included := by
  let s : Slice.Scene := ⟨l, true⟩
  have sound : s.log.Sound := reachable.sound
  obtain ⟨c, closure, made⟩ := slice_parsed sound member facts true lines
  obtain ⟨more, underway, _⟩ :=
    Slice.underway_closureOf sound member ((lines.map r.onLines).getD r.statements.toList)
  rw [← closure] at underway
  have included : ∀ {t : Timestamp}, t ∈ c.included ↔ Slice.Reached s _ (.statement t) :=
    Slice.Closure.has_statement.symm.trans underway.has_iff
  refine ⟨c, _, closure, made, fun t kept f holds => ?_, fun t kept f holds u d uses defined => ?_⟩
  · obtain ⟨part, among, same⟩ := Slice.exists_part sound kept holds
    refine ⟨part, among, same, fun line covers => (Slice.hasLine_iff sound among).mpr ?_⟩
    have there := (Slice.mem_parts sound among).1
    obtain ⟨listed, rfl⟩ := sound.mem_of_holds there holds same.symm
    exact ⟨f, listed, kept, covers⟩
  · obtain ⟨own, resolved⟩ := Slice.reached_of_uses sound rfl holds (included.mp kept) uses defined
    refine ⟨included.mpr own, fun v reads => ?_⟩
    have here : ∀ other k, .statement k ∈ f.reaching other → other = v ∨ other = Flow.allNames ∨
        v = Flow.allNames → ⟨t.ordinal, k⟩ ∈ c.included := fun other k reaches under =>
      included.mpr (resolved v reads _ (.here (.statement holds) reaches under))
    refine ⟨here, fun writes tree r' analyzed g recorded entry edge among kind under late => ?_⟩
    obtain ⟨name, named, asked | all | ⟨k, h, found, place, reaches⟩⟩ :=
      source_reaches analyzed recorded among kind
    · exact absurd named (late name asked).1
    · exact absurd rfl (late Flow.allNames all).2
    · refine ⟨k, h, found, place.symm, ?_⟩
      rw [StatementFacts.reaching, StatementFacts.reaching, entry] at reaches
      rcases reaches with reaches | reaches
      · refine here name k reaches (under.imp (fun own => ?_) Or.inr)
        exact Option.some.inj (named.symm.trans own)
      · exact here Flow.allNames k reaches (Or.inr (Or.inl rfl))

/-- A session that defines a function, and then calls it after binding the name that the body reads
in two places; the last cell reads the name along with the call. -/
def Log.calling : Log :=
  (Log.empty ⟨∅, ∅⟩ id ⟨0, 0⟩).runAll
    [⟨"a", "def f():\n    return v", none, []⟩,
      ⟨"b", "v = 1\nif v:\n    v = 2\nu = 0\nw = f()", none, []⟩,
      ⟨"c", "v = 1\nif v:\n    v = 2\nu = 0\nw = (f(), v)", none, []⟩]

/-- The call needs both bindings of the name; where the name is read along with the call, it comes
from those too. -/
theorem Log.slice_calls_calling : ∃ e ∈ calling.executions, ∃ r, e.facts? = some r ∧ ∃ c slice,
    c = Slice.closureOf ⟨calling, true⟩ e (r.onLines [5]) ∧ calling.slice true e (some [5]) =
    .ok slice ∧ (∃ f d, calling.Holds ⟨2, 4⟩ f ∧ calling.Uses ⟨2, 4⟩ f ⟨1, 0⟩ ∧
    calling.Holds ⟨1, 0⟩ d ∧ "v" ∈ d.free) ∧ ⟨1, 0⟩ ∈ c.included ∧ ⟨2, 0⟩ ∈ c.included ∧
    ⟨2, 2⟩ ∈ c.included ∧ ∃ g edge, calling.Holds ⟨3, 4⟩ g ∧ edge ∈ g.inbound ∧
      edge.name = some "v" ∧ ∃ k : Nat, ⟨2, k⟩ ∈ c.included ∧ ∃ h, calling.Holds ⟨3, k⟩ h ∧
      h.location = edge.source := by
  have reachable : calling.Reachable := (Reachable.start _ _ _).runAll _
  let s : Slice.Scene := ⟨calling, true⟩
  have sound : s.log.Sound := reachable.sound
  have checked : (∃ e ∈ calling.executions, (e.facts?.any fun r =>
        (Slice.closureOf ⟨calling, true⟩ e (r.onLines [5])).included.contains ⟨2, 4⟩) = true) ∧
      ((s.statement? ⟨2, 4⟩).any fun f => f.external.contains "f" &&
        (f.reaching "v").contains (.statement 0) &&
          (f.reaching "v").contains (.statement 2)) = true ∧
      ((s.statement? ⟨1, 0⟩).any fun d => d.free.contains "v") = true ∧ ⟨1, 0⟩ ∈ s.found 2 "f" ∧
      ((s.statement? ⟨3, 4⟩).any fun g => (s.log.settings.lateNames g.node).isEmpty &&
        g.inbound.any fun edge => edge.kind == .data && edge.name == some "v") = true ∧
      (s.statement? ⟨3, 4⟩).map StatementFacts.entry =
          (s.statement? ⟨2, 4⟩).map StatementFacts.entry := by
    decide +kernel
  obtain ⟨seeded, user, body, defined, reader, alike⟩ := checked
  obtain ⟨e, member, kept⟩ := seeded
  obtain ⟨r, facts, kept⟩ := (Option.any_eq_true _ _).mp kept
  obtain ⟨f, found, user⟩ := (Option.any_eq_true _ _).mp user
  obtain ⟨d, foundD, free⟩ := (Option.any_eq_true _ _).mp body
  obtain ⟨g, foundG, reader⟩ := (Option.any_eq_true _ _).mp reader
  rw [found, foundG] at alike
  simp only [Bool.and_eq_true, any_eq_true, List.isEmpty_iff, beq_iff_eq,
    Std.ExtTreeSet.contains_iff_mem] at kept user free reader
  obtain ⟨⟨external, first⟩, second⟩ := user
  obtain ⟨prompt, edge, member', kind, named⟩ := reader
  have holds := (Slice.Scene.statement?_eq_some sound).mp found
  have holdsD := (Slice.Scene.statement?_eq_some sound).mp foundD
  have holdsG := (Slice.Scene.statement?_eq_some sound).mp foundG
  have uses : calling.Uses ⟨2, 4⟩ f ⟨1, 0⟩ :=
    .external external ((Slice.Scene.mem_found sound).mp defined)
  obtain ⟨c, slice, closure, made, _, calls⟩ := slice_calls reachable member facts (some [5])
  replace kept : ⟨2, 4⟩ ∈ c.included := closure ▸ kept
  obtain ⟨included, reads⟩ := calls ⟨2, 4⟩ kept f holds ⟨1, 0⟩ d uses holdsD
  obtain ⟨here, elsewhere⟩ := reads "v" free
  refine ⟨e, member, r, facts, c, slice, closure, made, ⟨f, d, holds, uses, holdsD, free⟩, included,
    here "v" 0 first (Or.inl rfl), here "v" 2 second (Or.inl rfl), g, edge, holdsG, member',
    named, ?_⟩
  obtain ⟨other, among, own, j, _, listed⟩ := holdsG
  obtain ⟨r', facts'⟩ := Execution.exists_facts (mem_of_getElem? listed)
  obtain ⟨tree, content⟩ := Execution.exists_tree facts'
  obtain ⟨writes, analyzed⟩ := sound.analyzed other among _ content
  have recorded := (Execution.mem_statements facts').mp (mem_of_getElem? listed)
  obtain ⟨k, h, foundH, place, within⟩ :=
    elsewhere writes tree r' analyzed g recorded (Option.some.inj alike) edge member' kind
    (Or.inl named) fun name late => absurd late (by rw [prompt]; exact not_mem_nil)
  refine ⟨k, within, h, ⟨other, among, own, k, rfl, ?_⟩, place⟩
  rw [Execution.statements_eq facts', Array.getElem?_toList, foundH]

/-- A session that counts down to zero, with the count read by a function that the test of the loop
calls; the second cell reads the count in the test itself. -/
def Log.countdown : Log :=
  (Log.empty ⟨∅, ∅⟩ id ⟨0, 0⟩).runAll
    [⟨"a", "v = 3\ndef f():\n    return v\nwhile f():\n    pass\n    v = v - 1", none, []⟩,
      ⟨"b", "v = 3\ndef f():\n    return v\nwhile (f(), v):\n    pass\n    v = v - 1", none, []⟩]

/-- The slice of the loop leaves out what counts down, although the test depends on it as soon as it
reads the count itself. -/
theorem Log.loop_definition_missed : ∃ e ∈ countdown.executions, e.ordinal = 1 ∧
    ∃ r, e.facts? = some r ∧ (Slice.closureOf ⟨countdown, true⟩ e
    (r.onLines [4])).included.toList.map Timestamp.index = [0, 1, 2, 3] ∧
      ∃ f d, countdown.Holds ⟨1, 2⟩ f ∧ countdown.Uses ⟨1, 2⟩ f ⟨1, 1⟩ ∧ countdown.Holds ⟨1, 1⟩ d ∧
        "v" ∈ d.free ∧ ∃ g h, countdown.Holds ⟨2, 2⟩ g ∧ countdown.Holds ⟨2, 4⟩ h ∧
        ⟨.data, h.location, g.location, some "v"⟩ ∈ g.inbound := by
  have reachable : countdown.Reachable := (Reachable.start _ _ _).runAll _
  let s : Slice.Scene := ⟨countdown, true⟩
  have sound : s.log.Sound := reachable.sound
  have checked : (∃ e ∈ countdown.executions, e.ordinal = 1 ∧ (e.facts?.any fun r =>
        (Slice.closureOf ⟨countdown, true⟩ e (r.onLines [4])).included.toList.map Timestamp.index ==
          [0, 1, 2, 3] && r.statements[2]?.any fun f => f.inbound.any fun edge =>
            edge.kind == .data && (r.at? edge.source).map StatementFacts.index == some 1) = true) ∧
      ((s.statement? ⟨1, 1⟩).any fun d => d.free.contains "v") = true ∧
      ((s.statement? ⟨2, 2⟩).any fun g => (s.statement? ⟨2, 4⟩).any fun h =>
        g.inbound.contains ⟨.data, h.location, g.location, some "v"⟩) = true := by
    decide +kernel
  obtain ⟨sliced, body, reader⟩ := checked
  obtain ⟨e, member, ordinal, sliced⟩ := sliced
  obtain ⟨r, facts, sliced⟩ := (Option.any_eq_true _ _).mp sliced
  obtain ⟨d, foundD, free⟩ := (Option.any_eq_true _ _).mp body
  obtain ⟨g, foundG, reader⟩ := (Option.any_eq_true _ _).mp reader
  obtain ⟨h, foundH, reader⟩ := (Option.any_eq_true _ _).mp reader
  simp only [Bool.and_eq_true, Option.any_eq_true, any_eq_true, beq_iff_eq,
    Option.map_eq_some_iff] at sliced
  obtain ⟨indices, f, found, edge, among, kind, source, foundS, index⟩ := sliced
  refine ⟨e, member, ordinal, r, facts, indices, f, d, ?_, ?_,
    (Slice.Scene.statement?_eq_some sound).mp foundD, Std.ExtTreeSet.contains_iff_mem.mp free, g, h,
    (Slice.Scene.statement?_eq_some sound).mp foundG,
    (Slice.Scene.statement?_eq_some sound).mp foundH, contains_iff_mem.mp reader⟩
  · refine ⟨e, member, ordinal, 2, rfl, ?_⟩
    rw [Execution.statements_eq facts, Array.getElem?_toList, found]
  · have uses := Log.Uses.data (l := countdown) (t := ⟨1, 2⟩) member ordinal facts among kind foundS
    rwa [index] at uses

end Lineage
