import Lineage.Proofs.Slice.Past

/-!
What a slice leaves of each execution is a program again. When nothing is missing from a closure,
its statements come with the statements around them, no block of them is left empty, loops keep
their jumps, and statements that share a line stay together.
-/

namespace Lineage

open List Flow

variable {e : Execution} {f g : StatementFacts} {k line : Int} {n : Node}

theorem Log.Distinct.eq_of_location {l : Log} (distinct : l.Distinct) (member : e ∈ l.executions)
    (first : f ∈ e.statements) (second : g ∈ e.statements) (same : f.location = g.location) :
    f = g :=
  inj_on_of_nodup_map (distinct e member) first second same

namespace Slice

/-- A statement of an execution is included in a closure. -/
def Closure.Keeps (c : Closure) (e : Execution) (n : Node) : Prop :=
  ∃ f ∈ e.statements, f.node = n ∧ ⟨e.ordinal, f.index⟩ ∈ c.included

/-- The statements that a closure keeps of an execution make up a program: the statement around a
kept one is kept; a kept statement has a kept one in each of its blocks that is not empty; a kept
loop has its jumps; and of the statements on a line all are kept or none. -/
structure Closure.Whole (c : Closure) (e : Execution) (code : List Node) : Prop where
  around : ∀ n ∈ Node.blockStatements code, ∀ block ∈ n.clauseBlocks, ∀ m ∈ block.2, c.Keeps e m →
    c.Keeps e n
  blocks : ∀ n ∈ Node.blockStatements code, c.Keeps e n → ∀ block ∈ n.clauseBlocks, block.2 ≠ [] →
    ∃ m ∈ block.2, c.Keeps e m
  jumps : ∀ n ∈ Node.blockStatements code, c.Keeps e n → ∀ m ∈ n.loopJumps, c.Keeps e m
  lines : ∀ f ∈ e.statements, ∀ g ∈ e.statements, ∀ line, f.coversLine line = true →
    g.coversLine line = true → ⟨e.ordinal, f.index⟩ ∈ c.included → ⟨e.ordinal, g.index⟩ ∈ c.included

theorem sharesLine_iff : sharesLine f g = true ↔ ∃ line, f.coversLine line = true ∧
    g.coversLine line = true := by
  simp only [sharesLine, any_eq_true, decide_eq_true_eq, StatementFacts.coversLine_iff]
  constructor
  · rintro ⟨first, among, second, amongG, overlap⟩
    exact ⟨max first.1 second.1, ⟨first, among, by omega, by omega⟩, second,
      amongG, by omega, by omega⟩
  · rintro ⟨line, ⟨first, among, _, _⟩, second, amongG, _, _⟩
    exact ⟨first, among, second, amongG, by omega⟩

section Tree

variable {s : Scene} {c : Closure} {e : Execution} {p : Parsed} (sound : s.log.Sound)
  (distinct : s.log.Distinct) (member : e ∈ s.log.executions) (content : e.content = .ok p)

include content

theorem mem_statements : f ∈ e.statements ↔ f ∈ p.facts.statements :=
  Execution.mem_statements (Execution.facts?_eq content)

include sound member

theorem regular_content : p.facts.Regular :=
  sound.regular member (Execution.facts?_eq content)

/-- Every statement of the tree has facts. -/
theorem exists_facts (among : n ∈ Node.blockStatements p.tree.code) :
    ∃ f ∈ e.statements, f.node = n := by
  obtain ⟨writes, analyzed⟩ := sound.analyzed e member p content
  rw [← nodes_analyze analyzed] at among
  obtain ⟨f, listed, node⟩ := mem_map.mp among
  exact ⟨f, (mem_statements content).mpr (Array.mem_toList_iff.mp listed), node⟩

omit sound

include distinct

/-- Looking statements up by their places finds them. -/
theorem mem_indicesAt {nodes : List Node} (all : ∀ n ∈ nodes, ∃ f ∈ e.statements, f.node = n) :
    k ∈ indicesAt p.facts nodes ↔ ∃ n ∈ nodes, ∃ f ∈ e.statements, f.node = n ∧
    (f.index : Int) = k := by
  have apart := distinct e member
  rw [Execution.statements_eq (Execution.facts?_eq content)] at apart
  simp only [indicesAt, mem_filterMap, Option.map_eq_some_iff, Result.at?_eq_some apart,
    ← mem_statements content]
  constructor
  · rintro ⟨n, among, f, ⟨listed, place⟩, index⟩
    obtain ⟨g, listedG, rfl⟩ := all n among
    obtain rfl := distinct.eq_of_location member listedG listed place.symm
    exact ⟨g.node, among, g, listedG, rfl, index⟩
  · rintro ⟨n, among, f, listed, rfl, index⟩
    exact ⟨f.node, among, f, ⟨listed, rfl⟩, index⟩

end Tree

section Settled

variable {s : Scene} {c : Closure} {e : Execution} {p : Parsed} (sound : s.log.Sound)
  (distinct : s.log.Distinct) (member : e ∈ s.log.executions) (content : e.content = .ok p)

include sound member content

/-- What is missing beside an included statement is included, once nothing joins any more. -/
theorem included_of_missing (settled : c.joining s = []) (kept : ⟨e.ordinal, f.index⟩ ∈ c.included)
    (lacking : k ∈ missingIn p.facts (c.indicesOf e.ordinal)) : ⟨e.ordinal, k⟩ ∈ c.included := by
  by_contra fresh
  have missing : ⟨e.ordinal, k⟩ ∈ c.missing s :=
    (Closure.mem_missing sound).mpr ⟨e, member, rfl, ⟨_, kept, rfl⟩, p.facts,
      Execution.facts?_eq content, lacking⟩
  have joins := Closure.mem_joining.mpr ⟨missing, fresh⟩
  rw [settled] at joins
  exact not_mem_nil joins

/-- What an included statement brings along is included. -/
theorem included_of_brought (settled : c.joining s = []) (listed : f ∈ e.statements)
    (kept : ⟨e.ordinal, f.index⟩ ∈ c.included)
    (brought : k ∈ broughtAlong p.facts (c.indicesOf e.ordinal) f) :
    ⟨e.ordinal, k⟩ ∈ c.included := by
  refine included_of_missing sound member content settled kept (mem_append_left _ ?_)
  refine mem_flatMap.mpr ⟨f, mem_filter.mpr ⟨?_, ?_⟩, brought⟩
  · exact Array.mem_toList_iff.mpr ((mem_statements content).mp listed)
  · exact contains_iff_mem.mpr (Closure.mem_indicesOf.mpr kept)

theorem included_of_line (settled : c.joining s = []) (listed : f ∈ e.statements)
    (listedG : g ∈ e.statements)
    (covers : f.coversLine line = true) (coversG : g.coversLine line = true)
    (kept : ⟨e.ordinal, f.index⟩ ∈ c.included) : ⟨e.ordinal, g.index⟩ ∈ c.included := by
  by_cases already : ⟨e.ordinal, g.index⟩ ∈ c.included
  · exact already
  · refine included_of_missing sound member content settled kept (mem_append_right _ ?_)
    rw [mem_statements content, ← Array.mem_toList_iff] at listed listedG
    refine mem_map.mpr ⟨g, mem_filter.mpr ⟨mem_filter.mpr ⟨listedG, ?_⟩, ?_⟩, rfl⟩
    · rw [Bool.not_eq_true', contains_eq_mem, decide_eq_false_iff_not, Closure.mem_indicesOf]
      exact already
    · refine any_eq_true.mpr ⟨f, mem_filter.mpr ⟨listed, ?_⟩,
        sharesLine_iff.mpr ⟨line, coversG, covers⟩⟩
      exact contains_iff_mem.mpr (Closure.mem_indicesOf.mpr kept)

include distinct

/-- A statement in a block depends on the statement around, which is therefore included with it. -/
theorem keeps_around {seeds : List Goal} (underway : Underway s seeds [] c) {m : Node}
    (among : n ∈ Node.blockStatements p.tree.code) {block : Block}
    (inBlock : block ∈ n.clauseBlocks) (inside : m ∈ block.2) (kept : c.Keeps e m) :
    c.Keeps e n := by
  obtain ⟨f, listed, rfl, included⟩ := kept
  obtain ⟨g, listedG, rfl⟩ := exists_facts sound member content among
  have regular := regular_content sound member content
  obtain ⟨h, listedH, node, edge⟩ := regular.blocks g ((mem_statements content).mp listedG) block
    inBlock _ inside
  obtain rfl : f = h := by
    refine distinct.eq_of_location member listed ((mem_statements content).mpr listedH) ?_
    rw [StatementFacts.location, StatementFacts.location, node]
  have holds := sound.holds_of_mem member listed
  have holdsG := sound.holds_of_mem member listedG
  refine ⟨g, listedG, rfl, Closure.has_statement.mp ?_⟩
  rw [← Closure.has_statement, underway.has_iff] at included
  rw [underway.has_iff]
  refine .follow included (Scene.mem_goals_statement.mpr
    ⟨f, (Scene.statement?_eq_some sound).mpr holds, Or.inl ?_⟩)
  refine ⟨_, edge, _, (Scene.mem_sources sound distinct holds).mpr ⟨g, holdsG, rfl, rfl⟩, ?_⟩
  exact Scene.mem_need.mpr ⟨g, (Scene.statement?_eq_some sound).mpr holdsG, Or.inl rfl⟩

theorem keeps_block (settled : c.joining s = []) (kept : c.Keeps e n) {block : Block}
    (inBlock : block ∈ n.clauseBlocks) (nonempty : block.2 ≠ []) : ∃ m ∈ block.2, c.Keeps e m := by
  obtain ⟨f, listed, rfl, included⟩ := kept
  have regular := regular_content sound member content
  have all : ∀ m ∈ block.2, ∃ g ∈ e.statements, g.node = m := by
    intro m inside
    obtain ⟨g, listedG, node, _⟩ := regular.blocks f ((mem_statements content).mp listed) block
      inBlock m inside
    exact ⟨g, (mem_statements content).mpr listedG, node⟩
  have keeps : ∀ k ∈ indicesAt p.facts block.2, ⟨e.ordinal, k⟩ ∈ c.included →
      ∃ m ∈ block.2, c.Keeps e m := by
    intro k found included
    obtain ⟨m, inside, g, listedG, node, rfl⟩ :=
      (mem_indicesAt distinct member content all).mp found
    exact ⟨m, inside, g, listedG, node, included⟩
  by_cases needed : (indicesAt p.facts block.2).any (c.indicesOf e.ordinal).contains = true
  · obtain ⟨k, found, contained⟩ := any_eq_true.mp needed
    exact keeps k found (Closure.mem_indicesOf.mp (contains_iff_mem.mp contained))
  · -- The block would be left empty, so its first statement joins.
    obtain ⟨m, inside⟩ := exists_mem_of_ne_nil _ nonempty
    obtain ⟨g, listedG, node⟩ := all m inside
    have found := (mem_indicesAt distinct member content all).mpr ⟨m, inside, g, listedG, node, rfl⟩
    obtain ⟨k, others, indices⟩ := exists_cons_of_ne_nil (ne_nil_of_mem found)
    have lacking : missingFrom p.facts (c.indicesOf e.ordinal) block.2 = some k := by
      simp only [missingFrom]
      rw [if_neg needed, indices, head?_cons]
    have first : k ∈ indicesAt p.facts block.2 := by
      rw [indices]
      exact mem_cons_self ..
    refine keeps k first (included_of_brought sound member content settled listed included
      (mem_append_left _ ?_))
    exact mem_filterMap.mpr ⟨block, inBlock, lacking⟩

theorem keeps_jump (settled : c.joining s = []) {m : Node} (kept : c.Keeps e n)
    (jump : m ∈ n.loopJumps) :
    c.Keeps e m := by
  obtain ⟨f, listed, rfl, included⟩ := kept
  have regular := regular_content sound member content
  have all : ∀ m ∈ f.node.loopJumps, ∃ g ∈ e.statements, g.node = m := by
    intro m inside
    obtain ⟨g, listedG, node⟩ := regular.inner f ((mem_statements content).mp listed) m
      (f.node.loopJumps_subset inside)
    exact ⟨g, (mem_statements content).mpr listedG, node⟩
  obtain ⟨g, listedG, rfl⟩ := all m jump
  refine ⟨g, listedG, rfl, ?_⟩
  by_cases already : ⟨e.ordinal, g.index⟩ ∈ c.included
  · exact already
  · refine included_of_brought sound member content settled listed included (mem_append_right _ ?_)
    refine mem_filter.mpr ⟨(mem_indicesAt distinct member content all).mpr
      ⟨_, jump, g, listedG, rfl, rfl⟩, ?_⟩
    rw [Bool.not_eq_true', contains_eq_mem, decide_eq_false_iff_not, Closure.mem_indicesOf]
    exact already

/-- Once all is followed and nothing joins any more, what is kept of an execution is a program. -/
theorem whole_of_settled {seeds : List Goal} (underway : Underway s seeds [] c)
    (settled : c.joining s = []) : c.Whole e p.tree.code where
  around _ among _ inBlock _ inside kept :=
    keeps_around sound distinct member content underway among inBlock inside kept
  blocks _ _ kept _ inBlock nonempty :=
    keeps_block sound distinct member content settled kept inBlock nonempty
  jumps _ _ kept _ jump := keeps_jump sound distinct member content settled kept jump
  lines _ listed _ listedG _ covers coversG kept :=
    included_of_line sound member content settled listed listedG covers coversG kept

end Settled

/-- The closure of some statements of an execution is what they and the statements that joined them
need, and nothing is missing from it. -/
theorem underway_closureOf {s : Scene} (sound : s.log.Sound) (member : e ∈ s.log.executions)
    (seeds : List StatementFacts) : ∃ more : List Timestamp,
      Underway s ((Scene.stampsIn e seeds).flatMap (s.need (some (Scene.exitSite e))) ++
        more.flatMap (s.need none)) [] (closureOf s e seeds) ∧ (closureOf s e seeds).joining s =
        [] := by
  have point : ∀ p ∈ some (Scene.exitSite e), s.log.Point p := by
    intro p own
    obtain rfl := Option.mem_some.mp own
    exact Log.point_exitSite member
  have start := Scene.underway_require sound point (Scene.stampsIn e seeds) (underway_empty s [])
  exact Closure.underway_complete sound start (Nat.lt_succ_of_le Closure.absent_le)

theorem seed_mem_closureOf {s : Scene} (sound : s.log.Sound) (member : e ∈ s.log.executions)
    {seeds : List StatementFacts} (seed : f ∈ seeds) (listed : f ∈ e.statements) :
    ⟨e.ordinal, f.index⟩ ∈ (closureOf s e seeds).included := by
  obtain ⟨more, underway, _⟩ := underway_closureOf sound member seeds
  rw [← Closure.has_statement, underway.has_iff]
  refine .seed (mem_append_left _ (mem_flatMap.mpr ⟨_, mem_map_of_mem seed, ?_⟩))
  have holds := sound.holds_of_mem member listed
  exact Scene.mem_need.mpr ⟨f, (Scene.statement?_eq_some sound).mpr holds, Or.inl rfl⟩

end Slice

/-- A line is one of those that a part of a slice has. -/
def CellSlice.HasLine (part : CellSlice) (line : Int) : Prop :=
  ∃ r ∈ part.ranges, line ∈ r.lines

namespace Slice

section Parts

variable {s : Scene} {c : Closure} (sound : s.log.Sound) {part : CellSlice}
  (among : part ∈ partsOf (rangesOf s c))

include sound among

/-- A part has the lines of the included statements of its execution. -/
theorem hasLine_iff : part.HasLine line ↔
    ∃ f ∈ part.execution.statements, ⟨part.ordinal, f.index⟩ ∈ c.included ∧
    f.coversLine line = true := by
  obtain ⟨member, _, lines⟩ := mem_parts sound among
  rw [CellSlice.HasLine, lines]
  constructor
  · rintro ⟨t, included, same, f, holds, covers⟩
    obtain ⟨listed, rfl⟩ := sound.mem_of_holds member holds same
    exact ⟨f, listed, included, covers⟩
  · rintro ⟨f, listed, included, covers⟩
    exact ⟨_, included, rfl, f, sound.holds_of_mem member listed, covers⟩

/-- A statement with a line in a part has all its lines in it. -/
theorem hasLine_of_touches (settled : c.joining s = []) (listed : f ∈ part.execution.statements)
    {other : Int} (covers : f.coversLine line = true) (touches : part.HasLine line)
    (inside : f.coversLine other = true) : part.HasLine other := by
  obtain ⟨member, _⟩ := mem_parts sound among
  obtain ⟨r, facts⟩ := Execution.exists_facts listed
  obtain ⟨tree, content⟩ := Execution.exists_tree facts
  obtain ⟨g, listedG, kept, coversG⟩ := (hasLine_iff sound among).mp touches
  have included := included_of_line sound member content settled listedG listed coversG covers kept
  exact (hasLine_iff sound among).mpr ⟨f, listed, included, inside⟩

end Parts

end Slice

/-- **Slices are structurally complete.** In a history whose executions have their statements at
different places, the slice of an execution that could be read is made of a set of statements that
holds those asked for and that leaves of each execution a program: statements come with the
statements around them, blocks are not left empty, loops keep their jumps, and statements on the
same line stay together. The parts of the slice are the executions with such statements, and a part
has just the lines that they cover, so a statement is on the lines of a part with all its lines or
with none. -/
theorem Log.slice_structure {l : Log} (reachable : l.Reachable) (distinct : l.Distinct)
    {e : Execution} (member : e ∈ l.executions) {r : Result} (facts : e.facts? = some r)
    (atCall : Bool) (lines : Option (List Int)) : ∃ c slice,
      c = Slice.closureOf ⟨l, atCall⟩ e ((lines.map r.onLines).getD r.statements.toList) ∧
      l.slice atCall e lines = .ok slice ∧
      (∀ f ∈ (lines.map r.onLines).getD r.statements.toList, ⟨e.ordinal, f.index⟩ ∈ c.included) ∧
      (∀ other ∈ l.executions, ∀ p, other.content = .ok p → c.Whole other p.tree.code) ∧
      (∀ t ∈ c.included, ∃ part ∈ slice.parts, part.ordinal = t.ordinal) ∧
      ∀ part ∈ slice.parts, part.execution ∈ l.executions ∧
        (∀ line, part.HasLine line ↔
          ∃ f ∈ part.execution.statements, ⟨part.ordinal, f.index⟩ ∈ c.included ∧
          f.coversLine line = true) ∧
        ∀ f ∈ part.execution.statements, ∀ line other, f.coversLine line = true →
          part.HasLine line → f.coversLine other = true → part.HasLine other := by
  let s : Slice.Scene := ⟨l, atCall⟩
  have sound : s.log.Sound := reachable.sound
  obtain ⟨c, closure, made⟩ := slice_parsed sound member facts atCall lines
  obtain ⟨more, underway, settled⟩ :=
    Slice.underway_closureOf sound member ((lines.map r.onLines).getD r.statements.toList)
  have followed := Slice.Scene.followed_closureOf sound member
    ((lines.map r.onLines).getD r.statements.toList)
  rw [← closure] at underway settled followed
  refine ⟨c, _, closure, made, fun f seed => ?_, fun other among p content => ?_,
    fun t included => ?_, fun part among => ?_⟩
  · rw [closure]
    refine Slice.seed_mem_closureOf (s := s) sound member seed
      ((Execution.mem_statements facts).mpr ?_)
    cases lines with
    | none => exact Array.mem_toList_iff.mp seed
    | some lines => exact Array.mem_toList_iff.mp (mem_filter.mp seed).1
  · exact Slice.whole_of_settled sound distinct among content underway settled
  · obtain ⟨f, holds⟩ := followed.holds sound included
    exact Slice.exists_part sound included holds
  · refine ⟨(Slice.mem_parts sound among).1, fun line => Slice.hasLine_iff sound among, ?_⟩
    exact fun f listed line other => Slice.hasLine_of_touches sound among settled listed

/-- A session with a loop that may be left before its end. -/
def Log.leaving : Log :=
  (Log.empty ⟨∅, ∅⟩ id ⟨0, 0⟩).runAll
    [⟨"a", "t = 0\nfor i in [1, 2]:\n    t = i\n    if t:\n        break\nv = 3\nu = t", none, []⟩]

/-- The last line needs what the loop leaves, so the loop comes with its `break` and the branch
around it; the statement before the last line is left out. -/
theorem Log.slice_structure_leaving : leaving.Distinct ∧ ∃ e ∈ leaving.executions, ∃ r p, e.facts? =
    some r ∧ e.content = .ok p ∧ ∃ c slice, c = Slice.closureOf ⟨leaving, true⟩ e (r.onLines [7]) ∧
      leaving.slice true e (some [7]) = .ok slice ∧ c.Whole e p.tree.code ∧
      c.included.toList.map Timestamp.index = [0, 1, 2, 3, 4, 6] := by
  have reachable : leaving.Reachable := (Reachable.start _ _ _).runAll _
  have distinct : leaving.Distinct := by decide +kernel
  have only : ∃ e ∈ leaving.executions, (e.facts?.any fun r =>
      (Slice.closureOf ⟨leaving, true⟩ e (r.onLines [7])).included.toList.map Timestamp.index ==
        [0, 1, 2, 3, 4, 6]) = true := by decide +kernel
  obtain ⟨e, member, evaluated⟩ := only
  obtain ⟨r, facts, indices⟩ := (Option.any_eq_true _ _).mp evaluated
  obtain ⟨tree, content⟩ := Execution.exists_tree facts
  obtain ⟨c, slice, closure, made, _, whole, _⟩ :=
    slice_structure reachable distinct member facts true (some [7])
  refine ⟨distinct, e, member, r, _, facts, content, c, slice, closure, made,
    whole e member _ content, ?_⟩
  rw [closure]
  exact beq_iff_eq.mp indices

end Lineage
