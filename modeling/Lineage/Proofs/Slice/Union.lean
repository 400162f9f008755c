import Lineage.Proofs.Log.Recording
import Lineage.Proofs.Slice.Canonical
import Lineage.Proofs.Slice.Past
import Mathlib.Data.List.Sort

/-!
Merging slices is taking their union. No statement ends in front of its first line, so the ranges of
a part are in their one shortest form, and a slice is determined by its target, the executions and
lines that it covers and the names that it leaves unresolved. Of all of these a merged slice has the
union, whatever the slices, their order and their grouping.
-/

namespace Lineage

open List Std

namespace Node

open Grammar (Stmt)

variable {src : Source}

/-- The blocks of further branches and of the alternative. -/
def branchBlocks (rest : List (Elif Node) × Option (Clause Node)) : List Block :=
  rest.1.map (fun e => (e.header, e.body)) ++ Clause.blocks rest.2

theorem upright_ofBranches (after : Int) (orelse : List Stmt) :
    ∀ block ∈ branchBlocks (ofBranches src after orelse), block.1.firstLine ≤ block.1.lastLine := by
  fun_cases ofBranches src after orelse with
  | case1 => exact forall_mem_nil _
  | case2 loc test body orelse starts =>
    exact forall_mem_cons.mpr ⟨Int.le_max_left .., upright_ofBranches _ orelse⟩
  | case3 | case4 => exact forall_mem_singleton.mpr (Int.le_max_left ..)
termination_by sizeOf orelse
decreasing_by
  subst_vars
  simp
  omega

theorem upright_ofClause (word : String) (after : Int) (body : List Stmt) :
    ∀ block ∈ Clause.blocks (ofClause src word after body), block.1.firstLine ≤
    block.1.lastLine := by
  cases body with
  | nil =>
    rw [ofClause]
    exact forall_mem_nil _
  | cons c rest =>
    rw [ofClause]
    exact forall_mem_singleton.mpr (Int.le_max_left ..)

/-- A header ends no earlier than it starts, nor does a statement without blocks if it does not in
the module. -/
theorem upright_ofStmt {s : Stmt} (place : s.loc.firstLine ≤ s.loc.lastLine) :
    ∀ span ∈ Flow.spans (ofStmt src s), span.1 ≤ span.2 := by
  cases s
  case functionDef loc id params returns body decorators isAsync =>
    rw [ofStmt]
    cases decorators <;> exact forall_mem_singleton.mpr (Int.le_max_left ..)
  case classDef loc id bases keywords body decorators =>
    rw [ofStmt]
    cases decorators <;> exact forall_mem_singleton.mpr (Int.le_max_left ..)
  case branch loc test body orelse =>
    rw [ofStmt]
    exact forall_mem_map.mpr (forall_mem_cons.mpr ⟨Int.le_max_left .., upright_ofBranches _ orelse⟩)
  case whileLoop | forLoop =>
    rw [ofStmt]
    exact forall_mem_map.mpr (forall_mem_cons.mpr ⟨Int.le_max_left .., upright_ofClause _ _ _⟩)
  case context =>
    rw [ofStmt]
    exact forall_mem_singleton.mpr (Int.le_max_left ..)
  case attempt =>
    rw [ofStmt, ofHandlers_eq_map]
    refine forall_mem_map.mpr (forall_mem_append.mpr
      ⟨forall_mem_append.mpr ⟨?_, upright_ofClause _ _ _⟩, upright_ofClause _ _ _⟩)
    rw [map_map]
    exact forall_mem_cons.mpr ⟨Int.le_max_left .., forall_mem_map.mpr fun h _ => Int.le_max_left ..⟩
  all_goals
    rw [ofStmt]
    exact forall_mem_singleton.mpr place

/-- The statements below the tree of a statement come from statements as well. -/
theorem fromStmt_statements {P : Stmt → Prop} (inherited : Inherited P) {n : Node}
    (own : FromStmt src P n) : ∀ m ∈ n :: n.statements, FromStmt src P m := by
  induction n using clause_induction with
  | step n ih =>
    refine forall_mem_cons.mpr ⟨own, fun m member => ?_⟩
    rw [statements_eq_flatMap] at member
    obtain ⟨block, among, inside⟩ := mem_flatMap.mp member
    rw [blockStatements_eq_flatMap] at inside
    obtain ⟨c, listed, deeper⟩ := mem_flatMap.mp inside
    obtain ⟨s, holds, rfl⟩ := own
    have body := (standing_ofStmt inherited holds).bodies c (mem_bodies_of_block among listed)
    exact ih block among c listed body m deeper

end Node

/-- No statement of a text that can be read ends in front of its first line. -/
theorem Flow.upright_analyze {text : String} {tree : Node} {settings : Settings}
    {writes : GlobalWrites} {r : Result} (parses : Node.parse text = .ok tree)
    (analyzed : analyze settings writes tree = .ok r) :
    ∀ f ∈ r.statements, ∀ span ∈ f.spans, span.1 ≤ span.2 := by
  intro f member
  unfold Node.parse at parses
  split at parses
  · exact nomatch parses
  rename_i m reads
  cases parses
  have among : f.node ∈ Node.blockStatements (Node.ofModule (.ofText text) m).code := by
    rw [← nodes_analyze analyzed]
    exact mem_map_of_mem (Array.mem_toList_iff.mpr member)
  rw [Node.blockStatements_eq_flatMap] at among
  obtain ⟨c, listed, inside⟩ := mem_flatMap.mp among
  have own : Node.FromStmt (.ofText text) Grammar.Stmt.Sound c :=
    Node.fromStmt_ofStmts (Grammar.sound_parse reads) c listed
  obtain ⟨s, ⟨place, _, _⟩, same⟩ :=
    Node.fromStmt_statements ⟨Grammar.Stmt.Sound.shaped, Grammar.Stmt.Sound.inside⟩ own _ inside
  rw [StatementFacts.spans, same]
  exact Node.upright_ofStmt place

variable {e : Execution} {k line : Int} {l : Log} {a b s : Slice} {all : List Slice}

namespace Slice

/-- A slice covers a line of the execution with an ordinal. -/
def Covers (s : Slice) (k line : Int) : Prop :=
  ∃ c ∈ s.parts, c.ordinal = k ∧ LineRange.Cover c.ranges line

/-- A slice is the union of some slices, for the latest of their targets. -/
structure Union (all : List Slice) (s : Slice) : Prop where
  increasing : s.ordinals.Pairwise (· < ·)
  ordinals : ∀ k, k ∈ s.ordinals ↔ ∃ a ∈ all, k ∈ a.ordinals
  covers : ∀ k line, s.Covers k line ↔ ∃ a ∈ all, a.Covers k line
  unresolved : ∀ name, name ∈ s.unresolved ↔ ∃ a ∈ all, name ∈ a.unresolved
  source : ∃ a ∈ all, a.target = s.target
  latest : ∀ a ∈ all, a.target.ordinal ≤ s.target.ordinal

/-- The executions of a slice are those of a log, in order, and its ranges are in their shortest
form. -/
structure Neat (l : Log) (s : Slice) : Prop where
  target : s.target ∈ l.executions
  recorded : ∀ c ∈ s.parts, c.execution ∈ l.executions
  increasing : s.ordinals.Pairwise (· < ·)
  canonical : ∀ c ∈ s.parts, LineRange.Canonical c.ranges

/-! ### What parts are made up from -/

namespace Collected

variable {cs : List CellSlice} {found : Ranges} (collected : Collected cs found)

include collected

theorem increasing : ((partsOf found).map CellSlice.ordinal).Pairwise (· < ·) := by
  rw [partsOf, map_map, pairwise_map]
  refine ExtTreeMap.ordered_keys_toList.imp_of_mem fun {x y} first second less => ?_
  rw [ExtTreeMap.mem_toList_iff_getElem?_eq_some] at first second
  have same := (collected.source x.1 x.2.1 x.2.2 first).1
  have other := (collected.source y.1 y.2.1 y.2.2 second).1
  rw [← same, ← other] at less
  exact Int.compare_eq_lt.mp less

theorem mem_ordinals : k ∈ (partsOf found).map CellSlice.ordinal ↔ ∃ c ∈ cs, c.ordinal = k := by
  rw [mem_map]
  constructor
  · rintro ⟨part, member, rfl⟩
    obtain ⟨⟨c, among, same⟩, _⟩ := collected.mem_partsOf member
    exact ⟨c, among, congrArg Execution.ordinal same⟩
  · rintro ⟨c, among, rfl⟩
    exact collected.exists_partsOf among

theorem exists_cover : (∃ part ∈ partsOf found, part.ordinal = k ∧
    LineRange.Cover part.ranges line) ↔ ∃ c ∈ cs, c.ordinal = k ∧
    LineRange.Cover c.ranges line := by
  constructor
  · rintro ⟨part, member, rfl, covered⟩
    obtain ⟨_, rs, merged, origin⟩ := collected.mem_partsOf member
    rw [merged, LineRange.cover_merge] at covered
    obtain ⟨r, among, inside⟩ := covered
    obtain ⟨c, listed, own, held⟩ := (origin r).mp among
    exact ⟨c, listed, own, r, held, inside⟩
  · rintro ⟨c, listed, rfl, r, held, inside⟩
    obtain ⟨part, member, own⟩ := collected.exists_partsOf listed
    obtain ⟨_, rs, merged, origin⟩ := collected.mem_partsOf member
    refine ⟨part, member, own, ?_⟩
    rw [merged, LineRange.cover_merge]
    exact ⟨r, (origin r).mpr ⟨c, listed, own.symm, held⟩, inside⟩

theorem neat (target : e ∈ l.executions) (recorded : ∀ c ∈ cs, c.execution ∈ l.executions)
    (proper : ∀ c ∈ cs, ∀ r ∈ c.ranges, r.first ≤ r.last) (names : Flow.NameSet) :
    Neat l ⟨e, partsOf found, names⟩ where
  target := target
  recorded part member := by
    obtain ⟨⟨c, among, same⟩, _⟩ := collected.mem_partsOf member
    exact same ▸ recorded c among
  increasing := collected.increasing
  canonical part member := by
    obtain ⟨_, rs, merged, origin⟩ := collected.mem_partsOf member
    rw [merged]
    refine LineRange.canonical_merge fun r among => ?_
    obtain ⟨c, listed, _, held⟩ := (origin r).mp among
    exact proper c listed r held

end Collected

/-! ### What a merged slice is -/

theorem latest_foldl (rest : List Slice) (first : Execution) :
    (first = rest.foldl (fun e s => later e s.target) first ∨
      ∃ a ∈ rest, a.target = rest.foldl (fun e s => later e s.target) first) ∧
    first.ordinal ≤ (rest.foldl (fun e s => later e s.target) first).ordinal ∧
    ∀ a ∈ rest, a.target.ordinal ≤ (rest.foldl (fun e s => later e s.target) first).ordinal := by
  induction rest generalizing first with
  | nil => simp
  | cons a rest ih =>
    obtain ⟨source, least, others⟩ := ih (later first a.target)
    rw [foldl_cons]
    refine ⟨?_, ?_, forall_mem_cons.mpr ⟨?_, others⟩⟩
    all_goals grind [later]

theorem mem_foldl_union (all : List Slice) (start : Flow.NameSet) (name : String) :
    name ∈ all.foldl (fun names s => names ∪ s.unresolved) start ↔
      name ∈ start ∨ ∃ a ∈ all, name ∈ a.unresolved := by
  induction all generalizing start with
  | nil => simp
  | cons a rest ih => simp [ih, ExtTreeSet.mem_union_iff, or_assoc]

theorem collected_merge (all : List Slice) : Collected (all.flatMap parts)
    ((all.flatMap parts).foldl (fun found c => addRanges found c.execution c.ranges) ∅) :=
  collected_empty.foldl _

theorem union_merge (merged : merge all = some s) : Union all s := by
  cases all with
  | nil => exact nomatch merged
  | cons first rest =>
    obtain rfl := Option.some.inj merged
    have collected := collected_merge (first :: rest)
    obtain ⟨source, least, others⟩ := latest_foldl rest first.target
    constructor
    case increasing => exact collected.increasing
    case ordinals =>
      intro k
      rw [Slice.ordinals, collected.mem_ordinals]
      simp only [mem_flatMap, Slice.ordinals, mem_map]
      grind
    case covers =>
      intro k line
      rw [Covers, collected.exists_cover]
      simp only [mem_flatMap, Covers]
      grind
    case unresolved => exact fun name => (mem_foldl_union _ ∅ name).trans (by simp)
    case source =>
      rcases source with own | ⟨a, member, own⟩
      · exact ⟨first, mem_cons_self .., own⟩
      · exact ⟨a, mem_cons_of_mem first member, own⟩
    case latest => exact forall_mem_cons.mpr ⟨least, others⟩

theorem neat_merge (neat : ∀ a ∈ all, Neat l a) (merged : merge all = some s) : Neat l s := by
  have union := union_merge merged
  obtain ⟨a, member, target⟩ := union.source
  cases all with
  | nil => exact nomatch merged
  | cons first rest =>
    obtain rfl := Option.some.inj merged
    have recorded := (neat a member).target
    rw [target] at recorded
    refine (collected_merge (first :: rest)).neat recorded (fun c listed => ?_)
      (fun c listed => ?_) _
    all_goals obtain ⟨b, among, held⟩ := mem_flatMap.mp listed
    · exact (neat b among).recorded c held
    · exact ((neat b among).canonical c held).proper

/-! ### Slices are determined by what they cover -/

theorem Neat.eq_of_ordinal (neat : Neat l s) {c d : CellSlice} (first : c ∈ s.parts)
    (second : d ∈ s.parts) (same : c.ordinal = d.ordinal) : c = d := by
  have distinct : s.ordinals.Nodup := neat.increasing.imp Int.ne_of_lt
  exact inj_on_of_nodup_map distinct first second same

theorem Neat.covers_iff (neat : Neat l s) {c : CellSlice} (member : c ∈ s.parts) :
    s.Covers c.ordinal line ↔ LineRange.Cover c.ranges line := by
  constructor
  · rintro ⟨d, among, same, covered⟩
    exact neat.eq_of_ordinal among member same ▸ covered
  · exact fun covered => ⟨c, member, rfl, covered⟩

theorem Neat.parts_subset (sound : l.Sound) (first : Neat l a) (second : Neat l b)
    (ordinals : ∀ k ∈ a.ordinals, k ∈ b.ordinals)
    (covers : ∀ k line, a.Covers k line ↔ b.Covers k line) : ∀ c ∈ a.parts, c ∈ b.parts := by
  intro c member
  obtain ⟨d, among, same⟩ := mem_map.mp (ordinals c.ordinal (mem_map_of_mem member))
  have execution : d.execution = c.execution :=
    sound.eq_of_ordinal (second.recorded d among) (first.recorded c member) same
  have ranges : d.ranges = c.ranges := by
    refine (second.canonical d among).eq_of_cover (first.canonical c member) fun line => ?_
    rw [← second.covers_iff among, ← first.covers_iff member, same, covers]
  have equal : d = c := by
    cases c
    cases d
    simp_all
  exact equal ▸ among

/-- Slices of a log that are the union of the same slices are the same. -/
theorem Union.unique (sound : l.Sound) (first : Neat l a) (second : Neat l b) (union : Union all a)
    (other : Union all b) : a = b := by
  have ordinals : ∀ k, k ∈ a.ordinals ↔ k ∈ b.ordinals :=
    fun k => (union.ordinals k).trans (other.ordinals k).symm
  have covers : ∀ k line, a.Covers k line ↔ b.Covers k line :=
    fun k line => (union.covers k line).trans (other.covers k line).symm
  have target : a.target = b.target := by
    obtain ⟨c, member, own⟩ := union.source
    obtain ⟨d, among, same⟩ := other.source
    have le := union.latest d among
    have ge := other.latest c member
    rw [same] at le
    rw [own] at ge
    exact sound.eq_of_ordinal first.target second.target (Int.le_antisymm ge le)
  have parts : a.parts = b.parts := by
    have increasing : ∀ {s : Slice}, Neat l s → s.parts.Pairwise fun c d => c.ordinal < d.ordinal :=
      fun neat => pairwise_map.mp neat.increasing
    have irrefl : Std.Irrefl fun c d : CellSlice => c.ordinal < d.ordinal :=
      ⟨fun c => Int.lt_irrefl _⟩
    have antisymm : Std.Antisymm fun c d : CellSlice => c.ordinal < d.ordinal :=
      ⟨fun c d less more => absurd (Int.lt_trans less more) (Int.lt_irrefl _)⟩
    refine (increasing first).eq_of_mem_iff (increasing second) fun c => ⟨?_, ?_⟩
    · exact first.parts_subset sound second (fun k => (ordinals k).mp) covers c
    · exact second.parts_subset sound first (fun k => (ordinals k).mpr)
        (fun k line => (covers k line).symm) c
  have unresolved : a.unresolved = b.unresolved :=
    ExtTreeSet.ext_mem fun name => (union.unresolved name).trans (other.unresolved name).symm
  cases a
  cases b
  simp_all

theorem merge_eq_of_union (sound : l.Sound) (neat : ∀ a ∈ all, Neat l a) (own : Neat l s)
    (union : Union all s) : merge all = some s := by
  cases merged : merge all with
  | none =>
    cases all with
    | nil =>
      obtain ⟨a, member, _⟩ := union.source
      exact absurd member not_mem_nil
    | cons first rest => exact nomatch merged
  | some t => rw [(union_merge merged).unique sound (neat_merge neat merged) own union]

/-- The union of the unions of groups of slices is the union of all of them. -/
theorem Union.flatten {groups : List (List Slice)} (union : Union (groups.filterMap merge) s) :
    Union groups.flatten s := by
  -- What holds of one of the merged slices exactly if it holds of one of its group does so for all
  -- of them together.
  have regroup : ∀ {P : Slice → Prop}, (∀ group m, Union group m → (P m ↔ ∃ a ∈ group, P a)) →
      ((∃ m ∈ groups.filterMap merge, P m) ↔ ∃ a ∈ groups.flatten, P a) := by
    intro P each
    simp only [mem_filterMap, mem_flatten]
    constructor
    · rintro ⟨m, ⟨group, among, merged⟩, holds⟩
      obtain ⟨a, member, held⟩ := (each group m (union_merge merged)).mp holds
      exact ⟨a, ⟨group, among, member⟩, held⟩
    · rintro ⟨a, ⟨group, among, member⟩, held⟩
      cases group with
      | nil => exact absurd member not_mem_nil
      | cons first rest => exact ⟨_, ⟨_, among, rfl⟩,
          (each _ _ (union_merge rfl)).mpr ⟨a, member, held⟩⟩
  constructor
  case increasing => exact union.increasing
  case ordinals => exact fun k => (union.ordinals k).trans (regroup fun _ _ own => own.ordinals k)
  case covers => exact fun k line => (union.covers k line).trans (regroup
      fun _ _ own => own.covers k line)
  case unresolved => exact fun name => (union.unresolved name).trans (regroup
      fun _ _ own => own.unresolved name)
  case source =>
    obtain ⟨m, among, target⟩ := union.source
    obtain ⟨group, member, merged⟩ := mem_filterMap.mp among
    obtain ⟨a, inside, own⟩ := (union_merge merged).source
    exact ⟨a, mem_flatten.mpr ⟨group, member, inside⟩, own.trans target⟩
  case latest =>
    intro a member
    obtain ⟨group, among, inside⟩ := mem_flatten.mp member
    cases group with
    | nil => exact absurd inside not_mem_nil
    | cons first rest =>
      exact Int.le_trans ((union_merge rfl).latest a inside)
        (union.latest _ (mem_filterMap.mpr ⟨_, among, rfl⟩))

end Slice

namespace Log

/-- The slices of a log: those of its executions, and what is merged from such slices. -/
inductive Makes (l : Log) : Slice → Prop where
  | slice {e : Execution} {atCall : Bool} {lines : Option (List Int)} {s : Slice} :
      e ∈ l.executions → l.slice atCall e lines = .ok s → l.Makes s
  | merge {all : List Slice} {s : Slice} : (∀ a ∈ all, l.Makes a) → Slice.merge all = some s →
      l.Makes s

theorem Sound.upright (sound : l.Sound) (member : e ∈ l.executions) {f : Flow.StatementFacts}
    (listed : f ∈ e.statements) : ∀ r ∈ Slice.contributed f, r.first ≤ r.last := by
  obtain ⟨r, facts⟩ := Execution.exists_facts listed
  obtain ⟨tree, content⟩ := Execution.exists_tree facts
  obtain ⟨writes, analyzed⟩ := sound.analyzed e member _ content
  have among := (Execution.mem_statements facts).mp listed
  exact forall_mem_map.mpr (Flow.upright_analyze ((sound.reads e member).2 _ content) analyzed
    f among)

theorem Makes.neat (sound : l.Sound) (makes : l.Makes s) : s.Neat l := by
  induction makes with
  | @slice e atCall lines s member made =>
    cases facts : e.facts? with
    | none =>
      rw [slice_unparsed sound member facts] at made
      obtain rfl := Except.ok.inj made
      refine ⟨member, forall_mem_singleton.mpr member, pairwise_singleton .., ?_⟩
      exact forall_mem_singleton.mpr (LineRange.canonical_merge
        (forall_mem_singleton.mpr (Int.le_max_right ..)))
    | some r =>
      obtain ⟨c, _, parsed⟩ := slice_parsed sound member facts atCall lines
      rw [parsed] at made
      obtain rfl := Except.ok.inj made
      refine (Slice.collected_rangesOf ⟨l, atCall⟩ c).neat member (fun piece listed => ?_)
        (fun piece listed => ?_) _
      all_goals obtain ⟨t, _, f, holds, recorded, own, ranges⟩ :=
        (Slice.mem_pieces (s := ⟨l, atCall⟩) sound).mp listed
      · exact recorded
      · obtain ⟨_, among, _, k, _, found⟩ := holds
        rw [ranges]
        exact sound.upright among (mem_of_getElem? found)
  | merge _ merged ih => exact Slice.neat_merge ih merged

/-- **Merging slices of a log is taking their union.** Of no slices there is none. Slices of the
log, made by slicing or merging, can always be merged, and the outcome has the union of their
ordinals in increasing order, covers at each ordinal the union of the lines that they cover, has the
union of their unresolved names, and has the latest of their targets. It depends neither on the
order of the slices nor on how often each is given, it may be made in groups, however they are
formed, and a slice merged with itself is itself. -/
theorem merge_is_union {l : Log} (reachable : l.Reachable) : Slice.merge [] = none ∧
    (∀ all : List Slice, all ≠ [] → (∀ a ∈ all, l.Makes a) → ∃ s, Slice.merge all = some s ∧
      s.Union all) ∧
    (∀ a b, l.Makes a → l.Makes b → Slice.merge [a, b] = Slice.merge [b, a]) ∧
    (∀ a b c ab bc, l.Makes a → l.Makes b → l.Makes c → Slice.merge [a, b] = some ab →
      Slice.merge [b, c] = some bc →
      Slice.merge [ab, c] = Slice.merge [a, bc]) ∧
    (∀ a, l.Makes a → Slice.merge [a] = some a ∧ Slice.merge [a, a] = some a) ∧
    (∀ all more : List Slice, (∀ a ∈ all, l.Makes a) → (∀ a, a ∈ all ↔ a ∈ more) →
      Slice.merge all = Slice.merge more) ∧
    ∀ groups : List (List Slice), (∀ group ∈ groups, ∀ a ∈ group, l.Makes a) →
      Slice.merge (groups.filterMap Slice.merge) = Slice.merge groups.flatten := by
  have sound := reachable.sound
  have same : ∀ all more : List Slice, (∀ a ∈ all, l.Makes a) → (∀ a, a ∈ all ↔ a ∈ more) →
      Slice.merge all = Slice.merge more := by
    intro all more made members
    cases merged : Slice.merge more with
    | none =>
      cases more with
      | nil =>
        obtain rfl : all = [] := eq_nil_iff_forall_not_mem.mpr fun a => by simp [members a]
        rfl
      | cons => exact nomatch merged
    | some s =>
      have neat : ∀ a ∈ all, a.Neat l := fun a member => (made a member).neat sound
      have other := Slice.neat_merge (fun a member => neat a ((members a).mpr member)) merged
      obtain ⟨increasing, ordinals, covers, unresolved, source, latest⟩ := Slice.union_merge merged
      simp only [← members] at ordinals covers unresolved source latest
      exact Slice.merge_eq_of_union sound neat other ⟨increasing, ordinals, covers, unresolved,
        source, latest⟩
  have single : ∀ a, l.Makes a → Slice.merge [a] = some a := by
    intro a made
    have neat := made.neat sound
    refine Slice.merge_eq_of_union sound (forall_mem_singleton.mpr neat) neat
      ⟨neat.increasing, ?_, ?_, ?_, ?_, ?_⟩
    all_goals simp
  have grouped : ∀ groups : List (List Slice), (∀ group ∈ groups, ∀ a ∈ group, l.Makes a) →
      Slice.merge (groups.filterMap Slice.merge) = Slice.merge groups.flatten := by
    intro groups made
    have each : ∀ m ∈ groups.filterMap Slice.merge, m.Neat l := by
      intro m member
      obtain ⟨group, among, merged⟩ := mem_filterMap.mp member
      exact Slice.neat_merge (fun a inside => (made group among a inside).neat sound) merged
    cases merged : Slice.merge (groups.filterMap Slice.merge) with
    | none =>
      -- Then no group has a slice.
      cases empty : groups.flatten with
      | nil => rfl
      | cons a rest =>
        obtain ⟨group, among, inside⟩ := mem_flatten.mp
          (empty ▸ mem_cons_self .. : a ∈ groups.flatten)
        cases group with
        | nil => exact absurd inside not_mem_nil
        | cons first others =>
          have present : _ ∈ groups.filterMap Slice.merge := mem_filterMap.mpr ⟨_, among, rfl⟩
          cases listed : groups.filterMap Slice.merge with
          | nil => exact absurd (listed ▸ present) not_mem_nil
          | cons => exact nomatch listed ▸ merged
    | some s =>
      have all : ∀ a ∈ groups.flatten, a.Neat l := by
        intro a member
        obtain ⟨group, among, inside⟩ := mem_flatten.mp member
        exact (made group among a inside).neat sound
      exact (Slice.merge_eq_of_union sound all (Slice.neat_merge each merged)
        (Slice.union_merge merged).flatten).symm
  refine ⟨rfl, fun all some made => ?_, fun a b first second => ?_, ?_,
    fun a made => ⟨single a made, ?_⟩, same, grouped⟩
  · cases all with
    | nil => exact absurd rfl some
    | cons first rest => exact ⟨_, rfl, Slice.union_merge rfl⟩
  · exact same [a, b] [b, a] (by simp [first, second]) fun c => by simp [or_comm]
  · -- Both are the union of all three.
    intro a b c ab bc first second third left right
    have front := grouped [[a, b], [c]] (by simp [first, second, third])
    have back := grouped [[a], [b, c]] (by simp [first, second, third])
    simp only [filterMap_cons, filterMap_nil, left, right, single a first,
      single c third] at front back
    exact front.trans back.symm
  · rw [same [a, a] [a] (by simp [made]) fun b => by simp, single a made]

/-- The first execution is no part of what the last one needs; merged with it, either way round, it
makes up the whole session, for the last one. -/
theorem merge_is_union_rebinding : ∃ a b s, rebinding.Makes a ∧ rebinding.Makes b ∧
    a.ordinals = [1] ∧ b.ordinals = [2, 3, 4] ∧ Slice.merge [a, b] = some s ∧
    Slice.merge [b, a] = some s ∧ s.Union [a, b] ∧ s.ordinals = [1, 2, 3, 4] ∧
    s.target.ordinal = 4 := by
  have reachable : rebinding.Reachable := (Reachable.start _ _ _).runAll _
  have ends : ∃ e ∈ rebinding.executions, ∃ e' ∈ rebinding.executions,
      ((rebinding.slice true e none).toOption.any
        fun a => (rebinding.slice true e' none).toOption.any fun b =>
        a.ordinals == [1] && b.ordinals == [2, 3, 4] &&
          (Slice.merge [a, b]).any fun s => s.ordinals == [1, 2, 3, 4] && s.target.ordinal == 4) =
          true := by
    decide +kernel
  obtain ⟨e, member, e', among, evaluated⟩ := ends
  simp only [Bool.and_eq_true, Option.any_eq_true, beq_iff_eq] at evaluated
  obtain ⟨a, first, b, last, ⟨one, others⟩, s, merged, all, target⟩ := evaluated
  have early : rebinding.Makes a := .slice member (ok_of_toOption first)
  have late : rebinding.Makes b := .slice among (ok_of_toOption last)
  have swapped := (merge_is_union reachable).2.2.1 a b early late
  obtain ⟨s', again, union⟩ := (merge_is_union reachable).2.1 [a, b] (by simp)
    (by simp [early, late])
  obtain rfl := Option.some.inj (merged.symm.trans again)
  exact ⟨a, b, s, early, late, one, others, merged, swapped ▸ merged, union, all, target⟩

end Log

end Lineage
