import Lineage.Proofs.Flow.Environments
import Lineage.Flow.Check
import Mathlib.Data.List.Nodup

/-!
What can be relied on in every analysis of a tree: facts stand at the index they name, all origins
are statements of the block, and a name that is held at the end of the block has been given a value
in it.
-/

namespace Lineage.Flow

open List

variable {writes : GlobalWrites} {tree : Node} {place : Place} {r : Result} {settings : Settings}

/-- The analysis of a module stays in its scope. -/
theorem sane_analyzeBlock (settings : Settings) (writes : GlobalWrites) {code : List Node}
    (plain : ∀ c ∈ code, c.ModuleFree) :
    (visitBlock (.ofModule settings writes code) none 0 code (.start ∅)).Sane
    (.ofBlock writes [] code) := by
  have known : (Env.ofModule settings writes code).Known (Scope.ofBlock writes [] code).names :=
    known_vocabulary writes [] code rfl
  have start : Progress.Kept (.ofModule settings writes code) (.ofBlock writes [] code)
      (statementAt code) (.start ∅) :=
    .start (State.within_empty _) fun name k => by simp [State.reaching_empty, State.mem_untouched]
  have leads := (Trait.steady_sound (statementAt code) known).visitBlock (passLimit_pos _ _ _)
    plain start
  exact Progress.Kept.sane leads.kept

theorem analyze_eq_ok (analyzed : analyze settings writes tree = .ok r) :
    Node.blockFault tree.code = none ∧ r = analyzeBlock settings writes tree.code := by
  unfold analyze at analyzed
  split at analyzed
  · exact nomatch analyzed
  · rename_i faultless
    exact ⟨faultless, (Except.ok.inj analyzed).symm⟩

/-- The places in the blocks of a statement of a block are places of the block. -/
theorem inner_subset_blockPlaces (parent : Option (Nat × Node)) (i : Nat) (code : List Node)
    (among : place ∈ blockPlaces parent i code) :
    innerPlaces place.index place.node ⊆ blockPlaces parent i code := by
  induction code using Node.block_induction generalizing parent i with
  | nil => exact absurd among not_mem_nil
  | cons n rest inner ih =>
    rw [blockPlaces] at among ⊢
    rcases mem_append.mp among with own | later
    · refine List.Subset.trans ?_ (subset_append_left _ _)
      rcases mem_cons.mp own with rfl | inside
      · exact subset_cons_self ..
      · rw [innerPlaces_eq i n] at inside ⊢
        exact List.Subset.trans (inner _ _ inside) (subset_cons_self ..)
    · exact List.Subset.trans (ih parent _ later) (subset_append_right _ _)

theorem exists_blockPlaces (parent : Option (Nat × Node)) (i : Nat) {code : List Node} {c : Node}
    (member : c ∈ code) : ∃ place ∈ blockPlaces parent i code, place.parent = parent ∧
    place.node = c := by
  induction code generalizing i with
  | nil => exact absurd member not_mem_nil
  | cons n rest ih =>
    rw [blockPlaces]
    rcases mem_cons.mp member with rfl | later
    · exact ⟨_, mem_append_left _ (mem_cons_self ..), rfl, rfl⟩
    · obtain ⟨place, among, found⟩ := ih (i + n.extent) later
      exact ⟨place, mem_append_right _ among, found⟩

/-- Every statement of a clause has a place, and the compound statement around it is the one that
has the clause. -/
theorem exists_innerPlaces (i : Nat) (n : Node) : ∀ block ∈ n.clauseBlocks, ∀ c ∈ block.2,
    ∃ place ∈ innerPlaces i n, place.parent = some (i, n) ∧ place.node = c := by
  intro block among c member
  rw [innerPlaces_eq]
  exact exists_blockPlaces _ _ (mem_flatMap.mpr ⟨block, among, member⟩)

/-! ### Results -/

/-- What every analysis of a tree gives. The facts of a statement stand at its index. All origins
are statements of the block, and each name held at its end has one. Every statement in the blocks of
a statement has facts too, and those of the blocks themselves depend on the statement around. -/
structure Result.Regular (r : Result) : Prop where
  index : ∀ (k : Nat) (f : StatementFacts), r.statements[k]? = some f → f.index = k
  entries : ∀ f ∈ r.statements, ∀ name k, .statement k ∈ f.entry.reaching name →
    k < r.statements.size
  exit : ∀ name k, .statement k ∈ r.exit.reaching name → k < r.statements.size
  defined : ∀ name, name ∈ r.exit → ∃ k, .statement k ∈ r.exit.reaching name
  inner : ∀ f ∈ r.statements, ∀ m ∈ f.node.statements, ∃ g ∈ r.statements, g.node = m
  blocks : ∀ f ∈ r.statements, ∀ block ∈ f.node.clauseBlocks, ∀ c ∈ block.2,
    ∃ g ∈ r.statements, g.node = c ∧ ⟨.control, f.location, g.location, none⟩ ∈ g.inbound

section Placed

variable {settings : Settings} {writes : GlobalWrites} {code : List Node}
  (plain : ∀ c ∈ code, c.ModuleFree)

include plain

/-- A place in the blocks of an analysed statement has facts. -/
theorem exists_inner {f : StatementFacts}
    (member : f ∈ (analyzeBlock settings writes code).statements)
    (inside : place ∈ innerPlaces f.index f.node) :
    ∃ g ∈ (analyzeBlock settings writes code).statements, place.Held g := by
  obtain ⟨k, found⟩ := Array.mem_iff_getElem?.mp member
  obtain ⟨around, foundAround, held⟩ := exists_place settings writes plain found
  rw [held.index, held.node] at inside
  have among := inner_subset_blockPlaces none 0 code (mem_of_getElem? foundAround) inside
  obtain ⟨j, foundPlace⟩ := mem_iff_getElem?.mp among
  obtain ⟨g, foundG, heldG⟩ := held_analyzeBlock settings writes plain foundPlace
  exact ⟨g, Array.mem_of_getElem? foundG, heldG⟩

end Placed

theorem regular_analyze (analyzed : analyze settings writes tree = .ok r) : r.Regular := by
  obtain ⟨faultless, rfl⟩ := analyze_eq_ok analyzed
  have plain := Node.plain_of_blockFault faultless
  have sane := sane_analyzeBlock settings writes plain
  have size := size_analyzeBlock settings writes plain
  constructor
  case index =>
    intro k f found
    obtain ⟨place, foundPlace, held⟩ := exists_place settings writes plain found
    exact held.index.trans (index_of_getElem? foundPlace)
  case entries =>
    intro f member name k reaches
    rw [size]
    exact (sane.entries f member).statements name k reaches
  case exit =>
    intro name k reaches
    rw [size]
    exact sane.state.statements name k reaches
  case defined =>
    intro name member
    obtain ⟨origin, reaches, other⟩ := sane.state.grounded name member
    cases origin with
    | entry => exact absurd rfl other
    | parameter => exact absurd (sane.state.parameters name reaches) Std.ExtTreeSet.not_mem_empty
    | statement k => exact ⟨k, reaches⟩
  case inner =>
    intro f member m inside
    rw [← node_innerPlaces f.index f.node] at inside
    obtain ⟨place, among, rfl⟩ := mem_map.mp inside
    obtain ⟨g, memberG, held⟩ := exists_inner plain member among
    exact ⟨g, memberG, held.node⟩
  case blocks =>
    intro f member block among c inside
    obtain ⟨place, amongPlaces, parent, rfl⟩ :=
      exists_innerPlaces f.index f.node block among c inside
    obtain ⟨g, memberG, held⟩ := exists_inner plain member amongPlaces
    exact ⟨g, memberG, held.node, held.control parent⟩

/-- The facts stand in the order of the statements in the source, and there are no others. -/
theorem nodes_analyze (analyzed : analyze settings writes tree = .ok r) :
    r.statements.toList.map StatementFacts.node = Node.blockStatements tree.code := by
  obtain ⟨faultless, rfl⟩ := analyze_eq_ok analyzed
  have plain := Node.plain_of_blockFault faultless
  rw [← node_blockPlaces none 0 tree.code]
  refine ext_getElem? fun k => ?_
  rw [getElem?_map, getElem?_map, Array.getElem?_toList]
  cases found : (analyzeBlock settings writes tree.code).statements[k]? with
  | none =>
    have outside : (blockPlaces none 0 tree.code)[k]? = none := by
      rw [List.getElem?_eq_none_iff, length_blockPlaces, ← size_analyzeBlock settings writes plain]
      exact Array.getElem?_eq_none_iff.mp found
    rw [outside]
    rfl
  | some f =>
    obtain ⟨place, foundPlace, held⟩ := exists_place settings writes plain found
    rw [foundPlace, Option.map_some, Option.map_some, held.node]

/-- Where statements stand at different places, a place tells the statement. -/
theorem Result.at?_eq_some (apart : (r.statements.toList.map StatementFacts.location).Nodup)
    {loc : Location} {g : StatementFacts} : r.at? loc = some g ↔ g ∈ r.statements ∧
    g.location = loc := by
  have sound : ∀ h, r.at? loc = some h → h ∈ r.statements.toList ∧ h.location = loc := by
    intro h found
    exact ⟨by simpa using mem_of_find?_eq_some found, by simpa using find?_some found⟩
  constructor
  · intro found
    exact ⟨Array.mem_toList_iff.mp (sound g found).1, (sound g found).2⟩
  · rintro ⟨member, place⟩
    have among := Array.mem_toList_iff.mpr member
    cases first : r.at? loc with
    | none => exact absurd place (by simpa using find?_eq_none.mp first g (mem_reverse.mpr among))
    | some h =>
      obtain ⟨amongH, placeH⟩ := sound h first
      exact congrArg some (inj_on_of_nodup_map apart amongH among (placeH.trans place.symm))

end Lineage.Flow
