import Lineage.Proofs.Flow.Carry
import Lineage.Proofs.Flow.Faults
import Lineage.Proofs.Flow.Founded
import Lineage.Proofs.Flow.Raise
import Mathlib.Data.List.Perm.Subperm

/-!
Analysis across the end of a block. If the functions that a block leaves behind are carried over to
the next one, then analysing both one after the other finds the same as analysing them together.
-/

namespace Lineage

open List Std

namespace Flow

namespace Result

/-- The names that calling a function assigns, if it comes from an origin at the end of a block. -/
def assignedFrom (r : Result) (writes : GlobalWrites) (callee : String) : Origin → NameSet
  | .parameter => ∅
  | .entry => writes.getD callee ∅
  | .statement k => (r.statements[k]?.map StatementFacts.globalWrites).getD ∅

/-- The names that calling what a name holds at the end of a block assigns. -/
def assigned (r : Result) (writes : GlobalWrites) (callee : String) : NameSet :=
  (r.reachingAtExit callee).toList.foldl
    (fun written origin => written ∪ r.assignedFrom writes callee origin) ∅

/-- What the functions assign that names are bound to at the end of a block. -/
def carriedWrites (r : Result) (writes : GlobalWrites) : GlobalWrites :=
  (r.exit.keys ++ writes.keys).foldl (fun carried callee => carried.insert callee
    (r.assigned writes callee)) ∅

theorem mem_assigned {r : Result} {writes : GlobalWrites} {callee name : String} :
    name ∈ r.assigned writes callee ↔ (∃ k source, .statement k ∈ r.reachingAtExit callee ∧
      r.statements[k]? = some source ∧ name ∈ source.globalWrites) ∨
      .entry ∈ r.reachingAtExit callee ∧ name ∈ writes.getD callee ∅ := by
  -- The end of a block is an analysis that has come there.
  let p : Progress := { Progress.start r.exit with facts := r.statements }
  let env : Env := ⟨⟨∅, ∅⟩, writes, 0, true⟩
  have same : r.assigned writes callee = p.writesOf env callee := by
    have each : r.assignedFrom writes callee = p.writesFrom env callee := by
      funext origin
      cases origin <;> rfl
    rw [assigned, each]
    rfl
  rw [same]
  exact Progress.mem_writesOf_iff

theorem getD_carriedWrites (r : Result) (writes : GlobalWrites) (callee : String) :
    (r.carriedWrites writes).getD callee ∅ = r.assigned writes callee := by
  have folded : ∀ (callees : List String) (carried : GlobalWrites),
      (callees.foldl (fun carried callee => carried.insert callee (r.assigned writes callee))
        carried).getD callee ∅ = if callee ∈ callees then r.assigned writes callee
        else carried.getD callee ∅ := by
    intro callees
    induction callees with
    | nil => simp
    | cons first rest ih =>
      intro carried
      rw [foldl_cons, ih, ExtTreeMap.getD_insert]
      by_cases later : callee ∈ rest
      · simp [later]
      · by_cases same : first = callee
        · simp [same]
        · simp [later, same, Ne.symm same]
  rw [carriedWrites, folded]
  split
  · rfl
  · rename_i foreign
    rw [mem_append, ExtTreeMap.mem_keys, ExtTreeMap.mem_keys, not_or] at foreign
    -- Nothing in the block has bound the name, and nothing is known of it from before.
    have none : writes.getD callee ∅ = ∅ := ExtTreeMap.getD_eq_fallback foreign.2
    ext name
    rw [mem_assigned, reachingAtExit, State.reaching_of_not_mem foreign.1, none]
    simp

end Result

/-! ### Blocks without faults -/

theorem size_le_of_subset {one two : NameSet} (subset : ∀ name ∈ one, name ∈ two) :
    one.size ≤ two.size := by
  have nodup : one.toList.Nodup := by
    refine ExtTreeSet.distinct_toList.imp fun {a b} apart same => apart ?_
    exact Std.LawfulEqOrd.compare_eq_iff_eq.mpr same
  rw [← ExtTreeSet.length_toList, ← ExtTreeSet.length_toList]
  refine (subperm_of_subset nodup fun name member => ?_).length_le
  exact ExtTreeSet.mem_toList.mpr (subset name (ExtTreeSet.mem_toList.mp member))

/-- A block that mentions no more, with functions that assign no more, needs no more passes. -/
theorem passLimit_le {writes more : GlobalWrites} {code larger : List Node}
    (extent : blockExtent code ≤ blockExtent larger)
    (subset : ∀ name ∈ vocabulary writes [] code, name ∈ vocabulary more [] larger) :
    passLimit writes [] code ≤ passLimit more [] larger :=
  Nat.succ_le_succ (Nat.mul_le_mul (size_le_of_subset subset) (Nat.add_le_add_right extent 2))

/-- The names that stand in a block. -/
def blockNames (code : List Node) : NameSet :=
  ExtTreeSet.ofList (code.flatMap Node.identifiers)

theorem mem_blockNames {code : List Node} {name : String} :
    name ∈ blockNames code ↔ ∃ c ∈ code, name ∈ c.identifiers := by
  rw [blockNames, ExtTreeSet.mem_ofList, contains_iff_mem, mem_flatMap]

/-- A block without faults in which, bodies of functions and classes included, no statement brings
in all names of a module or runs code that is not known, and nothing is called like all names. -/
structure Explicit (settings : Settings) (code : List Node) : Prop where
  faultless : Node.blockFault code = none
  known : ∀ c ∈ code, c.Everywhere fun m => m.isStarImport = false ∧ m.isDynamic settings = false
  single : ∀ c ∈ code, allNames ∉ c.identifiers

namespace Explicit

variable {settings : Settings} {code : List Node}

theorem append {first second : List Node} (one : Explicit settings first)
    (two : Explicit settings second) : Explicit settings (first ++ second) where
  faultless := Node.blockFault_eq_none.mpr (forall_mem_append.mpr
    ⟨Node.blockFault_eq_none.mp one.faultless, Node.blockFault_eq_none.mp two.faultless⟩)
  known := forall_mem_append.mpr ⟨one.known, two.known⟩
  single := forall_mem_append.mpr ⟨one.single, two.single⟩

theorem star (explicit : Explicit settings code) : allNames ∉ blockNames code := by
  intro member
  obtain ⟨c, among, own⟩ := mem_blockNames.mp member
  exact explicit.single c among own

theorem clear (explicit : Explicit settings code) :
    ∀ c ∈ code, Clear settings (blockNames code) c := by
  have each : ∀ n : Node,
      (n.Everywhere fun m => m.isStarImport = false ∧ m.isDynamic settings = false) →
      n.statementFault = none → n.Everywhere fun m =>
        m.isStarImport = false ∧ m.isDynamic settings = false ∧ m.kind ≠ .module := by
    intro n everywhere
    induction everywhere with
    | @intro n own _ ih =>
      intro none
      have statement := Node.isStatement_of_statementFault none
      refine ⟨⟨own.1, own.2, ?_⟩, fun c member => ih c member
        (Node.statementFault_bodies none c member)⟩
      intro same
      rw [same] at statement
      exact absurd statement Bool.false_ne_true
  intro c member
  constructor
  · exact fun name own => mem_blockNames.mpr ⟨c, member, own⟩
  · exact each c (explicit.known c member) (Node.blockFault_eq_none.mp explicit.faultless c member)

theorem analyze_eq (explicit : Explicit settings code) (writes : GlobalWrites) (loc : Location) :
    analyze settings writes (.module loc code) = .ok (analyzeBlock settings writes code) := by
  unfold analyze
  rw [show (Node.module loc code).code = code from rfl, explicit.faultless]

end Explicit

/-! ### One block behind another -/

@[simp] theorem size_start (s : State) : (Progress.start s).facts.size = 0 := rfl

@[simp] theorem reaching_start (name : String) :
    (Progress.start ∅).state.reaching name = State.untouched :=
  State.reaching_empty name

theorem Origins.behind_untouched (a : Nat) (earlier : Origins) :
    State.untouched.behind a earlier = earlier := by
  ext origin
  rw [Origins.mem_behind]
  constructor
  · rintro (⟨o, member, other, _⟩ | ⟨_, inside⟩)
    · exact absurd (State.mem_untouched.mp member) other
    · exact inside
  · exact fun inside => Or.inr ⟨State.mem_untouched.mpr rfl, inside⟩

theorem Origins.behind_nothing (own : Origins) : own.behind 0 State.untouched = own := by
  have shift : ∀ o : Origin, o.shift 0 = o := by
    intro o
    cases o <;> simp [Origin.shift]
  ext origin
  rw [Origins.mem_behind]
  constructor
  · rintro (⟨o, member, _, rfl⟩ | ⟨inherited, inside⟩)
    · rwa [shift]
    · rwa [State.mem_untouched.mp inside]
  · intro member
    by_cases inherited : origin = .entry
    · subst inherited
      exact Or.inr ⟨member, State.mem_untouched.mpr rfl⟩
    · exact Or.inl ⟨origin, member, inherited, shift origin⟩

/-- An analysis that starts alone is together with one that starts behind a block. -/
theorem together_start {base : Progress} (noStar : base.NoStar)
    (heads : ∀ k, base.heads[base.facts.size + k]? = none) (scope : Scope) :
    base.Together scope base.breaks base.continues (.start ∅) base where
  state := by
    refine ⟨fun name => ?_, State.plain_empty, noStar.state, State.within_empty scope⟩
    rw [reaching_start, Origins.behind_untouched]
  heads k := by
    rw [heads k]
    exact .none
  breaks := ⟨[], (append_nil _).symm, .nil⟩
  continues := ⟨[], (append_nil _).symm, .nil⟩
  size := rfl
  before k _ := rfl
  facts k f g found _ := by simp [Progress.start] at found
  noStar := .start State.plain_empty
  other := noStar
  sane := .start (State.within_empty scope)

theorem ended_start : (Progress.start ∅).Ended where
  index k f found := by simp [Progress.start] at found
  state name := by
    rw [reaching_start]
    exact ⟨⟨.entry, State.mem_untouched.mpr rfl⟩,
      fun o inside => Or.inl (State.mem_untouched.mp inside)⟩

/-- At the end of a block, names come from before it or from its statements. -/
theorem ends_analyzeBlock {code : List Node} (faultless : Node.blockFault code = none)
    (settings : Settings) (writes : GlobalWrites) (name : String) :
      ((analyzeBlock settings writes code).reachingAtExit name).Ends
      (analyzeBlock settings writes code).statements.size := by
  have within := (sane_analyzeBlock settings writes (Node.plain_of_blockFault faultless)).state
  rw [size_analyzeBlock settings writes (Node.plain_of_blockFault faultless)]
  constructor
  · by_cases bound : name ∈ (analyzeBlock settings writes code).exit
    · obtain ⟨o, reaches, _⟩ := within.grounded name bound
      exact ⟨o, reaches⟩
    · refine ⟨.entry, ?_⟩
      rw [Result.reachingAtExit, State.reaching_of_not_mem bound]
      exact State.mem_untouched.mpr rfl
  · intro o reaches
    cases o with
    | parameter => exact absurd (within.parameters name reaches) ExtTreeSet.not_mem_empty
    | entry => exact Or.inl rfl
    | statement k => exact Or.inr ⟨k, within.statements name k reaches, rfl⟩

theorem proper_ofModule {writes : GlobalWrites} (single : ∀ callee, allNames ∉ writes.getD callee ∅)
    (settings : Settings) (code : List Node) :
    (Env.ofModule settings writes code).Proper settings :=
  ⟨rfl, passLimit_pos _ _ _, single⟩

/-- A block behind another, where its environment alone is that of a module. -/
theorem Explicit.boundary {settings : Settings} {code all : List Node}
    (explicit : Explicit settings code) {writes more : GlobalWrites}
    (single : ∀ callee, allNames ∉ writes.getD callee ∅)
    (likewise : ∀ callee, allNames ∉ more.getD callee ∅) {base : Progress} (ended : base.Ended)
      (carried : ∀ callee name, name ∈ writes.getD callee ∅ ↔
          (∃ k source, .statement k ∈ base.state.reaching callee ∧ base.facts[k]? = some source ∧
            name ∈ source.globalWrites) ∨
        .entry ∈ base.state.reaching callee ∧ name ∈ more.getD callee ∅)
    (extent : blockExtent code ≤ blockExtent all)
    (subset : ∀ name ∈ vocabulary writes [] code, name ∈ vocabulary more [] all) :
    Boundary settings (blockNames code) base (.ofBlock writes [] code)
      (.ofModule settings writes code) (.ofModule settings more all) where
  ended := ended
  star := explicit.star
  named name member := by
    obtain ⟨c, among, own⟩ := mem_blockNames.mp member
    exact namedIn_vocabulary writes [] among name own
  proper := proper_ofModule single settings code
  likewise := proper_ofModule likewise settings all
  writes := carried
  known := known_vocabulary writes [] code rfl
  enough := Nat.lt_succ_self _
  passes := passLimit_le extent subset
  keep := rfl

/-- What the analysis of two blocks has found when it comes to the second. -/
def halfway (settings : Settings) (writes : GlobalWrites) (first second : List Node) : Progress :=
  visitBlock (.ofModule settings writes (first ++ second)) none 0 first (.start ∅)

theorem vocabulary_append {writes : GlobalWrites} {first : List Node} {name : String}
    (second : List Node) (member : name ∈ vocabulary writes [] first) :
    name ∈ vocabulary writes [] (first ++ second) := by
  rw [mem_vocabulary] at member ⊢
  refine member.imp_right (Or.imp_right (Or.imp_left ?_))
  rintro ⟨c, among, own⟩
  exact ⟨c, mem_append_left _ among, own⟩

/-- What the functions assign that a block leaves behind is known in the block. -/
theorem assigned_mem_vocabulary {settings : Settings} {writes : GlobalWrites} {code : List Node}
    (faultless : Node.blockFault code = none) {callee name : String}
    (written : name ∈ ((analyzeBlock settings writes code).carriedWrites writes).getD callee ∅) :
    name ∈ vocabulary writes [] code := by
  rw [Result.getD_carriedWrites, Result.mem_assigned] at written
  rcases written with ⟨k, source, _, found, written⟩ | ⟨_, written⟩
  · exact (sane_analyzeBlock settings writes (Node.plain_of_blockFault faultless)).written source
      (Array.mem_of_getElem? found) name written
  · exact mem_vocabulary.mpr (Or.inr (Or.inr (Or.inr ⟨callee, written⟩)))

section Halves

variable {settings : Settings} {writes : GlobalWrites} {first : List Node}
  (one : Explicit settings first) (single : ∀ callee, allNames ∉ writes.getD callee ∅)
  (second : List Node)

include one single

/-- The first block is analysed as if it stood alone. -/
theorem together_halfway : (Progress.start ∅).Together (.ofBlock writes [] first) [] []
    (visitBlock (.ofModule settings writes first) none 0 first (.start ∅))
    (halfway settings writes first second) := by
  have boundary : Boundary settings (blockNames first) (.start ∅) (.ofBlock writes [] first)
      (.ofModule settings writes first) (.ofModule settings writes (first ++ second)) := by
    refine one.boundary single single ended_start (fun callee name => ?_) ?_
      fun name => vocabulary_append second
    · simp
    · rw [blockExtent_append]
      exact Nat.le_add_right _ _
  exact boundary.visitBlock one.clear (Nat.le_refl _)
    (together_start (.start State.plain_empty) (fun k => by simp [Progress.start]) _)

theorem exit_halfway (name : String) : (halfway settings writes first second).state.reaching name =
    (analyzeBlock settings writes first).reachingAtExit name := by
  rw [(together_halfway one single second).state.carried name, size_start, reaching_start,
    Origins.behind_nothing]
  rfl

theorem size_halfway : (halfway settings writes first second).facts.size =
    (analyzeBlock settings writes first).statements.size := by
  rw [(together_halfway one single second).size, size_start, Nat.zero_add]
  rfl

theorem partner_halfway {k : Nat} {f : StatementFacts}
    (found : (analyzeBlock settings writes first).statements[k]? = some f) :
    ∃ g, (halfway settings writes first second).facts[k]? = some g ∧ f.Carried (.start ∅) g := by
  have partner := (together_halfway one single second).partner found
  rwa [size_start, Nat.zero_add] at partner

theorem owner_halfway {k : Nat} {g : StatementFacts}
    (found : (halfway settings writes first second).facts[k]? = some g) :
    ∃ f, (analyzeBlock settings writes first).statements[k]? = some f ∧ f.Carried (.start ∅) g := by
  refine (together_halfway one single second).owner ?_
  rwa [size_start, Nat.zero_add]

theorem ended_halfway : (halfway settings writes first second).Ended where
  index k g found := by
    obtain ⟨f, own, carried⟩ := owner_halfway one single second found
    have regular := regular_analyze (one.analyze_eq writes default)
    rw [size_halfway one single second, carried.index, size_start, Nat.zero_add,
      regular.index k f own]
    exact (Array.getElem?_eq_some_iff.mp own).1
  state name := by
    rw [exit_halfway one single second, size_halfway one single second]
    exact ends_analyzeBlock one.faultless settings writes name

/-- No loop of the second block has been seen. -/
theorem heads_halfway (k : Nat) : (halfway settings writes first second).heads[
    (halfway settings writes first second).facts.size + k]? = none := by
  have plain := Node.plain_of_blockFault one.faultless
  have all : Goods (fun _ _ _ => True) (blockPlaces none 0 first) := fun _ _ => trivial
  have lies : (blockPlan none 0 first).Lies _ (fun _ => True) none 0 (0 + blockExtent first) :=
    standing_blockPlan
      (fun c member => standing (fun _ _ _ _ _ _ => trivial) c (plain c member)) all
  have size : (halfway settings writes first second).facts.size = blockExtent first := by
    rw [size_halfway one single second, size_analyzeBlock settings writes plain]
  rw [size, halfway, visitBlock_eq_plan, heads_run lies _ (Or.inr (by omega))]
  exact ExtTreeMap.getElem?_empty

/-- Functions that the first block leaves behind assign no names at once. -/
theorem single_carriedWrites (callee : String) :
    allNames ∉ ((analyzeBlock settings writes first).carriedWrites writes).getD callee ∅ := by
  rw [Result.getD_carriedWrites, Result.mem_assigned]
  rintro (⟨k, source, _, found, written⟩ | ⟨_, written⟩)
  · have noStar := (together_halfway one single []).noStar
    exact (noStar.facts source (Array.mem_of_getElem? found)).globalWrites written
  · exact single callee written

/-- The second block is analysed as if it stood alone, where the functions that the first leaves
behind assign what they assign. -/
theorem together_second {second : List Node} (two : Explicit settings second) :
    (halfway settings writes first second).Together
      (.ofBlock ((analyzeBlock settings writes first).carriedWrites writes) [] second)
      (halfway settings writes first second).breaks (halfway settings writes first second).continues
      (visitBlock (.ofModule settings ((analyzeBlock settings writes first).carriedWrites writes)
        second) none 0 second (.start ∅))
      (visitBlock (.ofModule settings writes (first ++ second)) none 0 (first ++ second)
          (.start ∅)) := by
  have passed : visitBlock (.ofModule settings writes (first ++ second)) none 0 (first ++ second)
      (.start ∅) = visitBlock (.ofModule settings writes (first ++ second))
        none (halfway settings writes first second).facts.size second
        (halfway settings writes first second) := by
    rw [visitBlock_append, size_halfway one single second,
      size_analyzeBlock settings writes (Node.plain_of_blockFault one.faultless), Nat.zero_add]
    rfl
  have boundary : Boundary settings (blockNames second) (halfway settings writes first second)
      (.ofBlock ((analyzeBlock settings writes first).carriedWrites writes) [] second)
      (.ofModule settings ((analyzeBlock settings writes first).carriedWrites writes) second)
      (.ofModule settings writes (first ++ second)) := by
    refine two.boundary (single_carriedWrites one single) single (ended_halfway one single second)
      (fun callee name => ?_) ?_ fun name member => ?_
    · rw [Result.getD_carriedWrites, Result.mem_assigned, exit_halfway one single second]
      refine or_congr_left ⟨?_, ?_⟩
      · rintro ⟨k, f, reaches, found, written⟩
        obtain ⟨g, there, carried⟩ := partner_halfway one single second found
        exact ⟨k, g, reaches, there, carried.globalWrites.symm ▸ written⟩
      · rintro ⟨k, g, reaches, found, written⟩
        obtain ⟨f, own, carried⟩ := owner_halfway one single second found
        exact ⟨k, f, reaches, own, carried.globalWrites ▸ written⟩
    · rw [blockExtent_append]
      exact Nat.le_add_left _ _
    · rw [mem_vocabulary] at member
      rcases member with star | none | ⟨c, among, own⟩ | ⟨callee, written⟩
      · exact mem_vocabulary.mpr (Or.inl star)
      · exact absurd none not_mem_nil
      · exact mem_vocabulary.mpr (Or.inr (Or.inr (Or.inl ⟨c, mem_append_right _ among, own⟩)))
      · exact vocabulary_append second (assigned_mem_vocabulary one.faultless written)
  rw [passed]
  exact boundary.visitBlock two.clear (Nat.le_refl _)
    (together_start (together_halfway one single second).other (heads_halfway one single second) _)

end Halves

/-! ### Edges across the end of a block -/

section Locations

variable {settings : Settings} {first second : List Node} (one : Explicit settings first)
  (two : Explicit settings second)

theorem locations_analyzeBlock {code : List Node} (explicit : Explicit settings code)
    (writes : GlobalWrites) : (analyzeBlock settings writes code).statements.toList.map
      StatementFacts.location = (Node.blockStatements code).map Node.loc := by
  have nodes := nodes_analyze (explicit.analyze_eq writes default)
  rw [show (Node.module default code).code = code from rfl] at nodes
  rw [← nodes, map_map]
  rfl

include one two

/-- Where all locations are distinct, those of two blocks are distinct, and no two statements of the
first share one. -/
theorem distinct_locations
    (distinct : ((Node.blockStatements (first ++ second)).map Node.loc).Nodup)
    (writes more : GlobalWrites) :
      ((analyzeBlock settings writes first).statements.toList.map StatementFacts.location).Nodup ∧
        ∀ f ∈ (analyzeBlock settings writes first).statements,
        ∀ g ∈ (analyzeBlock settings more second).statements, g.location ≠ f.location := by
  rw [Node.blockStatements_eq_flatMap, flatMap_append, ← Node.blockStatements_eq_flatMap,
    ← Node.blockStatements_eq_flatMap, map_append, ← locations_analyzeBlock one writes,
    ← locations_analyzeBlock two more, nodup_append] at distinct
  refine ⟨distinct.1, fun f among g member same => ?_⟩
  exact distinct.2.2 _ (mem_map_of_mem (Array.mem_toList_iff.mpr among)) _
    (mem_map_of_mem (Array.mem_toList_iff.mpr member)) same.symm

end Locations

theorem index_of_location {facts : Array StatementFacts}
    (distinct : (facts.toList.map StatementFacts.location).Nodup) {i k : Nat} {f g : StatementFacts}
    (found : facts[i]? = some f) (other : facts[k]? = some g) (same : f.location = g.location) :
    i = k := by
  have inside := (Array.getElem?_eq_some_iff.mp found).1
  refine (getElem?_inj (by simpa using inside) distinct).mp ?_
  rw [getElem?_map, getElem?_map, Array.getElem?_toList, Array.getElem?_toList, found, other,
    Option.map_some, Option.map_some, same]

/-- UnderLeader the first block, a statement of the second depends on those statements of the first
that reach a name which it reads from before. -/
theorem data_edge_iff {settings : Settings} {writes more : GlobalWrites} {first second : List Node}
    (one : Explicit settings first) (two : Explicit settings second)
    (distinct : ((Node.blockStatements (first ++ second)).map Node.loc).Nodup)
    (single : ∀ callee, allNames ∉ writes.getD callee ∅) {s t : StatementFacts}
    (member : s ∈ (analyzeBlock settings more second).statements)
    (carried : s.Carried (halfway settings writes first second) t) {i : Nat} {f : StatementFacts}
    (source : (analyzeBlock settings writes first).statements[i]? = some f) (name : String) :
    (∃ edge ∈ t.inbound, edge.kind = .data ∧ edge.name = some name ∧ edge.source = f.location) ↔
      name ∈ s.external ∧ .statement i ∈ (analyzeBlock settings writes first).reachingAtExit
      name := by
  obtain ⟨nodup, apart⟩ := distinct_locations one two distinct writes more
  constructor
  · rintro ⟨edge, inbound, _, named, comes⟩
    rcases (carried.inbound edge).mp inbound with own | ⟨read, external, k, g, reaches, there, rfl⟩
    · -- An edge that the statement has alone comes from its own block.
      obtain ⟨g, among, same⟩ := rooted_analyze (two.analyze_eq more default) s member edge own
      exact absurd (same.trans comes) (apart f (Array.mem_of_getElem? source) g among)
    · obtain ⟨h, foundH, partner⟩ := owner_halfway one single second there
      obtain rfl := Option.some.inj named
      obtain rfl := index_of_location nodup foundH source (partner.location.symm.trans comes)
      exact ⟨external, exit_halfway one single second read ▸ reaches⟩
  · rintro ⟨external, reaches⟩
    obtain ⟨g, there, partner⟩ := partner_halfway one single second source
    refine ⟨⟨.data, g.location, s.location, some name⟩, ?_, rfl, rfl, partner.location⟩
    rw [← exit_halfway one single second name] at reaches
    exact (carried.inbound _).mpr (Or.inr ⟨name, external, i, g, reaches, there, rfl⟩)

/-- Analysing two blocks together finds the same as analysing the first, and then the second with
what the functions assign that the first leaves behind: names that the second has from before it
have their origins at the end of the first, and the second depends on the first in what it reads
from before. -/
theorem analyze_append {settings : Settings} {writes : GlobalWrites} {first second : List Node}
    (one : Explicit settings first) (two : Explicit settings second)
    (distinct : ((Node.blockStatements (first ++ second)).map Node.loc).Nodup)
    (single : ∀ callee, allNames ∉ writes.getD callee ∅) (a b c : Location) :
    ∃ rA rB r, analyze settings writes (.module a first) = .ok rA ∧
      analyze settings (rA.carriedWrites writes) (.module b second) = .ok rB ∧
      analyze settings writes (.module c (first ++ second)) = .ok r ∧
      r.statements.size = rA.statements.size + rB.statements.size ∧
      (∀ name, r.reachingAtExit name =
        (rB.reachingAtExit name).behind rA.statements.size (rA.reachingAtExit name)) ∧
      (∀ (i : Nat) (f : StatementFacts), rA.statements[i]? = some f → ∃ g, r.statements[i]? =
        some g ∧ g.node = f.node) ∧
      ∀ (k : Nat) (s : StatementFacts), rB.statements[k]? = some s →
        ∃ t, r.statements[rA.statements.size + k]? = some t ∧ t.node = s.node ∧
          (∀ name, t.reaching name = (s.reaching name).behind rA.statements.size
          (rA.reachingAtExit name)) ∧ (∀ (name : String) (i : Nat) (f : StatementFacts),
            rA.statements[i]? = some f →
              ((∃ edge ∈ t.inbound, edge.kind = .data ∧ edge.name = some name ∧
                edge.source = f.location) ↔ name ∈ s.external ∧
                .statement i ∈ rA.reachingAtExit name)) ∧
          ∀ name, name ∈ t.external ↔ name ∈ s.external ∧ .entry ∈ rA.reachingAtExit name := by
  have together := together_second one single two
  have size := size_halfway one single second
  have exit := exit_halfway one single second
  refine ⟨_, _, _, one.analyze_eq writes a, two.analyze_eq _ b,
    (one.append two).analyze_eq writes c, ?_, ?_, ?_, ?_⟩
  · rw [← size]
    exact together.size
  · intro name
    rw [← size, ← exit name]
    exact together.state.carried name
  · intro i f found
    obtain ⟨g, there, carried⟩ := partner_halfway one single second found
    refine ⟨g, (together.before i ?_).trans there, carried.node⟩
    exact (Array.getElem?_eq_some_iff.mp there).1
  · intro k s found
    obtain ⟨t, there, carried⟩ := together.partner found
    refine ⟨t, size ▸ there, carried.node, fun name => ?_, fun name i f source => ?_,
      fun name => ?_⟩
    · rw [← size, ← exit name]
      exact carried.entry name
    · exact data_edge_iff one two distinct single (Array.mem_of_getElem? found) carried source name
    · rw [carried.external, exit]

/-- `total = start`, and then `def bump():` with `global total` and `total = step`. -/
def bumpDefined : List Node :=
  [.assign ⟨1, 0, 1, 13⟩ [.name default "total"] (some (.name default "start")) none none false,
    .function ⟨2, 0, 4, 16⟩ "bump" default [] none
      [.global default ["total"], .assign default [.name default "total"]
      (some (.name default "step")) none none false] false]

/-- `while total:` with `bump()`. -/
def bumpCalled : List Node :=
  [.whileLoop ⟨5, 0, 6, 10⟩ default (.name default "total")
    [.expression ⟨6, 4, 6, 10⟩ (.call default (.name default "bump") [] [])] none]

theorem explicit_bumpDefined : Explicit ⟨∅, ∅⟩ bumpDefined where
  faultless := by decide
  known := by
    refine forall_mem_cons.mpr ⟨⟨by decide, forall_mem_nil _⟩,
      forall_mem_singleton.mpr ⟨by decide, ?_⟩⟩
    refine forall_mem_cons.mpr ⟨⟨by decide, forall_mem_nil _⟩, forall_mem_singleton.mpr ?_⟩
    exact ⟨by decide, forall_mem_nil _⟩
  single := by decide

theorem explicit_bumpCalled : Explicit ⟨∅, ∅⟩ bumpCalled where
  faultless := by decide
  known := by
    refine forall_mem_singleton.mpr ⟨by decide, ?_⟩
    exact forall_mem_singleton.mpr ⟨by decide, forall_mem_nil _⟩
  single := by decide

/-- A loop that calls a function of the block in front of it. The function assigns a global name, so
in front of the call the name is as the block left it or as the call did, and the call depends on
the definition of the function. -/
theorem analyze_append_bump : Explicit ⟨∅, ∅⟩ bumpDefined ∧ Explicit ⟨∅, ∅⟩ bumpCalled ∧
    ((Node.blockStatements (bumpDefined ++ bumpCalled)).map Node.loc).Nodup ∧
    (∀ callee, allNames ∉ (∅ : GlobalWrites).getD callee ∅) ∧
    ∃ rA rB r s t, analyze ⟨∅, ∅⟩ ∅ (.module default bumpDefined) = .ok rA ∧
      analyze ⟨∅, ∅⟩ (rA.carriedWrites ∅) (.module default bumpCalled) = .ok rB ∧
      analyze ⟨∅, ∅⟩ ∅ (.module default (bumpDefined ++ bumpCalled)) = .ok r ∧
      rB.statements[1]? = some s ∧ r.statements[3]? = some t ∧
      t.reaching "total" = (s.reaching "total").behind 2 (rA.reachingAtExit "total") ∧
      .statement 1 ∈ s.reaching "total" ∧
      ∃ edge ∈ t.inbound, edge.kind = .data ∧ edge.name = some "bump" ∧
      edge.source = ⟨2, 0, 4, 16⟩ := by
  have single : ∀ callee, allNames ∉ (∅ : GlobalWrites).getD callee ∅ := by simp
  refine ⟨explicit_bumpDefined, explicit_bumpCalled, by decide, single, ?_⟩
  obtain ⟨rA, rB, r, analyzedA, analyzedB, analyzed, _, _, _, each⟩ :=
    analyze_append explicit_bumpDefined explicit_bumpCalled (by decide) single default
      default default
  have both : rB.statements[1]?.any (fun s => decide (.statement 1 ∈ s.reaching "total" ∧
      "bump" ∈ s.external)) = true ∧ rA.statements.size = 2 ∧
      rA.statements[1]?.map StatementFacts.location = some ⟨2, 0, 4, 16⟩ ∧
      .statement 1 ∈ rA.reachingAtExit "bump" := by
    obtain rfl := (analyze_eq_ok analyzedA).2
    obtain rfl := (analyze_eq_ok analyzedB).2
    decide +kernel
  obtain ⟨own, size, place, reaches⟩ := both
  obtain ⟨s, found, held⟩ := (Option.any_eq_true _ _).mp own
  obtain ⟨f, source, same⟩ := Option.map_eq_some_iff.mp place
  obtain ⟨t, there, _, entry, edges, _⟩ := each 1 s found
  rw [size] at there entry
  obtain ⟨turned, external⟩ := of_decide_eq_true held
  refine ⟨rA, rB, r, s, t, analyzedA, analyzedB, analyzed, found, there, entry "total", turned, ?_⟩
  rw [← same]
  exact (edges "bump" 1 f source).mpr ⟨external, reaches⟩

/-- What `f` assigns, if it may assign any name. -/
def assignsAnything : GlobalWrites :=
  (∅ : GlobalWrites).insert "f" (ExtTreeSet.ofList [allNames])

/-- `f()`. -/
def anythingCalled : List Node :=
  [.expression ⟨1, 0, 1, 3⟩ (.call default (.name default "f") [] [])]

/-- `y = x`. -/
def nameRead : List Node :=
  [.assign ⟨2, 0, 2, 5⟩ [.name default "y"] (some (.name default "x")) none none false]

/-- A call that may assign any name reaches the end of its block under no name but that of all
names. Together with the next block, a statement there depends on the call in a name that it does
not reach. -/
theorem anything_crosses : Explicit ⟨∅, ∅⟩ anythingCalled ∧ Explicit ⟨∅, ∅⟩ nameRead ∧
    ((Node.blockStatements (anythingCalled ++ nameRead)).map Node.loc).Nodup ∧
    ∃ rA r f t, analyze ⟨∅, ∅⟩ assignsAnything (.module default anythingCalled) = .ok rA ∧
      analyze ⟨∅, ∅⟩ assignsAnything (.module default (anythingCalled ++ nameRead)) = .ok r ∧
      rA.statements[0]? = some f ∧ r.statements[1]? = some t ∧
      (∃ edge ∈ t.inbound, edge.kind = .data ∧ edge.name = some "x" ∧ edge.source = f.location) ∧
      .statement 0 ∉ rA.reachingAtExit "x" := by
  have one : Explicit ⟨∅, ∅⟩ anythingCalled :=
    ⟨by decide, forall_mem_singleton.mpr ⟨by decide, forall_mem_nil _⟩, by decide⟩
  have two : Explicit ⟨∅, ∅⟩ nameRead :=
    ⟨by decide, forall_mem_singleton.mpr ⟨by decide, forall_mem_nil _⟩, by decide⟩
  refine ⟨one, two, by decide, _, _, _, _, one.analyze_eq _ default, (one.append two).analyze_eq _
    default, rfl, rfl, ?_⟩
  decide +kernel

end Flow

end Lineage
