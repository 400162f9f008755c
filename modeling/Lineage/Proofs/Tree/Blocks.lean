import Lineage.Flow.Check

/-!
Induction over the statements of a tree. A property of statements holds of all of them if it holds
of each statement whose blocks hold only statements with the property. The bodies of functions and
classes are not blocks, so a statement that defines one comes with no assumption.
-/

namespace Lineage

open List

variable {elifs : List (Elif Node)} {handlers : List (Handler Node)} {code : List Node}
  {header loc : Location} {m n : Node} {P : Node → Prop} {orelse : Option (Clause Node)}

theorem Clause.forall_blocks (o : Option (Clause Node)) :
    (∀ block ∈ Clause.blocks o, ∀ c ∈ block.2, P c) ↔ ∀ c ∈ Clause.statements o, P c := by
  cases o with
  | none => simp [Clause.blocks, Clause.statements]
  | some clause => simp [Clause.blocks, Clause.statements]

namespace Node

/-- A property of all statements in the blocks of a node, clause by clause. -/
theorem forall_clauseBlocks_branch {test : Node} :
    (∀ block ∈ (Node.branch loc header test code elifs orelse).clauseBlocks, ∀ c ∈ block.2, P c) ↔
      (∀ c ∈ code, P c) ∧ (∀ e ∈ elifs, ∀ c ∈ e.body, P c) ∧
      ∀ c ∈ Clause.statements orelse, P c := by
  rw [clauseBlocks, cons_append, forall_mem_cons, forall_mem_append, forall_mem_map,
    Clause.forall_blocks]

theorem forall_clauseBlocks_while {test : Node} :
    (∀ block ∈ (Node.whileLoop loc header test code orelse).clauseBlocks, ∀ c ∈ block.2, P c) ↔
      (∀ c ∈ code, P c) ∧ ∀ c ∈ Clause.statements orelse, P c := by
  rw [clauseBlocks, forall_mem_cons, Clause.forall_blocks]

theorem forall_clauseBlocks_for {target iter : Node} {isAsync : Bool} :
    (∀ block ∈ (Node.forLoop loc header target iter code orelse isAsync).clauseBlocks,
        ∀ c ∈ block.2, P c) ↔
      (∀ c ∈ code, P c) ∧ ∀ c ∈ Clause.statements orelse, P c := by
  rw [clauseBlocks, forall_mem_cons, Clause.forall_blocks]

theorem forall_clauseBlocks_attempt {final : Option (Clause Node)} :
    (∀ block ∈ (Node.attempt loc header code handlers orelse final).clauseBlocks,
      ∀ c ∈ block.2, P c) ↔ (∀ c ∈ code, P c) ∧ (∀ h ∈ handlers, ∀ c ∈ h.body, P c) ∧
        (∀ c ∈ Clause.statements orelse, P c) ∧ ∀ c ∈ Clause.statements final, P c := by
  rw [clauseBlocks, cons_append, cons_append, forall_mem_cons, forall_mem_append,
    forall_mem_append, forall_mem_map, Clause.forall_blocks, Clause.forall_blocks, and_assoc]

theorem forall_clauseBlocks_context {items : List (WithItem Node)} {isAsync : Bool} :
    (∀ block ∈ (Node.context loc header items code isAsync).clauseBlocks, ∀ c ∈ block.2, P c) ↔
      ∀ c ∈ code, P c := by
  rw [clauseBlocks, forall_mem_singleton]

theorem blockStatements_eq_flatMap (code : List Node) :
    blockStatements code = code.flatMap fun c => c :: c.statements := by
  induction code with
  | nil => rfl
  | cons c rest ih => rw [blockStatements, ih, flatMap_cons]

theorem elifStatements_eq_flatMap (elifs : List (Elif Node)) :
    elifStatements elifs = elifs.flatMap fun e => blockStatements e.body := by
  induction elifs with
  | nil => rfl
  | cons e rest ih => rw [elifStatements, ih, flatMap_cons]

theorem handlerStatements_eq_flatMap (handlers : List (Handler Node)) :
    handlerStatements handlers = handlers.flatMap fun h => blockStatements h.body := by
  induction handlers with
  | nil => rfl
  | cons h rest ih => rw [handlerStatements, ih, flatMap_cons]

theorem clauseStatements_eq_flatMap (o : Option (Clause Node)) :
    clauseStatements o = (Clause.blocks o).flatMap fun block => blockStatements block.2 := by
  cases o with
  | none => rfl
  | some clause => rw [clauseStatements, Clause.blocks, flatMap_singleton]

/-- The statements inside a node are those of its blocks. -/
theorem statements_eq_flatMap (n : Node) :
    n.statements = n.clauseBlocks.flatMap fun block => blockStatements block.2 := by
  cases n
  case module loc code => rw [statements, clauseBlocks, flatMap_singleton]
  case branch loc header test code elifs orelse =>
    rw [statements, clauseBlocks, cons_append, flatMap_cons, flatMap_append, flatMap_map,
      elifStatements_eq_flatMap, clauseStatements_eq_flatMap, append_assoc]
  case whileLoop loc header test code orelse =>
    rw [statements, clauseBlocks, flatMap_cons, clauseStatements_eq_flatMap]
  case forLoop loc header target iter code orelse isAsync =>
    rw [statements, clauseBlocks, flatMap_cons, clauseStatements_eq_flatMap]
  case attempt loc header code handlers orelse final =>
    rw [statements, clauseBlocks, cons_append, cons_append, flatMap_cons, flatMap_append,
      flatMap_append, flatMap_map, handlerStatements_eq_flatMap, clauseStatements_eq_flatMap,
      clauseStatements_eq_flatMap, append_assoc, append_assoc, append_assoc]
  case context loc header items code isAsync => rw [statements, clauseBlocks, flatMap_singleton]
  all_goals rfl

/-- The statements in the blocks of a node, those in blocks of theirs apart. -/
def enclosed (n : Node) : List Node :=
  n.clauseBlocks.flatMap Prod.snd

theorem statements_eq_enclosed (n : Node) : n.statements = blockStatements n.enclosed := by
  rw [statements_eq_flatMap, blockStatements_eq_flatMap, enclosed, flatMap_assoc]
  exact congrArg (fun f => List.flatMap f n.clauseBlocks)
    (funext fun block => blockStatements_eq_flatMap block.2)

/-! ### Jumps -/

theorem mem_blockJumps : m ∈ blockJumps code ↔ ∃ c ∈ code, m ∈ c.jumps := by
  induction code with
  | nil => simp [blockJumps]
  | cons c rest ih => simp [blockJumps, ih]

theorem mem_elifJumps : m ∈ elifJumps elifs ↔ ∃ e ∈ elifs, m ∈ blockJumps e.body := by
  induction elifs with
  | nil => simp [elifJumps]
  | cons e rest ih => simp [elifJumps, ih]

theorem mem_handlerJumps : m ∈ handlerJumps handlers ↔ ∃ h ∈ handlers, m ∈ blockJumps h.body := by
  induction handlers with
  | nil => simp [handlerJumps]
  | cons h rest ih => simp [handlerJumps, ih]

theorem mem_clauseJumps {o : Option (Clause Node)} :
    m ∈ clauseJumps o ↔ ∃ block ∈ Clause.blocks o, m ∈ blockJumps block.2 := by
  cases o with
  | none => simp [clauseJumps, Clause.blocks]
  | some clause => simp [clauseJumps, Clause.blocks]

/-- Whether a statement leaves or restarts a loop. -/
def isJump : Node → Bool
  | .break _ => true
  | .continue _ => true
  | _ => false

/-- A jump is the statement itself or stands in one of its blocks. -/
theorem jumps_cases (member : m ∈ n.jumps) :
    (m = n ∧ n.isJump = true) ∨ ∃ block ∈ n.clauseBlocks, m ∈ blockJumps block.2 := by
  cases n
  case «break» => exact Or.inl ⟨mem_singleton.mp member, rfl⟩
  case «continue» => exact Or.inl ⟨mem_singleton.mp member, rfl⟩
  case module loc code => exact Or.inr ⟨(loc, code), mem_singleton_self _, member⟩
  case branch loc header test code elifs orelse =>
    simp only [jumps, mem_append, mem_elifJumps, mem_clauseJumps] at member
    rcases member with (own | ⟨e, among, inside⟩) | ⟨block, among, inside⟩
    · exact Or.inr ⟨(header, code), by simp [clauseBlocks], own⟩
    · exact Or.inr ⟨(e.header, e.body), by simp [clauseBlocks, mem_map_of_mem among], inside⟩
    · exact Or.inr ⟨block, by simp [clauseBlocks, among], inside⟩
  case whileLoop loc header test code orelse =>
    obtain ⟨block, among, inside⟩ := mem_clauseJumps.mp member
    exact Or.inr ⟨block, mem_cons_of_mem _ among, inside⟩
  case forLoop loc header target iter code orelse isAsync =>
    obtain ⟨block, among, inside⟩ := mem_clauseJumps.mp member
    exact Or.inr ⟨block, mem_cons_of_mem _ among, inside⟩
  case attempt loc header code handlers orelse final =>
    simp only [jumps, mem_append, mem_handlerJumps, mem_clauseJumps] at member
    rcases member with
      ((own | ⟨h, among, inside⟩) | ⟨block, among, inside⟩) | ⟨block, among, inside⟩
    · exact Or.inr ⟨(header, code), by simp [clauseBlocks], own⟩
    · exact Or.inr ⟨(h.header, h.body), by simp [clauseBlocks, mem_map_of_mem among], inside⟩
    · exact Or.inr ⟨block, by simp [clauseBlocks, among], inside⟩
    · exact Or.inr ⟨block, by simp [clauseBlocks, among], inside⟩
  case context loc header items code isAsync => exact Or.inr ⟨(header, code),
      mem_singleton_self _, member⟩
  all_goals exact absurd member not_mem_nil

/-- A property of a statement and of all statements inside it. -/
def Throughout (P : Node → Prop) (n : Node) : Prop :=
  ∀ m ∈ n :: n.statements, P m

/-- There is no module among the statement and those inside it. -/
abbrev ModuleFree (n : Node) : Prop :=
  n.Throughout fun m => m.kind ≠ .module

theorem Throughout.inside (all : n.Throughout P) {block : Block} (among : block ∈ n.clauseBlocks)
    {c : Node} (member : c ∈ block.2) : c.Throughout P := by
  intro m inside
  refine all m (mem_cons_of_mem n ?_)
  rw [statements_eq_flatMap, mem_flatMap]
  refine ⟨block, among, ?_⟩
  rw [blockStatements_eq_flatMap, mem_flatMap]
  exact ⟨c, member, inside⟩

/-- Induction over statements by the blocks of their clauses. -/
theorem clause_induction (step : ∀ n : Node, (∀ block ∈ n.clauseBlocks, ∀ c ∈ block.2, P c) → P n)
    (n : Node) : P n := by
  refine (statements.mutual_induct P (fun hs => ∀ h ∈ hs, ∀ c ∈ h.body, P c)
    (fun code => ∀ c ∈ code, P c) (fun o => ∀ c ∈ Clause.statements o, P c)
    (fun es => ∀ e ∈ es, ∀ c ∈ e.body, P c) ?module ?branch ?whileLoop ?forLoop ?attempt ?context
    ?flat ?nil ?cons ?elifNil ?elifCons ?none ?some ?handlerNil ?handlerCons).1 n
  case module =>
    intro _ code body
    exact step _ (by rwa [clauseBlocks, forall_mem_singleton])
  case branch =>
    intro _ header test code elifs orelse body others last
    exact step _ (forall_clauseBlocks_branch.mpr ⟨body, others, last⟩)
  case whileLoop =>
    intro _ header test code orelse body last
    exact step _ (forall_clauseBlocks_while.mpr ⟨body, last⟩)
  case forLoop =>
    intro _ header target iter code orelse _ body last
    exact step _ (forall_clauseBlocks_for.mpr ⟨body, last⟩)
  case attempt =>
    intro _ header code handlers orelse final body others last ends
    exact step _ (forall_clauseBlocks_attempt.mpr ⟨body, others, last, ends⟩)
  case context =>
    intro _ header items code _ body
    exact step _ (forall_clauseBlocks_context.mpr body)
  case flat =>
    -- No clause is left: the six kinds of node with blocks are excluded.
    intro n notModule notBranch notWhile notFor notAttempt notContext
    refine step n ?_
    have none : n.clauseBlocks = [] := by
      rw [clauseBlocks] <;> assumption
    rw [none]
    exact forall_mem_nil _
  case nil => exact forall_mem_nil _
  case cons =>
    intro first rest head tail
    exact forall_mem_cons.mpr ⟨head, tail⟩
  case elifNil => exact forall_mem_nil _
  case elifCons =>
    intro _ _ _ _ head tail
    exact forall_mem_cons.mpr ⟨head, tail⟩
  case none => exact forall_mem_nil _
  case some => exact fun _ _ body => body
  case handlerNil => exact forall_mem_nil _
  case handlerCons =>
    intro _ _ _ _ _ head tail
    exact forall_mem_cons.mpr ⟨head, tail⟩

theorem Throughout.below (all : n.Throughout P) (member : m ∈ n.statements) : m.Throughout P := by
  induction n using clause_induction with
  | step n ih =>
    rw [statements_eq_flatMap] at member
    obtain ⟨block, among, inside⟩ := mem_flatMap.mp member
    rw [blockStatements_eq_flatMap] at inside
    obtain ⟨c, own, inside⟩ := mem_flatMap.mp inside
    rcases mem_cons.mp inside with rfl | deeper
    · exact all.inside among own
    · exact ih block among c own (all.inside among own) deeper

theorem throughout_block (all : ∀ c ∈ code, c.Throughout P) (member : m ∈ blockStatements code) :
    m.Throughout P := by
  rw [blockStatements_eq_flatMap] at member
  obtain ⟨c, own, inside⟩ := mem_flatMap.mp member
  rcases mem_cons.mp inside with rfl | deeper
  · exact all m own
  · exact (all c own).below deeper

/-- Induction over blocks: the blocks of the first statement come before those behind it. -/
theorem block_induction {P : List Node → Prop} (nil : P [])
    (cons : ∀ n rest, P n.enclosed → P rest → P (n :: rest)) (code : List Node) : P code := by
  have all : ∀ code : List Node, (∀ c ∈ code, P c.enclosed) → P code := by
    intro code
    induction code with
    | nil => exact fun _ => nil
    | cons n rest ih =>
      intro each
      obtain ⟨own, others⟩ := forall_mem_cons.mp each
      exact cons n rest own (ih others)
  have inside : ∀ n : Node, P n.enclosed := by
    intro n
    induction n using clause_induction with
    | step n ih =>
      refine all _ fun c member => ?_
      obtain ⟨block, among, own⟩ := mem_flatMap.mp member
      exact ih block among c own
  exact all code fun c _ => inside c

theorem blockJumps_subset (inside : ∀ c ∈ code, c.jumps ⊆ c :: c.statements) :
    blockJumps code ⊆ blockStatements code := by
  intro m member
  obtain ⟨c, among, jump⟩ := mem_blockJumps.mp member
  rw [blockStatements_eq_flatMap, mem_flatMap]
  exact ⟨c, among, inside c among jump⟩

theorem jumps_subset (n : Node) : n.jumps ⊆ n :: n.statements := by
  induction n using clause_induction with
  | step n ih =>
    intro m member
    rcases jumps_cases member with ⟨rfl, _⟩ | ⟨block, among, jump⟩
    · exact mem_cons_self ..
    · refine mem_cons_of_mem n ?_
      rw [statements_eq_flatMap, mem_flatMap]
      exact ⟨block, among, blockJumps_subset (ih block among) jump⟩

/-- The jumps of a loop are statements inside it. -/
theorem loopJumps_subset (n : Node) : n.loopJumps ⊆ n.statements := by
  have body : ∀ code : List Node, blockJumps code ⊆ blockStatements code :=
    fun code => blockJumps_subset fun c _ => jumps_subset c
  cases n
  case whileLoop loc header test code orelse =>
    exact List.Subset.trans (body code) (subset_append_left _ _)
  case forLoop loc header target iter code orelse isAsync =>
    exact List.Subset.trans (body code) (subset_append_left _ _)
  all_goals exact nil_subset _

/-- What a property hands on to the statements in the blocks of a statement holds throughout. -/
theorem throughout_of {Q : Node → Prop} (own : ∀ n, Q n → P n)
    (inside : ∀ n, Q n → ∀ block ∈ n.clauseBlocks, ∀ c ∈ block.2, Q c) (n : Node) :
    Q n → n.Throughout P := by
  induction n using clause_induction with
  | step n ih =>
    intro holds m member
    rcases mem_cons.mp member with rfl | member
    · exact own m holds
    · rw [statements_eq_flatMap, mem_flatMap] at member
      obtain ⟨block, among, member⟩ := member
      rw [blockStatements_eq_flatMap, mem_flatMap] at member
      obtain ⟨c, child, member⟩ := member
      exact ih block among c child (inside n holds block among c child) m member

theorem blockFault_eq_none : blockFault code = none ↔ ∀ c ∈ code, c.statementFault = none := by
  induction code with
  | nil => simp [blockFault]
  | cons c rest ih => simp [blockFault, ih]

theorem elifsBlockFault_eq_none (none : elifsBlockFault elifs = none) :
    ∀ e ∈ elifs, ∀ c ∈ e.body, c.statementFault = .none := by
  induction elifs with
  | nil => exact forall_mem_nil _
  | cons e rest ih =>
    simp only [elifsBlockFault, Option.orElse_eq_orElse, Option.orElse_eq_or,
      Option.or_eq_none_iff] at none
    exact forall_mem_cons.mpr ⟨blockFault_eq_none.mp none.2.1, ih none.2.2⟩

theorem handlersBlockFault_eq_none (none : handlersBlockFault handlers = none) :
    ∀ h ∈ handlers, ∀ c ∈ h.body, c.statementFault = .none := by
  induction handlers with
  | nil => exact forall_mem_nil _
  | cons h rest ih =>
    simp only [handlersBlockFault, Option.orElse_eq_orElse, Option.orElse_eq_or,
      Option.or_eq_none_iff] at none
    exact forall_mem_cons.mpr ⟨blockFault_eq_none.mp none.2.1, ih none.2.2⟩

theorem clauseBlockFault_eq_none {clause : Option (Clause Node)}
    (none : clauseBlockFault clause = none) : ∀ c ∈ Clause.statements clause, c.statementFault =
    .none := by
  cases clause with
  | none => exact forall_mem_nil _
  | some c => exact blockFault_eq_none.mp none

/-- A statement without a fault has none in its blocks. -/
theorem statementFault_inside (none : n.statementFault = none) :
    ∀ block ∈ n.clauseBlocks, ∀ c ∈ block.2, c.statementFault = .none := by
  cases n
  case module => simp [statementFault, simpleFault, kind, Kind.isStatement] at none
  case branch =>
    simp only [statementFault, Option.orElse_eq_orElse, Option.orElse_eq_or,
      Option.or_eq_none_iff] at none
    obtain ⟨_, body, others, last⟩ := none
    exact forall_clauseBlocks_branch.mpr
      ⟨blockFault_eq_none.mp body, elifsBlockFault_eq_none others, clauseBlockFault_eq_none last⟩
  case whileLoop =>
    simp only [statementFault, Option.orElse_eq_orElse, Option.orElse_eq_or,
      Option.or_eq_none_iff] at none
    obtain ⟨_, body, last⟩ := none
    exact forall_clauseBlocks_while.mpr ⟨blockFault_eq_none.mp body, clauseBlockFault_eq_none last⟩
  case forLoop =>
    simp only [statementFault, Option.orElse_eq_orElse, Option.orElse_eq_or,
      Option.or_eq_none_iff] at none
    obtain ⟨_, _, body, last⟩ := none
    exact forall_clauseBlocks_for.mpr ⟨blockFault_eq_none.mp body, clauseBlockFault_eq_none last⟩
  case attempt =>
    simp only [statementFault, Option.orElse_eq_orElse, Option.orElse_eq_or,
      Option.or_eq_none_iff] at none
    obtain ⟨body, others, last, ends⟩ := none
    exact forall_clauseBlocks_attempt.mpr
      ⟨blockFault_eq_none.mp body, handlersBlockFault_eq_none others, clauseBlockFault_eq_none last,
        clauseBlockFault_eq_none ends⟩
  case context =>
    simp only [statementFault, Option.orElse_eq_orElse, Option.orElse_eq_or,
      Option.or_eq_none_iff] at none
    exact forall_clauseBlocks_context.mpr (blockFault_eq_none.mp none.2)
  all_goals exact forall_mem_nil _

theorem isStatement_of_statementFault (none : n.statementFault = none) :
    n.kind.isStatement = true := by
  cases n
  all_goals first
    | rfl
    | simp [statementFault, simpleFault, kind, Kind.isStatement] at none

/-- Where no fault is met, statements stand in all places of statements. -/
theorem isStatement_of_blockFault (none : blockFault code = none) :
    ∀ c ∈ code, c.Throughout fun m => m.kind.isStatement = true :=
  fun c member => throughout_of (fun _ => isStatement_of_statementFault)
    (fun _ => statementFault_inside) c (blockFault_eq_none.mp none c member)

/-- No statement of a block without faults is a module. -/
theorem plain_of_blockFault (faultless : blockFault code = none) :
    ∀ c ∈ code, c.ModuleFree := by
  intro c member m inside same
  have statement : m.kind.isStatement = true :=
    isStatement_of_blockFault faultless c member m inside
  rw [same] at statement
  exact absurd statement Bool.false_ne_true

end Node

end Lineage
