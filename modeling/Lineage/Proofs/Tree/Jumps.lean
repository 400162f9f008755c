import Lineage.Proofs.Tree.Mentions
import Mathlib.Data.List.Flatten
import Mathlib.Data.List.Nodup
import Mathlib.Data.List.Pairwise
import Mathlib.Data.List.Perm.Subperm

/-!
Which loop a jump belongs to. A loop owns what stands in its body and not in the body of a loop
further inside; the jumps that are found for a loop are those that it owns. If no jump stands in a
tree twice, none belongs to two loops, and none of those that no loop owns is found for any.
-/

namespace Lineage.Node

open List

variable {n j m : Node}

/-- The statements in the body of a loop, those inside them included. -/
def looped : Node → List Node
  | .whileLoop _ _ _ code _ => blockStatements code
  | .forLoop _ _ _ _ code _ _ => blockStatements code
  | _ => []

/-- A loop owns a statement if its body is the innermost body of a loop with the statement. -/
def Owns (loop j : Node) : Prop :=
  j ∈ loop.looped ∧ ∀ inner ∈ loop.looped, j ∉ inner.looped

/-- The jumps that go no further out than a node: those of a loop, or those in the body of a
function or class that belong to no loop there. -/
def caught : Node → List Node
  | .whileLoop _ _ _ code _ => blockJumps code
  | .forLoop _ _ _ _ code _ _ => blockJumps code
  | .function _ _ _ _ _ code _ => blockJumps code
  | .classDef _ _ _ _ _ code => blockJumps code
  | _ => []

theorem loopJumps_subset_caught (n : Node) : n.loopJumps ⊆ n.caught := by
  cases n
  case whileLoop => exact List.Subset.refl _
  case forLoop => exact List.Subset.refl _
  all_goals exact nil_subset _

/-! ### Statements inside statements -/

theorem mem_blockStatements {code : List Node} :
    m ∈ blockStatements code ↔ ∃ c ∈ code, m ∈ c :: c.statements := by
  rw [blockStatements_eq_flatMap, mem_flatMap]

theorem mem_statements :
    m ∈ n.statements ↔ ∃ block ∈ n.clauseBlocks, ∃ c ∈ block.2, m ∈ c :: c.statements := by
  simp only [statements_eq_flatMap, mem_flatMap, mem_blockStatements]

theorem length_nodes_le (below : m ∈ n.nodes) : m.nodes.length ≤ n.nodes.length := by
  induction n using children_induction with
  | step n ih =>
    rw [nodes_eq] at below
    rcases mem_cons.mp below with rfl | below
    · exact Nat.le_refl _
    · obtain ⟨c, child, below⟩ := mem_flatMap.mp below
      exact Nat.le_trans (ih c child below) (Nat.le_of_lt (length_nodes_lt child))

/-- A statement does not stand inside itself. -/
theorem not_mem_statements (n : Node) : n ∉ n.statements := by
  intro inside
  obtain ⟨block, among, c, member, inside⟩ := mem_statements.mp inside
  have below : n ∈ c.nodes := by
    rcases mem_cons.mp inside with rfl | inside
    · exact mem_nodes_self n
    · exact statements_subset c inside
  exact absurd (length_nodes_lt (mem_children_of_block among member))
    (Nat.not_lt.mpr (length_nodes_le below))

theorem statements_trans (inside : m ∈ n.statements) : m.statements ⊆ n.statements := by
  induction n using clause_induction with
  | step n ih =>
    intro s deeper
    obtain ⟨block, among, c, member, inside⟩ := mem_statements.mp inside
    refine mem_statements.mpr ⟨block, among, c, member, mem_cons_of_mem c ?_⟩
    rcases mem_cons.mp inside with rfl | inside
    · exact deeper
    · exact ih block among c member inside deeper

theorem looped_subset (n : Node) : n.looped ⊆ n.statements := by
  cases n
  case whileLoop => exact subset_append_left _ _
  case forLoop => exact subset_append_left _ _
  all_goals exact nil_subset _

/-- The body of a loop holds all statements inside its statements. -/
theorem looped_trans (inside : m ∈ n.looped) : m.statements ⊆ n.looped := by
  have body : ∀ code : List Node, m ∈ blockStatements code →
      m.statements ⊆ blockStatements code := by
    intro code inside s deeper
    obtain ⟨c, member, inside⟩ := mem_blockStatements.mp inside
    refine mem_blockStatements.mpr ⟨c, member, mem_cons_of_mem c ?_⟩
    rcases mem_cons.mp inside with rfl | inside
    · exact deeper
    · exact statements_trans inside deeper
  cases n
  case whileLoop => exact body _ inside
  case forLoop => exact body _ inside
  all_goals exact absurd inside not_mem_nil

/-! ### Jumps and their loops -/

theorem blockJumps_eq_flatMap (code : List Node) : blockJumps code = code.flatMap jumps := by
  induction code with
  | nil => rfl
  | cons c rest ih => rw [blockJumps, ih, flatMap_cons]

theorem clauseJumps_eq_flatMap (o : Option (Clause Node)) :
    clauseJumps o = (Clause.statements o).flatMap jumps := by
  cases o with
  | none => rfl
  | some clause => exact blockJumps_eq_flatMap clause.body

theorem elifJumps_sublist (elifs : List (Elif Node)) :
    (elifJumps elifs).Sublist ((elifs.flatMap Elif.nodes).flatMap jumps) := by
  induction elifs with
  | nil => exact List.Sublist.refl _
  | cons e rest ih =>
    rw [elifJumps, flatMap_cons, flatMap_append, Elif.nodes, flatMap_cons, blockJumps_eq_flatMap]
    exact (sublist_append_right _ _).append ih

theorem handlerJumps_sublist (handlers : List (Handler Node)) :
    (handlerJumps handlers).Sublist ((handlers.flatMap Handler.nodes).flatMap jumps) := by
  induction handlers with
  | nil => exact List.Sublist.refl _
  | cons h rest ih =>
    rw [handlerJumps, flatMap_cons, flatMap_append, Handler.nodes, flatMap_append,
      blockJumps_eq_flatMap]
    exact (sublist_append_right _ _).append ih

/-- What goes out of a node and what it catches comes from itself or from its children. -/
theorem jumps_append_caught (n : Node) :
    (n.jumps ++ n.caught).Subperm (n :: n.children.flatMap jumps) := by
  cases n
  case «break» => exact List.Subperm.refl _
  case «continue» => exact List.Subperm.refl _
  case module loc code =>
    simp only [jumps, caught, append_nil, blockJumps_eq_flatMap]
    exact (sublist_cons_self _ _).subperm
  case function loc name header params returns code isAsync =>
    simp only [jumps, caught, nil_append, blockJumps_eq_flatMap, children, flatMap_append]
    exact ((sublist_append_right _ _).cons _).subperm
  case classDef loc name header bases keywords code =>
    simp only [jumps, caught, nil_append, blockJumps_eq_flatMap, children, flatMap_append]
    exact ((sublist_append_right _ _).cons _).subperm
  case branch loc header test code elifs orelse =>
    simp only [jumps, caught, append_nil, blockJumps_eq_flatMap, clauseJumps_eq_flatMap, children,
      flatMap_append, flatMap_cons]
    exact ((((sublist_append_right _ _).append (elifJumps_sublist elifs)).append (.refl _)).cons
      _).subperm
  case whileLoop loc header test code orelse =>
    rw [jumps, caught, blockJumps_eq_flatMap, clauseJumps_eq_flatMap, children, flatMap_append,
      flatMap_cons]
    refine (perm_append_comm.subperm).trans ?_
    exact (((sublist_append_right _ _).append (.refl _)).cons _).subperm
  case forLoop loc header target iter code orelse isAsync =>
    rw [jumps, caught, blockJumps_eq_flatMap, clauseJumps_eq_flatMap, children, flatMap_append,
      flatMap_cons, flatMap_cons, ← append_assoc]
    refine (perm_append_comm.subperm).trans ?_
    exact (((sublist_append_right _ _).append (.refl _)).cons _).subperm
  case attempt loc header code handlers orelse final =>
    simp only [jumps, caught, append_nil, blockJumps_eq_flatMap, clauseJumps_eq_flatMap, children,
      flatMap_append]
    exact (((((List.Sublist.refl _).append (handlerJumps_sublist handlers)).append (.refl _)).append
      (.refl _)).cons _).subperm
  case context loc header items code isAsync =>
    simp only [jumps, caught, append_nil, blockJumps_eq_flatMap, children, flatMap_append]
    exact ((sublist_append_right _ _).cons _).subperm
  all_goals exact nil_subperm

theorem subperm_flatMap {α β : Type} {f g : α → List β} {xs : List α}
    (each : ∀ x ∈ xs, (f x).Subperm (g x)) : (xs.flatMap f).Subperm (xs.flatMap g) := by
  induction xs with
  | nil => exact List.Subperm.refl _
  | cons x rest ih =>
    obtain ⟨first, others⟩ := forall_mem_cons.mp each
    rw [flatMap_cons, flatMap_cons]
    exact first.append (ih others)

/-- No jump is counted more often than it stands in the tree, neither among those that leave the
tree nor among those that its nodes catch. -/
theorem caught_subperm (n : Node) : (n.jumps ++ n.nodes.flatMap caught).Subperm n.nodes := by
  induction n using children_induction with
  | step n ih =>
    rw [nodes_eq, flatMap_cons, flatMap_assoc, ← append_assoc]
    refine ((jumps_append_caught n).append (List.Subperm.refl _)).trans ?_
    rw [cons_append]
    exact (subperm_cons n).mpr ((flatMap_append_perm ..).subperm.trans (subperm_flatMap ih))

theorem isJump_of_mem_jumps (member : j ∈ n.jumps) : j.isJump = true := by
  induction n using clause_induction with
  | step n ih =>
    rcases jumps_cases member with ⟨rfl, jump⟩ | ⟨block, among, inside⟩
    · exact jump
    · obtain ⟨c, own, inside⟩ := mem_blockJumps.mp inside
      exact ih block among c own inside

theorem isJump_of_mem_caught (member : j ∈ n.caught) : j.isJump = true := by
  have body : ∀ code : List Node, j ∈ blockJumps code → j.isJump = true := by
    intro code inside
    obtain ⟨c, _, out⟩ := mem_blockJumps.mp inside
    exact isJump_of_mem_jumps out
  cases n
  case whileLoop => exact body _ member
  case forLoop => exact body _ member
  case function => exact body _ member
  case classDef => exact body _ member
  all_goals exact absurd member not_mem_nil

/-- The jumps of a tree, each as often as it stands there. -/
def allJumps (root : Node) : List Node :=
  root.nodes.filter isJump

section Distinct

variable {root : Node}

theorem nodup_caught (distinct : root.allJumps.Nodup) :
    (root.jumps ++ root.nodes.flatMap caught).Nodup := by
  have jumps : ∀ j ∈ root.jumps ++ root.nodes.flatMap caught, j.isJump = true := by
    refine forall_mem_append.mpr ⟨fun j leaves => isJump_of_mem_jumps leaves, fun j member => ?_⟩
    obtain ⟨n, _, member⟩ := mem_flatMap.mp member
    exact isJump_of_mem_caught member
  obtain ⟨found, perm, sublist⟩ := (caught_subperm root).filter isJump
  rw [filter_eq_self.mpr jumps] at perm
  exact perm.nodup_iff.mp (sublist.nodup distinct)

/-- No jump is caught by two nodes. -/
theorem caught_unique (distinct : root.allJumps.Nodup) {a b : Node} (first : a ∈ root.nodes)
    (second : b ∈ root.nodes) (caughtFirst : j ∈ a.caught) (caughtSecond : j ∈ b.caught) :
    a = b := by
  have once : (root.nodes.flatMap caught).Nodup := (nodup_append.mp (nodup_caught distinct)).2.1
  obtain ⟨_, apart⟩ := nodup_flatMap.mp once
  have : Std.Symm (Function.onFun List.Disjoint caught) :=
    ⟨fun _ _ apart _ first second => apart second first⟩
  exact Classical.byContradiction fun other => apart.forall first second other caughtFirst
    caughtSecond

/-- A jump that leaves the tree is caught nowhere in it. -/
theorem not_caught_of_jumps (distinct : root.allJumps.Nodup) {a : Node} (member : a ∈ root.nodes)
    (leaves : j ∈ root.jumps) : j ∉ a.caught := by
  intro caughtHere
  exact (nodup_append.mp (nodup_caught distinct)).2.2 j leaves j
    (mem_flatMap.mpr ⟨a, member, caughtHere⟩) rfl

end Distinct

/-- The jumps in a block of a statement go out of the statement, unless it is a loop that they
belong to. -/
theorem blockJumps_cases {block : Block} (among : block ∈ n.clauseBlocks)
    (member : j ∈ blockJumps block.2) : j ∈ n.jumps ∨ j ∈ n.loopJumps := by
  cases n
  case module loc code =>
    obtain rfl := mem_singleton.mp among
    exact Or.inl member
  case branch loc header test code elifs orelse =>
    left
    simp only [clauseBlocks, mem_append, mem_cons, mem_map] at among
    simp only [jumps, mem_append, mem_elifJumps, mem_clauseJumps]
    rcases among with (rfl | ⟨e, own, rfl⟩) | last
    · exact Or.inl (Or.inl member)
    · exact Or.inl (Or.inr ⟨e, own, member⟩)
    · exact Or.inr ⟨block, last, member⟩
  case whileLoop loc header test code orelse =>
    rcases mem_cons.mp among with rfl | last
    · exact Or.inr member
    · exact Or.inl (mem_clauseJumps.mpr ⟨block, last, member⟩)
  case forLoop loc header target iter code orelse isAsync =>
    rcases mem_cons.mp among with rfl | last
    · exact Or.inr member
    · exact Or.inl (mem_clauseJumps.mpr ⟨block, last, member⟩)
  case attempt loc header code handlers orelse final =>
    left
    simp only [clauseBlocks, mem_append, mem_cons, mem_map] at among
    simp only [jumps, mem_append, mem_handlerJumps, mem_clauseJumps]
    rcases among with ((rfl | ⟨h, own, rfl⟩) | last) | ends
    · exact Or.inl (Or.inl (Or.inl member))
    · exact Or.inl (Or.inl (Or.inr ⟨h, own, member⟩))
    · exact Or.inl (Or.inr ⟨block, last, member⟩)
    · exact Or.inr ⟨block, ends, member⟩
  case context loc header items code isAsync =>
    obtain rfl := mem_singleton.mp among
    exact Or.inl member
  all_goals exact absurd among not_mem_nil

/-- A jump in a statement goes out of it or belongs to a loop in it. -/
theorem jumps_or_loop (jump : j.isJump = true) (inside : j ∈ n :: n.statements) :
    j ∈ n.jumps ∨ ∃ loop ∈ n :: n.statements, j ∈ loop.loopJumps := by
  induction n using clause_induction with
  | step n ih =>
    rcases mem_cons.mp inside with rfl | inside
    · left
      cases j
      case «break» => exact mem_singleton_self _
      case «continue» => exact mem_singleton_self _
      all_goals exact absurd jump Bool.false_ne_true
    · obtain ⟨block, among, c, member, inside⟩ := mem_statements.mp inside
      rcases ih block among c member inside with out | ⟨loop, deeper, own⟩
      · rcases blockJumps_cases among (mem_blockJumps.mpr ⟨c, member, out⟩) with out | own
        · exact Or.inl out
        · exact Or.inr ⟨n, mem_cons_self .., own⟩
      · exact Or.inr ⟨loop, mem_cons_of_mem n
          (mem_statements.mpr ⟨block, among, c, member, deeper⟩), own⟩

/-- A jump in the body of a loop belongs to the loop or to one in its body. -/
theorem exists_loop (jump : j.isJump = true) (inside : j ∈ n.looped) :
    ∃ loop ∈ n :: n.looped, j ∈ loop.loopJumps := by
  have body : ∀ code : List Node, j ∈ blockStatements code →
      j ∈ blockJumps code ∨ ∃ loop ∈ blockStatements code, j ∈ loop.loopJumps := by
    intro code inside
    obtain ⟨c, member, inside⟩ := mem_blockStatements.mp inside
    rcases jumps_or_loop jump inside with out | ⟨loop, deeper, own⟩
    · exact Or.inl (mem_blockJumps.mpr ⟨c, member, out⟩)
    · exact Or.inr ⟨loop, mem_blockStatements.mpr ⟨c, member, deeper⟩, own⟩
  have found : j ∈ n.loopJumps ∨ ∃ loop ∈ n.looped, j ∈ loop.loopJumps := by
    cases n
    case whileLoop => exact body _ inside
    case forLoop => exact body _ inside
    all_goals exact absurd inside not_mem_nil
  rcases found with own | ⟨loop, deeper, own⟩
  · exact ⟨n, mem_cons_self .., own⟩
  · exact ⟨loop, mem_cons_of_mem n deeper, own⟩

theorem mem_looped_of_loopJumps (own : j ∈ n.loopJumps) : j.isJump = true ∧ j ∈ n.looped := by
  have body : ∀ code : List Node, j ∈ blockJumps code → j ∈ blockStatements code := by
    intro code inside
    obtain ⟨c, member, out⟩ := mem_blockJumps.mp inside
    exact mem_blockStatements.mpr ⟨c, member, jumps_subset c out⟩
  refine ⟨isJump_of_mem_caught (loopJumps_subset_caught n own), ?_⟩
  cases n
  case whileLoop => exact body _ own
  case forLoop => exact body _ own
  all_goals exact absurd own not_mem_nil

section Distinct

variable {root : Node}

/-- The jumps that are found for a loop are those that it owns. -/
theorem mem_loopJumps_iff (distinct : root.allJumps.Nodup) {loop : Node}
    (member : loop ∈ root.nodes) : j ∈ loop.loopJumps ↔ j.isJump = true ∧ loop.Owns j := by
  constructor
  · intro own
    obtain ⟨jump, inside⟩ := mem_looped_of_loopJumps own
    refine ⟨jump, inside, fun inner among deeper => ?_⟩
    obtain ⟨other, within, ownOther⟩ := exists_loop jump deeper
    have otherInside : other ∈ loop.looped := by
      rcases mem_cons.mp within with rfl | within
      · exact among
      · exact looped_trans among (looped_subset inner within)
    have otherMember : other ∈ root.nodes :=
      nodes_subset member (statements_subset loop (looped_subset loop otherInside))
    -- The jump is found for no two loops, and no loop stands in its own body.
    obtain rfl := caught_unique distinct member otherMember (loopJumps_subset_caught loop own)
      (loopJumps_subset_caught other ownOther)
    exact not_mem_statements loop (looped_subset loop otherInside)
  · rintro ⟨jump, inside, innermost⟩
    obtain ⟨other, within, own⟩ := exists_loop jump inside
    rcases mem_cons.mp within with rfl | within
    · exact own
    · exact absurd (mem_looped_of_loopJumps own).2 (innermost other within)

/-- A jump in the body of some loop of a tree belongs to one loop of the tree, and to no other. -/
theorem exists_owner (distinct : root.allJumps.Nodup) {loop : Node} (member : loop ∈ root.nodes)
    (jump : j.isJump = true) (inside : j ∈ loop.looped) : ∃ owner ∈ root.nodes, owner.Owns j ∧
      ∀ other ∈ root.nodes, j ∈ other.loopJumps ↔ other = owner := by
  obtain ⟨owner, within, own⟩ := exists_loop jump inside
  have ownerMember : owner ∈ root.nodes := by
    rcases mem_cons.mp within with rfl | within
    · exact member
    · exact nodes_subset member (statements_subset loop (looped_subset loop within))
  refine ⟨owner, ownerMember, ((mem_loopJumps_iff distinct ownerMember).mp own).2,
    fun other otherMember => ⟨?_, ?_⟩⟩
  · intro ownOther
    exact caught_unique distinct otherMember ownerMember (loopJumps_subset_caught other ownOther)
      (loopJumps_subset_caught owner own)
  · rintro rfl
    exact own

end Distinct

end Lineage.Node
