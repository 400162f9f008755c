import Lineage.Proofs.Flow.Faults

/-!
Walks over a tree and its list of statements. Both come out of a stack: the node on top is listed,
and those that it leads to are put on the stack so that the first of them is on top. The statements
of a tree are what a walk that goes into no definition lists, if statements stand where they belong.
-/

namespace Lineage.Node

open List

variable {n : Node} {stack out : List Node}

/-- The nodes that are listed from a stack, whose top is its end, until it is empty. -/
inductive Unstacks (next : Node → List Node) : List Node → List Node → Prop where
  | done : Unstacks next [] []
  | pop {stack out : List Node} {n : Node} : Unstacks next (stack ++ (next n).reverse) out →
      Unstacks next (stack ++ [n]) (n :: out)

section Stack

variable {next f : Node → List Node}

theorem Unstacks.eq (step : ∀ n, f n = n :: (next n).flatMap f) (listed : Unstacks next stack out) :
    out = stack.reverse.flatMap f := by
  induction listed with
  | done => rfl
  | @pop stack out n _ ih =>
    rw [reverse_append, reverse_reverse, flatMap_append] at ih
    rw [reverse_concat, flatMap_cons, step n, ih, cons_append]

/-- What is on the stack above the rest is listed first. -/
theorem Unstacks.push {nodes : List Node}
      (each : ∀ n ∈ nodes, ∀ stack out, Unstacks next stack out → Unstacks next (stack ++ [n])
        (f n ++ out)) (listed : Unstacks next stack out) :
    Unstacks next (stack ++ nodes.reverse) (nodes.flatMap f ++ out) := by
  induction nodes with
  | nil => rwa [reverse_nil, append_nil]
  | cons n rest ih =>
    obtain ⟨own, others⟩ := forall_mem_cons.mp each
    rw [reverse_cons, ← append_assoc, flatMap_cons, append_assoc (f n)]
    exact own _ _ (ih others)

/-- If each node leads to some of its children, the stack runs empty, and each node is listed in
front of all that it leads to. -/
theorem unstacks_iff (below : ∀ n, next n ⊆ n.children) (step : ∀ n, f n = n :: (next n).flatMap f)
    : Unstacks next stack out ↔ out = stack.reverse.flatMap f := by
  refine ⟨Unstacks.eq step, ?_⟩
  have each : ∀ (n : Node) (stack out : List Node), Unstacks next stack out →
      Unstacks next (stack ++ [n]) (f n ++ out) := by
    intro n
    induction n using children_induction with
    | step n ih =>
      intro stack out listed
      rw [step n, cons_append]
      exact .pop (.push (fun c member => ih c (below n member)) listed)
  rintro rfl
  have all : Unstacks next ([] ++ stack.reverse.reverse) (stack.reverse.flatMap f ++ []) :=
    .push (fun n _ => each n) .done
  rwa [reverse_reverse, nil_append, append_nil] at all

end Stack

/-! ### Statements and expressions -/

/-- A statement that is no assignment expression. -/
def isProper (n : Node) : Bool :=
  n.kind.isStatement && !n.isWalrus

/-- Statements stand in the places of statements, and no others than assignment expressions in those
of expressions. -/
structure Sorted (n : Node) : Prop where
  statements : ∀ m ∈ n.nodes, ∀ c ∈ m.bodies, c.isProper = true
  expressions : ∀ m ∈ n.nodes, ∀ e ∈ m.exprParts, e.isProper = false

/-- No module stands in the place of an expression. -/
def Unmixed (n : Node) : Prop :=
  ∀ m ∈ n.nodes, ∀ e ∈ m.exprParts, e.kind ≠ .module

theorem Sorted.below {m : Node} (sorted : n.Sorted) (member : m ∈ n.nodes) : m.Sorted :=
  ⟨fun k inside => sorted.statements k (nodes_subset member inside),
    fun k inside => sorted.expressions k (nodes_subset member inside)⟩

theorem Unmixed.below {m : Node} (unmixed : n.Unmixed) (member : m ∈ n.nodes) : m.Unmixed :=
  fun k inside => unmixed k (nodes_subset member inside)

theorem exprParts_eq_children (expression : n.isProper = false) (plain : n.kind ≠ .module) :
    n.exprParts = n.children := by
  cases n
  case module => exact absurd rfl plain
  case function | classDef | decorated | branch | whileLoop | forLoop | attempt | context => nomatch
    expression
  all_goals rfl

theorem exprParts_subset (entered : n.kind.isDefinition = false) : n.exprParts ⊆ n.children := by
  cases n
  case function | classDef | decorated => nomatch entered
  case module => exact nil_subset _
  case branch loc header test code elifs orelse =>
    refine cons_subset.mpr ⟨mem_cons_self .., fun e member => ?_⟩
    obtain ⟨clause, among, rfl⟩ := mem_map.mp member
    exact elif_mem_children loc header test code orelse among
  case whileLoop => exact cons_subset.mpr ⟨mem_cons_self .., nil_subset _⟩
  case forLoop => exact subset_append_left [_, _] _
  case attempt loc header code handlers orelse final =>
    intro e member
    obtain ⟨handler, among, own⟩ := mem_flatMap.mp member
    exact type_mem_children loc header code orelse final among own
  case context => exact subset_append_left _ _
  all_goals exact List.Subset.refl _

/-- An expression holds no statements but assignment expressions. -/
theorem filter_walk_eq_nil (prune : Node → Bool) {e : Node} (sorted : e.Sorted)
    (unmixed : e.Unmixed) (expression : e.isProper = false) (plain : e.kind ≠ .module) :
    (e.walk prune).filter isProper = [] := by
  induction e using children_induction with
  | step e ih =>
    have parts := exprParts_eq_children expression plain
    rw [walk_eq, filter_cons_of_neg (Bool.eq_false_iff.mp expression)]
    split
    · rfl
    · rw [filter_flatMap, flatMap_eq_nil_iff]
      intro c child
      have below := children_subset e child
      exact ih c child (sorted.below below) (unmixed.below below)
        (sorted.expressions e (mem_nodes_self e) c (parts ▸ child))
        (unmixed e (mem_nodes_self e) c (parts ▸ child))

theorem flatMap_blocks {β : Type} (f : Node → List β) (o : Option (Clause Node)) :
    ((Clause.blocks o).flatMap Prod.snd).flatMap f = (Clause.statements o).flatMap f := by
  cases o with
  | none => rfl
  | some clause => rw [Clause.blocks, flatMap_singleton, Clause.statements]

/-- Of the children of a node, where expressions count for nothing those in its blocks are left, in
the same order. -/
theorem flatMap_children {β : Type} {f : Node → List β} (none : ∀ e ∈ n.exprParts, f e = [])
    (entered : n.kind.isDefinition = false) : n.children.flatMap f = n.enclosed.flatMap f := by
  cases n
  case function | classDef | decorated => nomatch entered
  case module loc code => rw [children, enclosed, clauseBlocks, flatMap_singleton]
  case branch loc header test code elifs orelse =>
    obtain ⟨first, others⟩ := forall_mem_cons.mp none
    have tests : (elifs.flatMap Elif.nodes).flatMap f = (elifs.flatMap Elif.body).flatMap f := by
      rw [flatMap_assoc, flatMap_assoc]
      refine flatMap_congr fun e member => ?_
      rw [Elif.nodes, flatMap_cons, others e.test (mem_map_of_mem member), nil_append]
    simp only [children, enclosed, clauseBlocks, flatMap_append, flatMap_cons, flatMap_map,
      first, tests, flatMap_blocks, nil_append, cons_append, append_assoc]
  case whileLoop loc header test code orelse =>
    have first := forall_mem_singleton.mp none
    simp only [children, enclosed, clauseBlocks, flatMap_append, flatMap_cons, first,
      flatMap_blocks, nil_append]
  case forLoop loc header target iter code orelse isAsync =>
    obtain ⟨first, others⟩ := forall_mem_cons.mp none
    have second := forall_mem_singleton.mp others
    simp only [children, enclosed, clauseBlocks, flatMap_append, flatMap_cons, first, second,
      flatMap_blocks, nil_append, cons_append]
  case attempt loc header code handlers orelse final =>
    have types : (handlers.flatMap Handler.nodes).flatMap f =
        (handlers.flatMap Handler.body).flatMap f := by
      rw [flatMap_assoc, flatMap_assoc]
      refine flatMap_congr fun h member => ?_
      have type : h.type.toList.flatMap f = [] := flatMap_eq_nil_iff.mpr fun e own =>
        none e (mem_flatMap.mpr ⟨h, member, own⟩)
      rw [Handler.nodes, flatMap_append, type, nil_append]
    simp only [children, enclosed, clauseBlocks, flatMap_append, flatMap_cons, flatMap_map, types,
      flatMap_blocks, cons_append, append_assoc]
  case context loc header items code isAsync =>
    have contexts : (items.flatMap WithItem.nodes).flatMap f = [] := flatMap_eq_nil_iff.mpr none
    rw [children, enclosed, clauseBlocks, flatMap_singleton, flatMap_append, contexts, nil_append]
  all_goals exact flatMap_eq_nil_iff.mpr none

theorem enclosed_eq_nil (definition : n.kind.isDefinition = true) : n.enclosed = [] := by
  cases n
  case function | classDef | decorated => rfl
  all_goals nomatch definition

/-- The statements are what is left of a walk that goes into no definition. -/
theorem statements_eq_filter (sorted : n.Sorted) (unmixed : n.Unmixed) :
    n.statements = (n.walk fun m => m.kind.isDefinition).tail.filter isProper := by
  induction n using clause_induction with
  | step n ih =>
    rw [statements_eq_enclosed, blockStatements_eq_flatMap, walk_eq, tail_cons]
    split
    · rename_i definition
      rw [enclosed_eq_nil definition]
      rfl
    · rename_i entered
      have entered := Bool.eq_false_iff.mpr entered
      have own := mem_nodes_self n
      rw [filter_flatMap, flatMap_children (fun e part => ?_) entered]
      · refine flatMap_congr fun c member => ?_
        obtain ⟨block, among, inside⟩ := mem_flatMap.mp member
        have below := children_subset n (mem_children_of_block among inside)
        have statement := sorted.statements n own c (mem_bodies_of_block among inside)
        rw [ih block among c inside (sorted.below below) (unmixed.below below), walk_eq, tail_cons,
          filter_cons_of_pos statement]
      · have below := children_subset n (exprParts_subset entered part)
        exact filter_walk_eq_nil _ (sorted.below below) (unmixed.below below)
          (sorted.expressions n own e part) (unmixed n own e part)

/-- **Walks and lists of statements agree.** A walk lists a node and then, unless it is pruned, the
walks of its children, and a stack lists just that: the children are put on it when a node is taken
off. From a stack with the statements in the blocks of a node come the statements inside the node.
Those are what a walk into no definition lists behind the node, as far as it is a statement and no
assignment expression, wherever statements stand in their places, nothing but expressions in those
of expressions, and no module among these. -/
theorem traversals_agree :
    (∀ (prune : Node → Bool) (n : Node),
      (n.walk prune = n :: if prune n then [] else n.children.flatMap (walk prune)) ∧
      ∀ out, Unstacks (fun m => if prune m then [] else m.children) [n] out ↔ out = n.walk prune) ∧
    (∀ (n : Node) (out : List Node), Unstacks enclosed n.enclosed.reverse out ↔
      out = n.statements) ∧
    ∀ n : Node, n.Sorted → n.Unmixed →
      n.statements = (n.walk fun m => m.kind.isDefinition).tail.filter isProper := by
  refine ⟨fun prune n => ⟨walk_eq prune n, fun out => ?_⟩, fun n out => ?_,
    fun n => statements_eq_filter⟩
  · rw [unstacks_iff (f := walk prune), reverse_singleton, flatMap_singleton]
    · intro m c member
      split at member
      · exact absurd member not_mem_nil
      · exact member
    · intro m
      rw [walk_eq]
      split <;> rfl
  · rw [unstacks_iff (f := fun m => m :: m.statements), reverse_reverse, statements_eq_enclosed,
      blockStatements_eq_flatMap]
    · intro m c member
      obtain ⟨block, among, inside⟩ := mem_flatMap.mp member
      exact mem_children_of_block among inside
    · intro m
      rw [statements_eq_enclosed, blockStatements_eq_flatMap]

/-- `while (w := a):` with `try: pass`, `except E: break` in it and `else: @d def f(): x`. -/
def nestedTree : Node :=
  .module default [.whileLoop default default
    (.assign default [.name default "w"] (some (.name default "a")) none none true)
    [.attempt default default [.pass default]
    [⟨default, [.break default], some (.name default "E"), none⟩] none none]
      (some ⟨default, [.decorated default [.decorator default (.name default "d")]
        (.function default "f" default [] none [.expression default (.name default "x")] false)]⟩)]

/-- The body of the function and the assignment expression are not among the statements. -/
theorem traversals_agree_nested : nestedTree.Sorted ∧ nestedTree.Unmixed ∧
    nestedTree.statements.length = 5 ∧ nestedTree.statements =
    (nestedTree.walk fun m => m.kind.isDefinition).tail.filter isProper := by
  have sorted : nestedTree.Sorted := ⟨by decide +kernel, by decide +kernel⟩
  have unmixed : nestedTree.Unmixed := by
    unfold Unmixed
    decide +kernel
  exact ⟨sorted, unmixed, rfl, traversals_agree.2.2 nestedTree sorted unmixed⟩

/-- A module that stands as an expression, with a statement of its own. -/
def moduleInExpression : Node :=
  .module default [.expression default (.module default [.pass default])]

/-- A walk comes to the statement of the inner module, which no block leads to. -/
theorem module_walked : moduleInExpression.Sorted ∧
    moduleInExpression.statements ≠ (moduleInExpression.walk
      fun m => m.kind.isDefinition).tail.filter isProper := by
  constructor
  · exact ⟨by decide +kernel, by decide +kernel⟩
  · intro same
    have length : moduleInExpression.statements.length =
        ((moduleInExpression.walk fun m => m.kind.isDefinition).tail.filter isProper).length :=
        congrArg List.length same
    exact absurd length (by decide)

end Lineage.Node
