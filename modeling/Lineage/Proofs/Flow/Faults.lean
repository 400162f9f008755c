import Lineage.Proofs.Flow.Action

/-!
Which trees have an analysis. Only what does not belong in the place of a statement keeps a tree
from having one, if its expressions and decorators are in order.
-/

namespace Lineage

open List

variable {code : List Node} {e n s : Node}

namespace Node

/-- A statement without a fault has none in its blocks and bodies. -/
theorem statementFault_bodies (none : n.statementFault = none) :
    ∀ c ∈ n.bodies, c.statementFault = .none := by
  have blocks : ∀ c ∈ n.clauseBlocks.flatMap Prod.snd, c.statementFault = .none := by
    intro c member
    obtain ⟨block, among, member⟩ := mem_flatMap.mp member
    exact statementFault_inside none block among c member
  cases n
  case function =>
    simp only [statementFault, Option.orElse_eq_orElse, Option.orElse_eq_or,
      Option.or_eq_none_iff] at none
    exact blockFault_eq_none.mp none.2
  case classDef =>
    simp only [statementFault, Option.orElse_eq_orElse, Option.orElse_eq_or,
      Option.or_eq_none_iff] at none
    exact blockFault_eq_none.mp none.2
  case decorated loc decorators definition =>
    simp only [statementFault, Option.orElse_eq_orElse, Option.orElse_eq_or,
      Option.or_eq_none_iff] at none
    cases definition
    case function =>
      simp only [definitionFault, Option.orElse_eq_orElse, Option.orElse_eq_or,
        Option.or_eq_none_iff] at none
      exact blockFault_eq_none.mp none.2.2
    case classDef =>
      simp only [definitionFault, Option.orElse_eq_orElse, Option.orElse_eq_or,
        Option.or_eq_none_iff] at none
      exact blockFault_eq_none.mp none.2.2
    all_goals exact blocks
  all_goals exact blocks

/-! ### Trees in order -/

/-- A place where a statement is to stand: in a block, or in a block or body of what stands in such
a place. -/
inductive Seat (code : List Node) : Node → Prop where
  | top {n : Node} : n ∈ code → Seat code n
  | inside {n c : Node} : Seat code n → c ∈ n.bodies → Seat code c

/-- The expressions of a statement itself, its decorators included. -/
def exprParts : Node → List Node
  | .module .. => []
  | .function _ _ _ params returns _ _ => params.flatMap Param.nodes ++ returns.toList
  | .classDef _ _ _ bases keywords _ => bases ++ keywords.map Keyword.value
  | .decorated _ decorators definition => decorators ++ definition.exprParts
  | .branch _ _ test _ elifs _ => test :: elifs.map Elif.test
  | .whileLoop _ _ test _ _ => [test]
  | .forLoop _ _ target iter _ _ _ => [target, iter]
  | .attempt _ _ _ handlers _ _ => handlers.flatMap fun h => h.type.toList
  | .context _ _ items _ _ => items.flatMap WithItem.nodes
  | n => n.children

/-- What a node needs by itself: a comprehension something to go over, an assignment that is an
expression one name to assign to and a value, and decorators a function or class. -/
def WellMade : Node → Prop
  | .comprehension _ _ _ _ generators => generators ≠ []
  | .assign _ targets value _ _ isExpression =>
    isExpression = true → (∃ loc id, targets = [.name loc id]) ∧ value.isSome = true
  | .decorated _ decorators definition =>
    (∀ d ∈ decorators, d.kind = .decorator) ∧
      (definition.kind = .function ∨ definition.kind = .classDef)
  | _ => True

/-- An expression in order: it is made up of expressions only. -/
def InOrder (e : Node) : Prop :=
  ∀ m ∈ e.nodes, m.WellMade ∧ (m.kind.isStatement = true → m.isWalrus = true)

/-- A tree whose expressions and decorators are in order. What stands in the place of a statement
may be anything. -/
structure WellFormed (n : Node) : Prop where
  made : ∀ m ∈ n.nodes, m.WellMade
  expressions : ∀ s, Seat n.code s → ∀ e ∈ s.exprParts, e.InOrder

/-! ### Expressions -/

theorem listFault_eq_none {ns : List Node} : listFault ns = none ↔ ∀ n ∈ ns, n.readFault =
    none := by
  induction ns with
  | nil => simp [listFault]
  | cons n rest ih => simp [listFault, ih]

theorem optionFault_eq (o : Option Node) : optionFault o = listFault o.toList := by
  cases o <;> simp [optionFault, listFault]

theorem listFault_append (ns ms : List Node) :
    listFault (ns ++ ms) = (listFault ns).or (listFault ms) := by
  induction ns with
  | nil => rfl
  | cons n rest ih => simp [listFault, ih, Option.or_assoc]

theorem keywordsFault_eq (ks : List (Keyword Node)) :
    keywordsFault ks = listFault (ks.map Keyword.value) := by
  induction ks with
  | nil => rfl
  | cons k rest ih => simp [keywordsFault, listFault, ih]

theorem defaultsFault_eq (ps : List (Param Node)) :
    defaultsFault ps = listFault (ps.flatMap Flow.paramReads) := by
  induction ps with
  | nil => rfl
  | cons p rest ih => simp [defaultsFault, Flow.paramReads, listFault_append, optionFault_eq, ih]

theorem entriesFault_eq (es : List (Entry Node)) :
    entriesFault es = listFault (es.flatMap Entry.nodes) := by
  induction es with
  | nil => rfl
  | cons e rest ih => simp [entriesFault, Entry.nodes, listFault, listFault_append,
      optionFault_eq, ih]

theorem generatorsFault_eq_none {first : Bool} {gs : List (Generator Node)}
    (fine : ∀ n ∈ gs.flatMap Generator.nodes, n.readFault = none) :
    generatorsFault first gs = none := by
  induction gs generalizing first with
  | nil => rfl
  | cons g rest ih =>
    rw [flatMap_cons, forall_mem_append, Generator.nodes, forall_mem_cons, forall_mem_cons] at fine
    obtain ⟨⟨_, iter, conditions⟩, others⟩ := fine
    simp [generatorsFault, iter, listFault_eq_none.mpr conditions, ih others]

/-- Reading the names of an expression in order meets no fault. -/
theorem readFault_eq_none (fine : e.InOrder) : e.readFault = none := by
  induction e using children_induction with
  | step e ih =>
    obtain ⟨made, plain⟩ := fine e (mem_nodes_self e)
    have below : ∀ c ∈ e.children, c.readFault = none :=
      fun c child => ih c child fun m member => fine m (nodes_subset_of_child child member)
    cases e
    case assign loc targets value op hint isExpression =>
      obtain rfl : isExpression = true := plain rfl
      obtain ⟨⟨_, _, rfl⟩, some_⟩ := made rfl
      obtain ⟨value, rfl⟩ := Option.isSome_iff_exists.mp some_
      have own := below value (mem_append_right _ (mem_singleton_self value))
      simp [readFault, unnamedFault, valueFault, isName, own]
    case comprehension loc flavor element value generators =>
      simp only [children, forall_mem_append, forall_mem_cons] at below
      obtain ⟨⟨own, second⟩, others⟩ := below
      obtain ⟨g, rest, rfl⟩ := exists_cons_of_ne_nil made
      have first : g.iter.readFault = none :=
        others g.iter (mem_flatMap.mpr ⟨g, mem_cons_self .., by simp [Generator.nodes]⟩)
      simp [readFault, firstIterFault, first, generatorsFault_eq_none others, own, optionFault_eq,
        listFault_eq_none.mpr second]
    case decorated | function | classDef | assertion | returning | raising | delete | expression
        | branch | whileLoop | forLoop | attempt | context =>
      exact absurd (plain rfl) Bool.false_ne_true
    case lambda loc params body =>
      simp only [children, forall_mem_append] at below
      have defaults : listFault (params.flatMap Flow.paramReads) = none :=
        listFault_eq_none.mpr fun n member => below.1 n (paramReads_subset params member)
      simp [readFault, defaultsFault_eq, defaults, below.2]
    all_goals
      simp only [children, forall_mem_append, forall_mem_cons, ← listFault_eq_none] at below
      simp [readFault, optionFault_eq, keywordsFault_eq, entriesFault_eq, below]

theorem InOrder.below {m : Node} (fine : e.InOrder) (member : m ∈ e.nodes) : m.InOrder :=
  fun k inside => fine k (nodes_subset member inside)

theorem InOrder.child {c : Node} (fine : e.InOrder) (child : c ∈ e.children) : c.InOrder :=
  fine.below (children_subset e child)

theorem evaluationFault_eq_none (fine : e.InOrder) : e.evaluationFault = none := by
  have binding : e.bindingFault = none := by
    refine findSome?_eq_none_iff.mpr fun m member => ?_
    obtain ⟨made, -⟩ := fine m (walk_subset _ e member)
    unfold walrusFault
    split
    · obtain ⟨⟨_, _, none⟩, _⟩ := made rfl
      exact nomatch none
    · rfl
  rw [evaluationFault, readFault_eq_none fine, binding]
  rfl

theorem evaluationFaults_eq_none {es : List Node} (fine : ∀ e ∈ es, e.InOrder) :
    evaluationFaults es = none :=
  findSome?_eq_none_iff.mpr fun e member => evaluationFault_eq_none (fine e member)

theorem targetsFault_eq_none {ns : List Node} (fine : ∀ n ∈ ns, n.targetFault = none) :
    targetsFault ns = none := by
  induction ns with
  | nil => rfl
  | cons n rest ih =>
    obtain ⟨own, others⟩ := forall_mem_cons.mp fine
    simp [targetsFault, own, ih others]

theorem targetFault_eq_none (fine : e.InOrder) : e.targetFault = none := by
  induction e using children_induction with
  | step e ih =>
    have below : ∀ c ∈ e.children, c.targetFault = none :=
      fun c child => ih c child (fine.child child)
    cases e
    case name => rfl
    case tuple | list => exact targetsFault_eq_none below
    case starred loc value => exact below value (mem_singleton_self value)
    case member loc value attr =>
      have own : value.InOrder := fine.child (mem_singleton_self value)
      exact evaluationFault_eq_none own
    case subscript loc value index =>
      have first : value.InOrder := fine.child (mem_cons_self ..)
      have second : index.InOrder := fine.child (mem_cons_of_mem _ (mem_singleton_self index))
      simp [targetFault, evaluationFault_eq_none first, evaluationFault_eq_none second]
    all_goals exact evaluationFault_eq_none fine

/-! ### Statements -/

section Statements

variable {f : Fault}

theorem orElse_ne {a b : Option Fault} (first : a ≠ some f) (second : b ≠ some f) :
    (a <|> b) ≠ some f := by
  cases a with
  | none => exact second
  | some g => exact first

theorem ne_of_none {a : Option Fault} (none : a = none) : a ≠ some f :=
  none ▸ nofun

theorem findSome_ne {α : Type} {g : α → Option Fault} {xs : List α} (all : ∀ x ∈ xs, g x = none) :
    xs.findSome? g ≠ some f :=
  ne_of_none (findSome?_eq_none_iff.mpr all)

theorem evaluation_ne (fine : e.InOrder) : e.evaluationFault ≠ some f :=
  ne_of_none (evaluationFault_eq_none fine)

theorem evaluations_ne {es : List Node} (fine : ∀ e ∈ es, e.InOrder) :
    evaluationFaults es ≠ some f :=
  ne_of_none (evaluationFaults_eq_none fine)

theorem blockFault_ne (all : ∀ c ∈ code, c.statementFault ≠ some f) : blockFault code ≠ some f := by
  induction code with
  | nil => exact nofun
  | cons c rest ih =>
    obtain ⟨own, others⟩ := forall_mem_cons.mp all
    exact orElse_ne own (ih others)

theorem elifsBlockFault_ne {elifs : List (Elif Node)} (tests : ∀ e ∈ elifs, e.test.InOrder)
    (all : ∀ e ∈ elifs, ∀ c ∈ e.body, c.statementFault ≠ some f) :
    elifsBlockFault elifs ≠ some f := by
  induction elifs with
  | nil => exact nofun
  | cons e rest ih =>
    obtain ⟨test, tests⟩ := forall_mem_cons.mp tests
    obtain ⟨own, others⟩ := forall_mem_cons.mp all
    exact orElse_ne (evaluation_ne test) (orElse_ne (blockFault_ne own) (ih tests others))

theorem handlersBlockFault_ne {handlers : List (Handler Node)}
    (types : ∀ h ∈ handlers, ∀ e ∈ h.type.toList, e.InOrder)
    (all : ∀ h ∈ handlers, ∀ c ∈ h.body, c.statementFault ≠ some f) :
    handlersBlockFault handlers ≠ some f := by
  induction handlers with
  | nil => exact nofun
  | cons h rest ih =>
    obtain ⟨type, types⟩ := forall_mem_cons.mp types
    obtain ⟨own, others⟩ := forall_mem_cons.mp all
    exact orElse_ne (evaluations_ne type) (orElse_ne (blockFault_ne own) (ih types others))

theorem clauseBlockFault_ne {clause : Option (Clause Node)}
    (all : ∀ c ∈ Clause.statements clause, c.statementFault ≠ some f) :
    clauseBlockFault clause ≠ some f := by
  cases clause with
  | none => exact nofun
  | some c => exact blockFault_ne all

theorem simpleFault_ne (parts : ∀ e ∈ n.children, e.InOrder)
    (statement : n.kind.isStatement = true) : n.simpleFault ≠ some f := by
  cases n
  case assign loc targets value op hint isExpression =>
    simp only [children, forall_mem_append] at parts
    obtain ⟨⟨assigned, hinted⟩, valued⟩ := parts
    refine orElse_ne (evaluations_ne ?_) ?_
    · refine forall_mem_append.mpr ⟨forall_mem_append.mpr ⟨valued, hinted⟩, ?_⟩
      split
      · exact assigned
      · exact forall_mem_nil _
    · split
      · exact ne_of_none rfl
      · exact ne_of_none (targetsFault_eq_none fun t member => targetFault_eq_none
          (assigned t member))
  case assertion | returning | raising => exact evaluations_ne parts
  case expression loc value =>
    have own : value.InOrder := parts value (mem_singleton_self value)
    exact evaluation_ne own
  case delete loc targets =>
    refine findSome_ne fun t member => ?_
    have own : t.InOrder := parts t member
    rw [deletionFault, targetFault_eq_none own, ite_self]
  all_goals first
    | exact ne_of_none rfl
    | cases statement

theorem definition_ne (parts : ∀ e ∈ n.exprParts, e.InOrder)
    (defines : n.kind = .function ∨ n.kind = .classDef)
    (inside : ∀ c ∈ n.bodies, c.statementFault ≠ some f) : n.definitionFault ≠ some f := by
  cases n
  case function loc own header params returns code isAsync =>
    obtain ⟨given, hinted⟩ := forall_mem_append.mp parts
    refine orElse_ne (evaluations_ne ?_) (blockFault_ne inside)
    exact forall_mem_append.mpr ⟨fun e member => given e (paramReads_subset params member), hinted⟩
  case classDef => exact orElse_ne (evaluations_ne parts) (blockFault_ne inside)
  all_goals exact defines.elim nofun nofun

/-- The fault of a statement whose expressions and decorators are in order is one of a statement
inside it. -/
theorem statementFault_ne (made : n.WellMade) (parts : ∀ e ∈ n.exprParts, e.InOrder)
    (statement : n.kind.isStatement = true) (inside : ∀ c ∈ n.bodies, c.statementFault ≠ some f) :
    n.statementFault ≠ some f := by
  have blocks : ∀ block ∈ n.clauseBlocks, ∀ c ∈ block.2, c.statementFault ≠ some f :=
    fun block among c member => inside c (mem_bodies_of_block among member)
  cases n
  case function => exact definition_ne parts (Or.inl rfl) inside
  case classDef => exact definition_ne parts (Or.inr rfl) inside
  case decorated loc decorators definition =>
    obtain ⟨decorates, defines⟩ := made
    obtain ⟨decorators, heads⟩ := forall_mem_append.mp parts
    refine orElse_ne (findSome_ne fun d member => ?_) (definition_ne heads defines ?_)
    · have marked := decorates d member
      have own : d.InOrder := decorators d member
      cases d
      case decorator loc e => exact evaluationFault_eq_none (own.child (mem_singleton_self e))
      all_goals exact nomatch marked
    · cases definition
      case function | classDef => exact inside
      all_goals exact defines.elim nofun nofun
  case branch loc header test code elifs orelse =>
    obtain ⟨own, others⟩ := forall_mem_cons.mp parts
    obtain ⟨first, second, third⟩ := forall_clauseBlocks_branch.mp blocks
    refine orElse_ne (evaluation_ne own)
      (orElse_ne (blockFault_ne first) (orElse_ne ?_ (clauseBlockFault_ne third)))
    exact elifsBlockFault_ne (forall_mem_map.mp others) second
  case whileLoop loc header test code orelse =>
    obtain ⟨first, second⟩ := forall_clauseBlocks_while.mp blocks
    exact orElse_ne (evaluation_ne (forall_mem_singleton.mp parts))
      (orElse_ne (blockFault_ne first) (clauseBlockFault_ne second))
  case forLoop loc header target iter code orelse isAsync =>
    obtain ⟨own, others⟩ := forall_mem_cons.mp parts
    obtain ⟨first, second⟩ := forall_clauseBlocks_for.mp blocks
    exact orElse_ne (evaluation_ne (forall_mem_singleton.mp others))
      (orElse_ne (ne_of_none (targetFault_eq_none own))
        (orElse_ne (blockFault_ne first) (clauseBlockFault_ne second)))
  case attempt loc header code handlers orelse final =>
    obtain ⟨first, second, third, fourth⟩ := forall_clauseBlocks_attempt.mp blocks
    refine orElse_ne (blockFault_ne first)
      (orElse_ne (handlersBlockFault_ne (fun h among e member => ?_) second)
        (orElse_ne (clauseBlockFault_ne third) (clauseBlockFault_ne fourth)))
    exact parts e (mem_flatMap.mpr ⟨h, among, member⟩)
  case context loc header items code isAsync =>
    refine orElse_ne (findSome_ne fun i among => ?_)
      (blockFault_ne (forall_clauseBlocks_context.mp blocks))
    have own : ∀ e ∈ i.nodes, e.InOrder :=
      fun e member => parts e (mem_flatMap.mpr ⟨i, among, member⟩)
    obtain ⟨first, second⟩ := forall_mem_cons.mp own
    have targets : targetsFault i.target.toList = none :=
      targetsFault_eq_none fun t member => targetFault_eq_none (second t member)
    rw [contextFault, evaluationFault_eq_none first, targets]
    rfl
  case module => exact nomatch statement
  all_goals exact simpleFault_ne parts statement

theorem statementFault_of_not_statement (other : n.kind.isStatement = false) :
    n.statementFault = some (.notStatement n.kind) := by
  cases n
  all_goals first
    | rfl
    | exact nomatch other

theorem Seat.trans {c : Node} (first : Seat code c) (second : Seat [c] s) : Seat code s := by
  induction second with
  | top member => exact List.mem_singleton.mp member ▸ first
  | inside _ body ih => exact .inside ih body

/-- A fault of a statement is told by something inside it that is no statement. -/
theorem exists_seat (fine : ∀ s, Seat [n] s → s.WellMade ∧ ∀ e ∈ s.exprParts, e.InOrder)
    (fault : n.statementFault = some f) : ∃ s, Seat [n] s ∧ s.kind.isStatement = false ∧
    f = .notStatement s.kind := by
  induction n using bodies_induction with
  | step n ih =>
    have own : Seat [n] n := .top (mem_singleton_self n)
    cases statement : n.kind.isStatement with
    | false =>
      rw [statementFault_of_not_statement statement] at fault
      exact ⟨n, own, statement, (Option.some.inj fault).symm⟩
    | true =>
      obtain ⟨made, parts⟩ := fine n own
      refine Classical.byContradiction fun none => ?_
      refine statementFault_ne made parts statement (fun c body found => none ?_) fault
      have below : Seat [n] c := .inside own body
      obtain ⟨s, seat, held⟩ := ih c body (fun s seat => fine s (below.trans seat)) found
      exact ⟨s, below.trans seat, held⟩

/-- Without a fault, statements stand in all places of statements. -/
theorem isStatement_of_seat (faultless : blockFault code = none) (seat : Seat code s) :
    s.kind.isStatement = true := by
  have none : s.statementFault = none := by
    induction seat with
    | top member => exact blockFault_eq_none.mp faultless _ member
    | inside _ body ih => exact statementFault_bodies ih _ body
  exact isStatement_of_statementFault none

end Statements

/-- Where the analysis finds no fault, there are only statements in the blocks and bodies. -/
theorem everywhere_of_statementFault (n : Node) : n.statementFault = none → n.NoModules := by
  induction n using bodies_induction with
  | step n ih =>
    refine fun faultless => ⟨fun same => ?_,
      fun c body => ih c body (statementFault_bodies faultless c body)⟩
    have statement := isStatement_of_statementFault faultless
    rw [same] at statement
    exact absurd statement Bool.false_ne_true

theorem everywhere_of_blockFault {code : List Node} (faultless : blockFault code = none) :
    ∀ c ∈ code, c.NoModules :=
  fun c member => everywhere_of_statementFault c (blockFault_eq_none.mp faultless c member)

theorem mem_nodes_of_seat (seat : Seat n.code s) : s ∈ n.nodes := by
  induction seat with
  | @top c member =>
    cases n
    case module => exact children_subset _ member
    all_goals exact List.mem_singleton.mp member ▸ mem_nodes_self c
  | inside _ body ih => exact nodes_subset ih (bodies_subset _ body)

end Node

namespace Flow

/-- A tree whose expressions and decorators are in order has an analysis unless something that is no
statement stands in the place of one. -/
theorem analyze_cases (settings : Settings) (writes : GlobalWrites) (wellFormed : n.WellFormed) :
    ((∃ r, analyze settings writes n = .ok r) ∧ ∀ s, Node.Seat n.code s →
    s.kind.isStatement = true) ∨ ∃ s, Node.Seat n.code s ∧ s.kind.isStatement = false ∧
      analyze settings writes n = .error (.notStatement s.kind) := by
  unfold analyze
  cases found : Node.blockFault n.code with
  | none => exact Or.inl ⟨⟨_, rfl⟩, fun s seat => Node.isStatement_of_seat found seat⟩
  | some f =>
    right
    have member : ∃ c ∈ n.code, c.statementFault = some f := by
      refine Classical.byContradiction fun none => Node.blockFault_ne
        (fun c member fault => none ?_) found
      exact ⟨c, member, fault⟩
    obtain ⟨c, member, fault⟩ := member
    have top : Node.Seat n.code c := .top member
    obtain ⟨s, seat, other, rfl⟩ := Node.exists_seat (fun s seat =>
      ⟨wellFormed.made s (Node.mem_nodes_of_seat (top.trans seat)),
        wellFormed.expressions s (top.trans seat)⟩) fault
    exact ⟨s, top.trans seat, other, rfl⟩

end Flow

end Lineage
