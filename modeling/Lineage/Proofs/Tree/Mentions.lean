import Lineage.Proofs.Flow.Parts
import Lineage.Proofs.Tree.Blocks

/-!
The names that occur in a tree. What a statement evaluates, changes or binds stands somewhere below
it, so every name that its analysis can come across is one that the tree mentions.
-/

namespace Lineage.Node

open List

variable {n c m : Node}

theorem nodes_eq (n : Node) : n.nodes = n :: n.children.flatMap nodes := by
  rw [nodes, walk_eq]
  rfl

theorem mem_nodes_self (n : Node) : n ∈ n.nodes := by
  rw [nodes_eq]
  exact mem_cons_self ..

theorem nodes_subset_of_child (child : c ∈ n.children) : c.nodes ⊆ n.nodes := by
  intro m member
  rw [nodes_eq n]
  exact mem_cons_of_mem n (mem_flatMap.mpr ⟨c, child, member⟩)

theorem length_nodes_lt (child : c ∈ n.children) : c.nodes.length < n.nodes.length := by
  obtain ⟨before, after, split⟩ := append_of_mem child
  rw [nodes_eq n, split]
  simp only [flatMap_append, flatMap_cons, length_cons, length_append]
  omega

/-- Induction over a tree by the children of its nodes. -/
theorem children_induction {P : Node → Prop} (step : ∀ n : Node, (∀ c ∈ n.children, P c) → P n)
    (n : Node) : P n := by
  suffices bounded : ∀ bound, ∀ n : Node, n.nodes.length < bound →
    P n from bounded _ n (Nat.lt_succ_self _)
  intro bound
  induction bound with
  | zero => exact fun n small => absurd small (Nat.not_lt_zero _)
  | succ bound ih =>
    intro n small
    refine step n fun c child => ih c ?_
    exact Nat.lt_of_lt_of_le (length_nodes_lt child) (Nat.le_of_lt_succ small)

theorem nodes_subset (below : m ∈ n.nodes) : m.nodes ⊆ n.nodes := by
  induction n using children_induction with
  | step n ih =>
    rw [nodes_eq] at below
    rcases mem_cons.mp below with rfl | below
    · exact List.Subset.refl _
    · obtain ⟨c, child, below⟩ := mem_flatMap.mp below
      exact List.Subset.trans (ih c child below) (nodes_subset_of_child child)

theorem walk_subset (prune : Node → Bool) (n : Node) : n.walk prune ⊆ n.nodes := by
  induction n using children_induction with
  | step n ih =>
    rw [walk_eq, nodes_eq]
    refine cons_subset_cons n ?_
    split
    · exact nil_subset _
    · intro m member
      obtain ⟨c, child, member⟩ := mem_flatMap.mp member
      exact mem_flatMap.mpr ⟨c, child, ih c child member⟩

theorem mem_children_of_block {block : Block} (among : block ∈ n.clauseBlocks)
    (member : c ∈ block.2) : c ∈ n.children := by
  suffices all : ∀ block ∈ n.clauseBlocks, ∀ c ∈ block.2, c ∈ n.children from all block among
    c member
  clear among member
  cases n
  case module loc code => simp [clauseBlocks, children]
  case branch =>
    refine forall_clauseBlocks_branch.mpr ⟨?_, ?_, ?_⟩
    · intro c member
      simp [children, member]
    · intro e among c member
      simp only [children, mem_append, mem_flatMap]
      exact Or.inl (Or.inr ⟨e, among, mem_cons_of_mem _ member⟩)
    · intro c member
      simp [children, member]
  case whileLoop =>
    refine forall_clauseBlocks_while.mpr ⟨?_, ?_⟩
    all_goals
      intro c member
      simp [children, member]
  case forLoop =>
    refine forall_clauseBlocks_for.mpr ⟨?_, ?_⟩
    all_goals
      intro c member
      simp [children, member]
  case attempt =>
    refine forall_clauseBlocks_attempt.mpr ⟨?_, ?_, ?_, ?_⟩
    · intro c member
      simp [children, member]
    · intro h among c member
      simp only [children, mem_append, mem_flatMap]
      exact Or.inl (Or.inl (Or.inr ⟨h, among, mem_append_right _ member⟩))
    all_goals
      intro c member
      simp [children, member]
  case context =>
    refine forall_clauseBlocks_context.mpr ?_
    intro c member
    simp [children, member]
  all_goals simp [clauseBlocks]

theorem elif_mem_children (loc header : Location) (test : Node) (code : List Node)
    {elifs : List (Elif Node)} (orelse : Option (Clause Node)) {e : Elif Node} (among : e ∈ elifs) :
    e.test ∈ (Node.branch loc header test code elifs orelse).children := by
  simp only [children, mem_append, mem_flatMap]
  exact Or.inl (Or.inr ⟨e, among, mem_cons_self ..⟩)

theorem type_mem_children (loc header : Location) (code : List Node)
    {handlers : List (Handler Node)} (orelse final : Option (Clause Node)) {h : Handler Node}
    (among : h ∈ handlers) {e : Node} (member : e ∈ h.type.toList) :
    e ∈ (Node.attempt loc header code handlers orelse final).children := by
  simp only [children, mem_append, mem_flatMap]
  exact Or.inl (Or.inl (Or.inr ⟨h, among, mem_append_left _ member⟩))

/-- The statements inside a node are nodes below it. -/
theorem statements_subset (n : Node) : n.statements ⊆ n.nodes := by
  have all : n.Throughout fun m => m ∈ n.nodes :=
    throughout_of (Q := fun m => m ∈ n.nodes) (fun _ => id)
      (fun m below block among c member =>
        nodes_subset below (nodes_subset_of_child (mem_children_of_block among member)
          (mem_nodes_self c)))
      n (mem_nodes_self n)
  exact fun m member => all m (mem_cons_of_mem n member)

theorem mem_nodes_of_blockStatements {code : List Node} (member : m ∈ blockStatements code) :
    ∃ c ∈ code, m ∈ c.nodes := by
  rw [blockStatements_eq_flatMap] at member
  obtain ⟨c, own, among⟩ := mem_flatMap.mp member
  refine ⟨c, own, ?_⟩
  rcases mem_cons.mp among with rfl | inside
  · exact mem_nodes_self m
  · exact statements_subset c inside

/-- The names that stand in a tree; the star of an import is none. -/
def identifiers (n : Node) : List String :=
  n.nodes.flatMap fun m => if m.isStarImport then [] else m.ownNames

theorem identifiers_subset_mentioned (n : Node) : n.identifiers ⊆ n.mentioned := by
  intro name member
  obtain ⟨m, below, own⟩ := mem_flatMap.mp member
  refine mem_flatMap.mpr ⟨m, below, ?_⟩
  split at own
  · exact absurd own not_mem_nil
  · exact own

theorem identifiers_subset (below : m ∈ n.nodes) : m.identifiers ⊆ n.identifiers := by
  intro name member
  obtain ⟨k, inside, own⟩ := mem_flatMap.mp member
  exact mem_flatMap.mpr ⟨k, nodes_subset below inside, own⟩

theorem identifiers_subset_of_child (child : c ∈ n.children) : c.identifiers ⊆ n.identifiers :=
  identifiers_subset (nodes_subset_of_child child (mem_nodes_self c))

theorem mem_identifiers_own {name : String} (plain : n.isStarImport = false)
    (own : name ∈ n.ownNames) : name ∈ n.identifiers := by
  refine mem_flatMap.mpr ⟨n, mem_nodes_self n, ?_⟩
  rw [plain]
  exact own

theorem rootName_mem_identifiers {root : String} (found : n.rootName = some root) :
    root ∈ n.identifiers := by
  induction n using children_induction with
  | step n ih =>
    cases n
    case name loc id =>
      obtain rfl := Option.some.inj found
      exact mem_identifiers_own rfl (mem_singleton_self id)
    case member loc value attr =>
      have child : value ∈ (Node.member loc value attr).children := mem_singleton_self value
      exact identifiers_subset_of_child child (ih value child found)
    case subscript loc value index =>
      have child : value ∈ (Node.subscript loc value index).children := mem_cons_self ..
      exact identifiers_subset_of_child child (ih value child found)
    case starred loc value =>
      have child : value ∈ (Node.starred loc value).children := mem_singleton_self value
      exact identifiers_subset_of_child child (ih value child found)
    all_goals nomatch found

theorem targetIds_subset (n : Node) : n.targetIds ⊆ n.identifiers := by
  induction n using children_induction with
  | step n ih =>
    have list : ∀ items : List Node, (∀ c ∈ items, c ∈ n.children) →
        (targetNamesList items).map Occurrence.id ⊆ n.identifiers := by
      intro items below id member
      rw [targetNamesList_eq_flatMap, map_flatMap] at member
      obtain ⟨c, among, member⟩ := mem_flatMap.mp member
      exact identifiers_subset_of_child (below c among) (ih c (below c among) member)
    cases n
    case name loc id =>
      intro other member
      obtain rfl := mem_singleton.mp member
      exact mem_identifiers_own rfl (mem_singleton_self _)
    case tuple loc items => exact list items fun _ => id
    case list loc items => exact list items fun _ => id
    case starred loc value =>
      have child : value ∈ (Node.starred loc value).children := mem_singleton_self value
      exact List.Subset.trans (ih value child) (identifiers_subset_of_child child)
    all_goals exact nil_subset _

theorem walruses_subset (n : Node) : n.walruses ⊆ n.identifiers := by
  intro name member
  obtain ⟨o, among, rfl⟩ := mem_map.mp member
  obtain ⟨m, evaluated, bound⟩ := mem_flatMap.mp among
  have below : m ∈ n.nodes := walk_subset isLambda n evaluated
  unfold walrusNames at bound
  split at bound
  · rename_i loc target rest value op hint
    have child : target ∈ children (.assign loc (target :: rest) value op hint true) :=
      mem_append_left _ (mem_append_left _ (mem_cons_self ..))
    have id : o.id ∈ target.targetIds := mem_map_of_mem bound
    exact identifiers_subset below (identifiers_subset_of_child child (targetIds_subset target id))
  · exact absurd bound not_mem_nil

/-- The parts of a target are nodes below it. -/
theorem targetParts_subset (n : Node) : n.targetParts ⊆ n.nodes := by
  induction n using children_induction with
  | step n ih =>
    have list : ∀ items : List Node, (∀ c ∈ items, c ∈ n.children) → targetPartsList items ⊆
        n.nodes := by
      intro items below part member
      rw [targetPartsList_eq_flatMap] at member
      obtain ⟨c, among, member⟩ := mem_flatMap.mp member
      exact nodes_subset_of_child (below c among) (ih c (below c among) member)
    have child : ∀ c ∈ n.children, c ∈ n.nodes :=
      fun c below => nodes_subset_of_child below (mem_nodes_self c)
    cases n
    case name => exact nil_subset _
    case tuple loc items => exact list items fun _ => id
    case list loc items => exact list items fun _ => id
    case starred loc value =>
      have below : value ∈ (Node.starred loc value).children := mem_singleton_self value
      exact List.Subset.trans (ih value below) (nodes_subset_of_child below)
    case member loc value attr => exact child
    case subscript loc value index => exact child
    all_goals
      intro part member
      obtain rfl := mem_singleton.mp member
      exact mem_nodes_self _

theorem targetPartsList_subset {ns : List Node} (below : ns ⊆ n.nodes) :
    targetPartsList ns ⊆ n.nodes := by
  intro part member
  rw [targetPartsList_eq_flatMap] at member
  obtain ⟨t, among, member⟩ := mem_flatMap.mp member
  exact nodes_subset (below among) (targetParts_subset t member)

theorem children_subset (n : Node) : n.children ⊆ n.nodes :=
  fun c child => nodes_subset_of_child child (mem_nodes_self c)

theorem paramReads_subset (params : List (Param Node)) :
    params.flatMap Flow.paramReads ⊆ params.flatMap Param.nodes := by
  intro e member
  obtain ⟨p, among, member⟩ := mem_flatMap.mp member
  refine mem_flatMap.mpr ⟨p, among, ?_⟩
  rw [Param.nodes, mem_append, Or.comm, ← mem_append]
  exact member

theorem functionParts_subset (loc : Location) (own : String) (header : Location)
    (params : List (Param Node)) (returns : Option Node) (code : List Node) (isAsync : Bool) :
    params.flatMap Flow.paramReads ++ returns.toList ⊆
      (Node.function loc own header params returns code isAsync).children := by
  intro e member
  rw [children, mem_append]
  refine Or.inl ?_
  rcases mem_append.mp member with member | member
  · exact mem_append_left _ (paramReads_subset params member)
  · exact mem_append_right _ member

theorem classParts_subset (loc : Location) (own : String) (header : Location) (bases : List Node)
    (keywords : List (Keyword Node)) (code : List Node) :
    bases ++ keywords.map Keyword.value ⊆
    (Node.classDef loc own header bases keywords code).children :=
  subset_append_left _ _

theorem decoratorParts_subset (loc : Location) (decorators : List Node) (definition : Node) :
    decoratorParts decorators ⊆ (Node.decorated loc decorators definition).nodes := by
  intro e member
  obtain ⟨d, among, found⟩ := mem_filterMap.mp member
  have below : d ∈ (Node.decorated loc decorators definition).nodes :=
    children_subset _ (mem_append_left _ among)
  refine nodes_subset below (children_subset d ?_)
  cases d
  case decorator loc e' =>
    obtain rfl := Option.some.inj found
    exact mem_singleton_self _
  all_goals nomatch found

/-- What a statement without blocks evaluates stands below it. -/
theorem evaluatedParts_subset (n : Node) : n.evaluatedParts ⊆ n.nodes := by
  have below := children_subset n
  have definition : ∀ {loc : Location} {decorators : List Node} {d : Node} {parts : List Node},
      n = .decorated loc decorators d → parts ⊆ d.children → decoratorParts decorators ++ parts ⊆
      n.nodes := by
    intro loc decorators d parts same inside
    subst same
    refine append_subset.mpr ⟨decoratorParts_subset loc decorators d, ?_⟩
    have child : d ∈ (Node.decorated loc decorators d).nodes :=
      below (mem_append_right _ (mem_singleton_self d))
    exact List.Subset.trans inside (List.Subset.trans (children_subset d) (nodes_subset child))
  cases n
  case assign loc targets value op hint isExpression =>
    have targetsBelow : targets ⊆ (Node.assign loc targets value op hint isExpression).nodes :=
      fun t member => below (mem_append_left _ (mem_append_left _ member))
    have hintBelow : hint.toList ⊆ (Node.assign loc targets value op hint isExpression).nodes :=
      fun t member => below (mem_append_left _ (mem_append_right _ member))
    have valueBelow : value.toList ⊆ (Node.assign loc targets value op hint isExpression).nodes :=
      fun t member => below (mem_append_right _ member)
    rw [evaluatedParts]
    refine append_subset.mpr ⟨append_subset.mpr ⟨append_subset.mpr ⟨valueBelow, hintBelow⟩, ?_⟩, ?_⟩
    · split
      · exact targetsBelow
      · exact nil_subset _
    · split
      · exact nil_subset _
      · exact targetPartsList_subset targetsBelow
  case delete loc targets =>
    intro part member
    obtain ⟨t, among, member⟩ := mem_flatMap.mp member
    split at member
    · exact nodes_subset (below among) (targetParts_subset t member)
    · exact absurd member not_mem_nil
  case assertion => exact below
  case returning => exact below
  case raising => exact below
  case expression => exact below
  case function => exact List.Subset.trans (functionParts_subset _ _ _ _ _ _ _) below
  case classDef => exact List.Subset.trans (classParts_subset _ _ _ _ _ _) below
  case decorated loc decorators d =>
    cases d
    case function => exact definition rfl (functionParts_subset _ _ _ _ _ _ _)
    case classDef => exact definition rfl (classParts_subset _ _ _ _ _ _)
    all_goals exact nil_subset _
  all_goals exact nil_subset _

/-- What a statement without blocks binds is a name that stands in it. -/
theorem boundNames_subset (n : Node) : n.boundNames ⊆ n.identifiers := by
  have targets : ∀ ts ⊆ n.children, ts.flatMap targetIds ⊆ n.identifiers := by
    intro ts below name member
    obtain ⟨t, among, member⟩ := mem_flatMap.mp member
    exact identifiers_subset_of_child (below among) (targetIds_subset t member)
  cases n
  case imports loc names => exact fun name member => mem_identifiers_own rfl member
  case importsFrom loc base level names =>
    rw [boundNames]
    split
    · exact nil_subset _
    · rename_i plain
      exact fun name member => mem_identifiers_own (Bool.eq_false_iff.mpr plain) member
  case assign loc ts value op hint isExpression =>
    rw [boundNames]
    split
    · exact nil_subset _
    · refine targets ts fun t member => ?_
      exact mem_append_left _ (mem_append_left _ member)
  case delete loc ts => exact targets ts (List.Subset.refl _)
  case function =>
    intro name member
    exact mem_identifiers_own rfl (mem_cons.mpr (Or.inl (mem_singleton.mp member)))
  case classDef => exact fun name member => mem_identifiers_own rfl member
  case decorated loc decorators d =>
    have child : d ∈ (Node.decorated loc decorators d).children :=
      mem_append_right _ (mem_singleton_self d)
    refine List.Subset.trans ?_ (identifiers_subset_of_child child)
    cases d
    case function =>
      intro name member
      exact mem_identifiers_own rfl (mem_cons.mpr (Or.inl (mem_singleton.mp member)))
    case classDef => exact fun name member => mem_identifiers_own rfl member
    all_goals exact nil_subset _
  all_goals exact nil_subset _

theorem contextParts_subset (loc header : Location) (items : List (WithItem Node))
    (code : List Node) (isAsync : Bool) :
    contextParts items ⊆ (Node.context loc header items code isAsync).nodes := by
  intro part member
  obtain ⟨item, among, member⟩ := mem_flatMap.mp member
  have inside : item.nodes ⊆ (Node.context loc header items code isAsync).nodes := fun e own =>
    children_subset _ (mem_append_left _ (mem_flatMap.mpr ⟨item, among, own⟩))
  rcases mem_cons.mp member with rfl | member
  · exact inside (mem_cons_self ..)
  · exact targetPartsList_subset (fun e own => inside (mem_cons_of_mem _ own)) member

theorem contextIds_subset (loc header : Location) (items : List (WithItem Node)) (code : List Node)
    (isAsync : Bool) : contextIds items ⊆
    (Node.context loc header items code isAsync).identifiers := by
  intro id member
  obtain ⟨item, among, member⟩ := mem_flatMap.mp member
  rw [targetNamesList_eq_flatMap, map_flatMap] at member
  obtain ⟨target, own, member⟩ := mem_flatMap.mp member
  have child : target ∈ (Node.context loc header items code isAsync).children :=
    mem_append_left _ (mem_flatMap.mpr ⟨item, among, mem_cons_of_mem _ own⟩)
  exact identifiers_subset_of_child child (targetIds_subset target member)

end Lineage.Node
