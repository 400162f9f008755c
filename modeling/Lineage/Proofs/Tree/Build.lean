import Lineage.Proofs.Flow.Faults
import Lineage.Proofs.Grammar.Shape
import Lineage.Tree.Build

/-!
Trees of modules are in order. The tree of an expression is made up of expressions, and what the
tree of a module has in the places of statements are the trees of statements.
-/

namespace Lineage.Node

open List

open Grammar (Expr Stmt)

variable {n : Node} {a : Arguments Expr}

theorem InOrder.of_children (made : n.WellMade)
    (plain : n.kind.isStatement = true → n.isWalrus = true) (below : ∀ c ∈ n.children, c.InOrder) :
    n.InOrder := by
  intro m member
  rw [nodes_eq] at member
  rcases mem_cons.mp member with rfl | member
  · exact ⟨made, plain⟩
  · obtain ⟨c, child, member⟩ := mem_flatMap.mp member
    exact below c child m member

theorem InOrder.of_expression (made : n.WellMade) (other : n.kind.isStatement = false)
    (below : ∀ c ∈ n.children, c.InOrder) : n.InOrder :=
  .of_children made (fun statement => absurd (other.symm.trans statement) Bool.false_ne_true) below

/-! ### Expressions -/

variable (src : Source)

theorem ofExprs_eq_map (es : List Expr) : ofExprs src es = es.map (ofExpr src) := by
  induction es with
  | nil => rw [ofExprs, map_nil]
  | cons e rest ih => rw [ofExprs, ih, map_cons]

theorem toList_ofExpr? (o : Option Expr) : (ofExpr? src o).toList = o.toList.map (ofExpr src) := by
  cases o <;> rw [ofExpr?] <;> rfl

theorem values_ofKeywords (ks : List (Keyword Expr)) :
    (ofKeywords src ks).map Keyword.value = (ks.map Keyword.value).map (ofExpr src) := by
  induction ks with
  | nil => rw [ofKeywords]; rfl
  | cons k rest ih => rw [ofKeywords, map_cons, ih]; rfl

theorem nodes_ofGenerators (gs : List (Generator Expr)) :
    (ofGenerators src gs).flatMap Generator.nodes = (gs.flatMap fun g => g.target :: g.iter ::
      g.conditions).map (ofExpr src) := by
  induction gs with
  | nil => rw [ofGenerators]; rfl
  | cons g rest ih => simp [ofGenerators, Generator.nodes, ofExprs_eq_map, ih]

theorem nodes_ofItems (is : List (WithItem Expr)) :
    (ofItems src is).flatMap WithItem.nodes = (is.flatMap fun i => i.context :: i.target.toList).map
    (ofExpr src) := by
  induction is with
  | nil => rfl
  | cons i rest ih =>
    rw [ofItems, map_cons, flatMap_cons, ← ofItems, ih]
    simp [WithItem.nodes, toList_ofExpr?]

theorem ofPieces_eq_map (es : List Expr) :
    ofPieces src es = (es.flatMap Expr.pieces).map (ofExpr src) := by
  induction es with
  | nil => rw [ofPieces]; rfl
  | cons e rest ih =>
    cases e
    case formatted loc value spec =>
      rw [ofPieces, ih, toList_ofExpr?, flatMap_cons, map_append]
      rfl
    all_goals
      rw [ofPieces, ih, flatMap_cons, map_append]
      · rfl
      · exact nofun

/-! ### Parameters, keys and operands -/

theorem toList_ofOptions (os : List (Option Expr)) :
    (ofOptions src os).flatMap Option.toList = (os.flatMap Option.toList).map (ofExpr src) := by
  induction os with
  | nil => rw [ofOptions]; rfl
  | cons o rest ih => rw [ofOptions, flatMap_cons, ih, toList_ofExpr?, flatMap_cons, map_append]

theorem length_ofOptions (os : List (Option Expr)) : (ofOptions src os).length = os.length := by
  induction os with
  | nil => rw [ofOptions]; rfl
  | cons o rest ih => rw [ofOptions, length_cons, ih, length_cons]

theorem hints_ofArgs (args : List (Arg Expr)) :
    (ofArgs src args).flatMap (fun arg => arg.hint.toList) =
    (args.flatMap fun arg => arg.hint.toList).map (ofExpr src) := by
  induction args with
  | nil => rw [ofArgs]; rfl
  | cons arg rest ih => rw [ofArgs, flatMap_cons, ih, toList_ofExpr?, flatMap_cons, map_append]

theorem length_ofArgs (args : List (Arg Expr)) : (ofArgs src args).length = args.length := by
  induction args with
  | nil => rw [ofArgs]; rfl
  | cons arg rest ih => rw [ofArgs, length_cons, ih, length_cons]

theorem hints_ofArg? (arg : Option (Arg Expr)) :
    (ofArg? src arg).toList.flatMap (fun arg => arg.hint.toList) =
    (arg.toList.flatMap fun arg => arg.hint.toList).map (ofExpr src) := by
  cases arg <;> simp [ofArg?, toList_ofExpr?]

theorem ofArguments_eq (a : Arguments Expr) :
    ofArguments src a = ⟨ofArgs src a.posonly, ofArgs src a.args, ofArg? src a.vararg,
      ofArgs src a.kwonly, ofOptions src a.kwDefaults, ofArg? src a.kwarg,
      ofExprs src a.defaults⟩ := by
  cases a
  rw [ofArguments]

theorem parts_ofArguments (a : Arguments Expr) :
    (ofArguments src a).parts = a.parts.map (ofExpr src) := by
  simp [ofArguments_eq, Arguments.parts, Arguments.positional, hints_ofArgs, hints_ofArg?,
    toList_ofOptions, ofExprs_eq_map]

theorem aligned_ofArguments (aligned : a.Aligned) : (ofArguments src a).Aligned := by
  constructor
  · simpa [ofArguments_eq, Arguments.positional, length_ofArgs,
      ofExprs_eq_map] using aligned.positional
  · simpa [ofArguments_eq, length_ofArgs, length_ofOptions] using aligned.keywords

/-- The parameters of a definition hold its annotations and defaults. -/
theorem perm_params (aligned : a.Aligned) :
    ((ofArguments src a).params.flatMap Param.nodes).Perm (a.parts.map (ofExpr src)) := by
  rw [← parts_ofArguments]
  exact (aligned_ofArguments src aligned).perm_params

/-- The entries of a dictionary hold its keys and values. -/
theorem perm_entries {keys : List (Option Expr)} {values : List Expr}
    (same : keys.length = values.length) :
      ((List.zipWith Entry.mk (ofOptions src keys) (ofExprs src values)).flatMap Entry.nodes).Perm
      ((keys.flatMap Option.toList ++ values).map (ofExpr src)) := by
  induction keys generalizing values with
  | nil =>
    obtain rfl := length_eq_zero_iff.mp same.symm
    rw [ofOptions]
    exact .refl _
  | cons key rest ih =>
    obtain ⟨value, others, rfl⟩ := exists_cons_of_length_eq_add_one same.symm
    have later := ih (Nat.succ.inj same)
    rw [ofOptions, ofExprs, zipWith_cons_cons, flatMap_cons, flatMap_cons]
    simp only [Entry.nodes, toList_ofExpr?, map_append, map_cons, append_assoc] at later ⊢
    refine List.Perm.append_left _ ?_
    exact (later.cons _).trans perm_middle.symm

/-- The operations of a chain have its operands. -/
theorem operands_zip {ops : List String} {comparators : List Expr}
    (same : ops.length = comparators.length) : (ops.zip (ofExprs src comparators)).map Prod.snd =
    comparators.map (ofExpr src) := by
  rw [ofExprs_eq_map, map_snd_zip]
  exact Nat.le_of_eq ((length_map _).trans same.symm)

/-- Operations nested to the left. -/
theorem inOrder_foldl {α : Type} {xs : List α} {make : Node → α → Node} {first : Node}
    (fine : first.InOrder) (step : ∀ left x, x ∈ xs → left.InOrder → (make left x).InOrder) :
    (xs.foldl make first).InOrder := by
  induction xs generalizing first with
  | nil => exact fine
  | cons x rest ih =>
    exact ih (step first x (mem_cons_self ..) fine) fun left y member => step left y
      (mem_cons_of_mem _ member)

theorem inOrder_binary {loc : Location} {op : String} {left right : Node} (first : left.InOrder)
    (second : right.InOrder) : (binary loc op left right).InOrder :=
  .of_children trivial nofun (forall_mem_cons.mpr ⟨first, forall_mem_singleton.mpr second⟩)

theorem inOrder_params (aligned : a.Aligned) (fine : ∀ e ∈ a.parts, (ofExpr src e).InOrder) :
    ∀ n ∈ (ofArguments src a).params.flatMap Param.nodes, n.InOrder := by
  intro n member
  exact forall_mem_map.mpr fine n ((perm_params src aligned).mem_iff.mp member)

variable {src}

/-- The tree of a shaped expression is in order. -/
theorem inOrder_ofExpr {e : Expr} (shaped : e.Shaped) : (ofExpr src e).InOrder := by
  induction shaped with
  | @mk e own parts ih =>
    have mapped : ∀ {es : List Expr}, es ⊆ e.operands → ∀ n ∈ es.map (ofExpr src), n.InOrder :=
      fun inside => forall_mem_map.mpr fun p member => ih p (inside member)
    cases e
    case boolean loc op first rest =>
      rw [ofExpr, ofExprs_eq_map]
      refine inOrder_foldl (ih first (mem_cons_self ..))
        fun left right member fine => inOrder_binary fine ?_
      exact mapped (subset_cons_self first rest) right member
    case compare loc first ops comparators =>
      rw [ofExpr]
      refine inOrder_foldl (ih first (mem_cons_self ..))
        fun left right member fine => inOrder_binary fine ?_
      refine mapped (subset_cons_self first comparators) right.2 ?_
      rw [← operands_zip src own]
      exact mem_map_of_mem member
    case joined loc values =>
      rw [ofExpr]
      refine .of_expression trivial rfl ?_
      rw [children, ofPieces_eq_map]
      exact mapped (List.Subset.refl _)
    case named loc target value =>
      rw [ofExpr]
      refine .of_children (fun _ => ⟨?_, rfl⟩) (fun _ => rfl)
        (mapped (List.Subset.refl [target, value]))
      cases target
      case name loc id =>
        rw [ofExpr]
        exact ⟨loc, id, rfl⟩
      all_goals cases own
    case comprehension loc flavor element value generators =>
      rw [ofExpr]
      refine .of_expression ?_ rfl ?_
      · obtain ⟨g, rest, rfl⟩ := exists_cons_of_ne_nil own
        rw [ofGenerators]
        exact cons_ne_nil _ _
      · rw [children, toList_ofExpr?, nodes_ofGenerators, ← map_cons, ← map_append]
        exact mapped (List.Subset.refl _)
    case lambda loc params body =>
      rw [ofExpr]
      refine .of_expression trivial rfl ?_
      rw [children]
      obtain ⟨given, last⟩ := forall_mem_append.mp ih
      exact forall_mem_append.mpr ⟨inOrder_params src own given, forall_mem_singleton.mpr (last body
        (mem_singleton_self body))⟩
    case dict loc keys values =>
      rw [ofExpr]
      refine .of_expression trivial rfl fun n member => ?_
      exact mapped (List.Subset.refl _) n ((perm_entries src own).mem_iff.mp member)
    case formatted => exact own.elim
    case constant | name =>
      rw [ofExpr]
      exact .of_expression trivial rfl (forall_mem_nil _)
    all_goals
      rw [ofExpr]
      refine .of_expression trivial rfl ?_
      have all := mapped (List.Subset.refl _)
      simpa [children, toList_ofExpr?, ofExprs_eq_map, values_ofKeywords, Expr.operands,
        Expr.parts] using all

/-! ### Statements -/

section Statements

variable (src : Source)

theorem ofStmts_eq_map (body : List Stmt) : ofStmts src body = body.map (ofStmt src) := by
  induction body with
  | nil => rw [ofStmts, map_nil]
  | cons s rest ih => rw [ofStmts, ih, map_cons]

theorem ofHandlers_eq_map (handlers : List (Grammar.ExceptClause Expr Stmt)) :
    ofHandlers src handlers = handlers.map fun h =>
      ⟨src.page.header h.loc h.body, ofStmts src h.body, ofExpr? src h.type, h.name⟩ := by
  induction handlers with
  | nil => rw [ofHandlers, map_nil]
  | cons h rest ih => rw [ofHandlers, ih, map_cons]

/-- Statements with the property are shaped, and it holds of the statements inside as well. -/
structure Inherited (P : Stmt → Prop) : Prop where
  shaped : ∀ {s}, P s → s.Shaped
  inner : ∀ {s}, P s → ∀ c ∈ s.inner, P c

variable (P : Stmt → Prop)

/-- The tree of a statement with the property. -/
def FromStmt (n : Node) : Prop :=
  ∃ s : Stmt, P s ∧ n = ofStmt src s

/-- The further branches and the alternative of a branch are put together from the trees of such
statements. -/
structure FromBranches (rest : List (Elif Node) × Option (Clause Node)) : Prop where
  tests : ∀ e ∈ rest.1, e.test.InOrder
  bodies : ∀ e ∈ rest.1, ∀ c ∈ e.body, FromStmt src P c
  last : ∀ c ∈ Clause.statements rest.2, FromStmt src P c

variable {src} {P}

theorem fromStmt_ofStmts {body : List Stmt} (all : ∀ s ∈ body, P s) :
    ∀ c ∈ ofStmts src body, FromStmt src P c := by
  rw [ofStmts_eq_map]
  exact forall_mem_map.mpr fun s member => ⟨s, all s member, rfl⟩

theorem fromStmt_ofClause {word : String} {after : Int} {body : List Stmt} (all : ∀ s ∈ body, P s) :
    ∀ c ∈ Clause.statements (ofClause src word after body), FromStmt src P c := by
  cases body with
  | nil => rw [ofClause]; exact forall_mem_nil _
  | cons s rest =>
    rw [ofClause]
    have made : ∀ c ∈ ofStmts src (s :: rest), FromStmt src P c := fromStmt_ofStmts all
    rwa [ofStmts] at made

/-- A branch that alone makes up an alternative is taken apart if its line says `elif`. -/
theorem fromBranches (inherited : Inherited P) {s : Stmt} (shaped : s.Shaped) (own : P s) :
    ∀ loc test body orelse, s = .branch loc test body orelse →
    ∀ after, FromBranches src P (ofBranches src after orelse) := by
  induction shaped with
  | mk _ _ _ ih =>
    rintro _ _ body orelse rfl after
    have inner := inherited.inner own
    have alternative : ∀ s ∈ orelse, P s := fun s member => inner s (mem_append_right _ member)
    fun_cases ofBranches src after orelse with
    | case1 => exact ⟨forall_mem_nil _, forall_mem_nil _, forall_mem_nil _⟩
    | case2 loc test code rest starts =>
      have member : Stmt.branch loc test code rest ∈ body ++ [Stmt.branch loc test code rest] :=
        mem_append_right _ (mem_singleton_self _)
      obtain ⟨_, tested, _⟩ := inherited.shaped (inner _ member)
      have others := ih _ member (inner _ member) loc test code rest rfl (Grammar.lastLine code)
      refine ⟨forall_mem_cons.mpr ⟨?_, others.tests⟩, forall_mem_cons.mpr ⟨?_, others.bodies⟩,
        others.last⟩
      · exact inOrder_ofExpr (tested test (mem_singleton_self test))
      · exact fromStmt_ofStmts fun s among => inherited.inner (inner _ member) s
          (mem_append_left _ among)
    | case3 loc test code rest starts =>
      refine ⟨forall_mem_nil _, forall_mem_nil _, forall_mem_singleton.mpr ?_⟩
      refine ⟨.branch loc test code rest, alternative _ (mem_singleton_self _), ?_⟩
      rw [ofStmt]
    | case4 s rest other =>
      refine ⟨forall_mem_nil _, forall_mem_nil _, ?_⟩
      have all : ∀ c ∈ ofStmts src (s :: rest), FromStmt src P c := fromStmt_ofStmts alternative
      rwa [ofStmts] at all

/-- What is said of a node that stands in the place of a statement. -/
structure Standing (src : Source) (P : Stmt → Prop) (n : Node) : Prop where
  statement : n.kind.isStatement = true
  made : n.WellMade
  parts : ∀ e ∈ n.exprParts, e.InOrder
  bodies : ∀ c ∈ n.bodies, FromStmt src P c

theorem standing_decorate {loc : Location} {decorators : List Expr} {definition : Node}
    (shaped : ∀ d ∈ decorators, d.Shaped)
    (defines : definition.kind = .function ∨ definition.kind = .classDef)
    (standing : Standing src P definition) :
    Standing src P (decorate src loc decorators definition) := by
  cases decorators with
  | nil => exact standing
  | cons first rest =>
    refine ⟨rfl, ⟨?_, defines⟩, forall_mem_append.mpr ⟨?_, standing.parts⟩, ?_⟩
    · exact forall_mem_map.mpr fun d _ => rfl
    · refine forall_mem_map.mpr fun d member => .of_children trivial nofun ?_
      exact forall_mem_singleton.mpr (inOrder_ofExpr (shaped d member))
    · have bodies := standing.bodies
      cases definition
      case function | classDef => exact bodies
      all_goals exact defines.elim nofun nofun

theorem forall_bodies {P : Node → Prop} (all : ∀ block ∈ n.clauseBlocks, ∀ c ∈ block.2, P c) :
    ∀ c ∈ n.clauseBlocks.flatMap Prod.snd, P c := by
  intro c member
  obtain ⟨block, among, member⟩ := mem_flatMap.mp member
  exact all block among c member

theorem standing_ofStmt (inherited : Inherited P) {s : Stmt} (own : P s) :
    Standing src P (ofStmt src s) := by
  have inner := inherited.inner own
  have shaped := inherited.shaped own
  obtain ⟨whole, parts⟩ : s.WellMade ∧ ∀ e ∈ s.parts, e.Shaped :=
    shaped.rec fun own parts _ _ => ⟨own, parts⟩
  have mapped : ∀ {es : List Expr}, es ⊆ s.parts → ∀ n ∈ es.map (ofExpr src), n.InOrder :=
    fun inside => forall_mem_map.mpr fun p member => inOrder_ofExpr (parts p (inside member))
  cases s
  case functionDef loc id params returns body decorators isAsync =>
    obtain ⟨front, hinted⟩ := forall_mem_append.mp parts
    obtain ⟨decorated, given⟩ := forall_mem_append.mp front
    rw [ofStmt]
    refine standing_decorate decorated (Or.inl rfl) ⟨rfl, trivial, forall_mem_append.mpr ⟨?_, ?_⟩,
      fromStmt_ofStmts inner⟩
    · exact inOrder_params src whole fun e member => inOrder_ofExpr (given e member)
    · rw [toList_ofExpr?]
      exact forall_mem_map.mpr fun e member => inOrder_ofExpr (hinted e member)
  case classDef loc id bases keywords body decorators =>
    obtain ⟨front, values⟩ := forall_mem_append.mp parts
    obtain ⟨decorated, given⟩ := forall_mem_append.mp front
    rw [ofStmt]
    refine standing_decorate decorated (Or.inr rfl) ⟨rfl, trivial, forall_mem_append.mpr ⟨?_, ?_⟩,
      fromStmt_ofStmts inner⟩
    · rw [ofExprs_eq_map]
      exact forall_mem_map.mpr fun e member => inOrder_ofExpr (given e member)
    · rw [values_ofKeywords]
      exact forall_mem_map.mpr fun e member => inOrder_ofExpr (values e member)
  case branch loc test body orelse =>
    have rest : FromBranches src P (ofBranches src (Grammar.lastLine body) orelse) :=
      fromBranches inherited shaped own loc test body orelse rfl (Grammar.lastLine body)
    rw [ofStmt]
    refine ⟨rfl, trivial, ?_, forall_bodies
      (forall_clauseBlocks_branch.mpr ⟨?_, rest.bodies, rest.last⟩)⟩
    · refine forall_mem_cons.mpr ⟨inOrder_ofExpr (parts test (mem_singleton_self test)), ?_⟩
      exact forall_mem_map.mpr rest.tests
    · exact fromStmt_ofStmts fun s member => inner s (mem_append_left _ member)
  case whileLoop loc test body orelse =>
    obtain ⟨first, second⟩ := forall_mem_append.mp inner
    rw [ofStmt]
    refine ⟨rfl, trivial, mapped (List.Subset.refl [test]), forall_bodies ?_⟩
    exact forall_clauseBlocks_while.mpr ⟨fromStmt_ofStmts first, fromStmt_ofClause second⟩
  case forLoop loc target iter body orelse isAsync =>
    obtain ⟨first, second⟩ := forall_mem_append.mp inner
    rw [ofStmt]
    refine ⟨rfl, trivial, mapped (List.Subset.refl [target, iter]), forall_bodies ?_⟩
    exact forall_clauseBlocks_for.mpr ⟨fromStmt_ofStmts first, fromStmt_ofClause second⟩
  case context loc items body isAsync =>
    rw [ofStmt]
    refine ⟨rfl, trivial, ?_, forall_bodies
      (forall_clauseBlocks_context.mpr (fromStmt_ofStmts inner))⟩
    rw [exprParts, nodes_ofItems]
    exact mapped (List.Subset.refl _)
  case attempt loc body handlers orelse final =>
    obtain ⟨front, ends⟩ := forall_mem_append.mp inner
    obtain ⟨front, otherwise⟩ := forall_mem_append.mp front
    obtain ⟨first, handled⟩ := forall_mem_append.mp front
    rw [ofStmt, ofHandlers_eq_map]
    refine ⟨rfl, trivial, fun e member => ?_,
      forall_bodies (forall_clauseBlocks_attempt.mpr
      ⟨fromStmt_ofStmts first, forall_mem_map.mpr fun h among => fromStmt_ofStmts
        fun s member => ?_, fromStmt_ofClause otherwise, fromStmt_ofClause ends⟩)⟩
    · rw [exprParts, flatMap_map] at member
      obtain ⟨h, among, member⟩ := mem_flatMap.mp member
      rw [toList_ofExpr?] at member
      refine mapped (fun t own => ?_) e member
      exact mem_flatMap.mpr ⟨h, among, own⟩
    · exact handled s (mem_flatMap.mpr ⟨h, among, member⟩)
  case assign | augment | annotate =>
    rw [ofStmt]
    refine ⟨rfl, nofun, ?_, forall_mem_nil _⟩
    have all := mapped (List.Subset.refl _)
    simp only [Stmt.parts, map_append, map_cons, forall_mem_append, forall_mem_cons] at all
    simp only [exprParts, children, ofExprs_eq_map, toList_ofExpr?, Option.toList_some,
      Option.toList_none, forall_mem_append, forall_mem_cons]
    grind
  case imports | importsFrom | global | nonlocal | pass | «break» | «continue» | matching =>
    rw [ofStmt]
    exact ⟨rfl, trivial, forall_mem_nil _, forall_mem_nil _⟩
  all_goals
    rw [ofStmt]
    refine ⟨rfl, trivial, ?_, forall_mem_nil _⟩
    have all := mapped (List.Subset.refl _)
    simpa [exprParts, children, ofExprs_eq_map, toList_ofExpr?, Stmt.parts] using all

/-! ### Whole trees -/

/-- The children of a statement are its expressions and the statements in its blocks and bodies. -/
theorem mem_children_cases {c : Node} (plain : n.kind ≠ .decorated) (child : c ∈ n.children) :
    c ∈ n.exprParts ∨ c ∈ n.bodies := by
  have blocks : ∀ block ∈ n.clauseBlocks, ∀ c ∈ block.2, c ∈ n.bodies :=
    fun block among c member => mem_bodies_of_block among member
  cases n
  case decorated => exact absurd rfl plain
  case function | classDef => exact mem_append.mp child
  case module => exact Or.inr (blocks _ (mem_singleton_self _) c child)
  case branch =>
    obtain ⟨first, second, third⟩ := forall_clauseBlocks_branch.mp blocks
    simp only [children, cons_append, mem_cons, mem_append, mem_flatMap, Elif.nodes] at child
    rcases child with rfl | (own | ⟨e, among, rfl | own⟩) | own
    · exact Or.inl (mem_cons_self ..)
    · exact Or.inr (first c own)
    · exact Or.inl (mem_cons_of_mem _ (mem_map_of_mem among))
    · exact Or.inr (second e among c own)
    · exact Or.inr (third c own)
  case whileLoop =>
    obtain ⟨first, second⟩ := forall_clauseBlocks_while.mp blocks
    rcases mem_append.mp child with front | own
    · exact (mem_cons.mp front).imp (fun same => mem_singleton.mpr same) (first c)
    · exact Or.inr (second c own)
  case forLoop =>
    obtain ⟨first, second⟩ := forall_clauseBlocks_for.mp blocks
    simp only [children, cons_append, mem_cons, mem_append] at child
    rcases child with rfl | rfl | own | own
    · exact Or.inl (mem_cons_self ..)
    · exact Or.inl (mem_cons_of_mem _ (mem_singleton_self _))
    · exact Or.inr (first c own)
    · exact Or.inr (second c own)
  case attempt =>
    obtain ⟨first, second, third, fourth⟩ := forall_clauseBlocks_attempt.mp blocks
    simp only [children, mem_append, mem_flatMap, Handler.nodes] at child
    rcases child with ((own | ⟨h, among, type | own⟩) | own) | own
    · exact Or.inr (first c own)
    · exact Or.inl (mem_flatMap.mpr ⟨h, among, type⟩)
    · exact Or.inr (second h among c own)
    · exact Or.inr (third c own)
    · exact Or.inr (fourth c own)
  case context =>
    exact (mem_append.mp child).imp id (forall_clauseBlocks_context.mp blocks c)
  all_goals exact Or.inl child

/-- The nodes of a statement are its own, those of its expressions, those of the statements in its
blocks and bodies, and the definition that is decorated. -/
theorem mem_nodes_cases {m : Node} (made : n.WellMade) (member : m ∈ n.nodes) :
    m = n ∨ (∃ e ∈ n.exprParts, m ∈ e.nodes) ∨ (∃ c ∈ n.bodies, m ∈ c.nodes) ∨
      m.kind = .function ∨ m.kind = .classDef := by
  have below : ∀ {d : Node}, d.kind ≠ .decorated → m ∈ d.nodes →
      m = d ∨ (∃ e ∈ d.exprParts, m ∈ e.nodes) ∨ ∃ c ∈ d.bodies, m ∈ c.nodes := by
    intro d plain member
    rw [nodes_eq] at member
    rcases mem_cons.mp member with same | member
    · exact Or.inl same
    · obtain ⟨c, child, member⟩ := mem_flatMap.mp member
      rcases mem_children_cases plain child with part | body
      · exact Or.inr (Or.inl ⟨c, part, member⟩)
      · exact Or.inr (Or.inr ⟨c, body, member⟩)
  by_cases plain : n.kind = .decorated
  · cases n
    case decorated loc decorators definition =>
      rw [nodes_eq] at member
      rcases mem_cons.mp member with same | member
      · exact Or.inl same
      obtain ⟨c, child, inside⟩ := mem_flatMap.mp member
      rcases mem_append.mp child with decorator | own
      · exact Or.inr (Or.inl ⟨c, mem_append_left _ decorator, inside⟩)
      obtain rfl := mem_singleton.mp own
      have defines := made.2
      have other : c.kind ≠ .decorated :=
        fun same => by rw [same] at defines; exact defines.elim nofun nofun
      rcases below other inside with rfl | ⟨e, part, member⟩ | ⟨d, body, member⟩
      · exact Or.inr (Or.inr (Or.inr defines))
      · exact Or.inr (Or.inl ⟨e, mem_append_right _ part, member⟩)
      · refine Or.inr (Or.inr (Or.inl ⟨d, ?_, member⟩))
        cases c
        case function | classDef => exact body
        all_goals exact defines.elim nofun nofun
    all_goals exact nomatch plain
  · exact (below plain member).imp id (Or.imp id Or.inl)

theorem wellMade_of_fromStmt (inherited : Inherited P) (stands : FromStmt src P n) :
    ∀ m ∈ n.nodes, m.WellMade := by
  induction n using bodies_induction with
  | step n ih =>
    obtain ⟨s, own, rfl⟩ := stands
    have standing : Standing src P (ofStmt src s) := standing_ofStmt inherited own
    intro m member
    rcases mem_nodes_cases standing.made member with rfl | ⟨e, part, inside⟩ | ⟨c, body,
      inside⟩ | defines
    · exact standing.made
    · exact (standing.parts e part m inside).1
    · exact ih c body (standing.bodies c body) m inside
    · cases m
      case function | classDef => exact trivial
      all_goals exact defines.elim nofun nofun

theorem fromStmt_of_seat (inherited : Inherited P) {code : List Node}
    (all : ∀ c ∈ code, FromStmt src P c) {s : Node} (seat : Seat code s) : FromStmt src P s := by
  induction seat with
  | top member => exact all _ member
  | inside _ body ih =>
    obtain ⟨s, own, rfl⟩ := ih
    exact (standing_ofStmt inherited own).bodies _ body

/-- The tree of a shaped module is in order, and statements stand in all places of statements. -/
theorem wellFormed_ofModule {m : Grammar.Module} (shaped : ∀ s ∈ m.body, s.Shaped) :
    (ofModule src m).WellFormed ∧ ∀ s, Seat (ofModule src m).code s →
    s.kind.isStatement = true := by
  have inherited : Inherited Stmt.Shaped := ⟨id, fun ⟨_, _, inner⟩ => inner⟩
  have all : ∀ c ∈ ofStmts src m.body, FromStmt src Stmt.Shaped c := fromStmt_ofStmts shaped
  have standing : ∀ s, Seat (ofModule src m).code s → Standing src Stmt.Shaped s := by
    intro s seat
    obtain ⟨s, own, rfl⟩ := fromStmt_of_seat inherited all seat
    exact standing_ofStmt inherited own
  refine ⟨⟨fun n member => ?_, fun s seat => (standing s seat).parts⟩,
    fun s seat => (standing s seat).statement⟩
  rw [nodes_eq] at member
  rcases mem_cons.mp member with rfl | member
  · exact trivial
  · obtain ⟨c, child, member⟩ := mem_flatMap.mp member
    exact wellMade_of_fromStmt inherited (all c child) n member

end Statements

end Lineage.Node
