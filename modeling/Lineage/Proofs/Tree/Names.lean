import Mathlib.Data.List.Nodup
import Mathlib.Data.List.Perm.Basic
import Lineage.Proofs.Grammar.Statement
import Lineage.Proofs.Tree.Build
import Lineage.Tree.Parse

/-!
Nothing that is read gets lost on the way to a tree. The names in a module are those in its tree,
each as often and in the same places, and a walk over the tree comes by every node once.
-/

namespace Lineage.Grammar

open List

/-! ### Names in a module -/

theorem sizeOf_arg {α : Type} [SizeOf α] (arg : Arg α) :
    sizeOf arg = 1 + sizeOf arg.name + sizeOf arg.hint := rfl

theorem sizeOf_arguments {α : Type} [SizeOf α] (a : Arguments α) :
    sizeOf a = 1 + sizeOf a.posonly + sizeOf a.args + sizeOf a.vararg + sizeOf a.kwonly + sizeOf
    a.kwDefaults + sizeOf a.kwarg + sizeOf a.defaults := rfl

theorem sizeOf_lt_of_mem_arguments {a : Arguments Expr} {p : Expr} (among : p ∈ a.parts) :
    sizeOf p < sizeOf a := by
  rw [sizeOf_arguments]
  simp only [Arguments.parts, Arguments.positional, mem_append, mem_flatMap,
    Option.mem_toList] at among
  grind [→ sizeOf_lt_of_mem, sizeOf_arg, Option.some.sizeOf_spec]

theorem sizeOf_keyword {α : Type} [SizeOf α] (k : Keyword α) :
    sizeOf k = 1 + sizeOf k.name + sizeOf k.value := rfl

theorem sizeOf_generator {α : Type} [SizeOf α] (g : Generator α) :
    sizeOf g = 1 + sizeOf g.target + sizeOf g.iter + sizeOf g.conditions + sizeOf g.isAsync := rfl

theorem sizeOf_clause {α β : Type} [SizeOf α] [SizeOf β] (c : ExceptClause α β) :
    sizeOf c = 1 + sizeOf c.loc + sizeOf c.type + sizeOf c.name + sizeOf c.body := rfl

namespace Expr

theorem sizeOf_lt_of_mem_parts {e p : Expr} (among : p ∈ e.parts) : sizeOf p < sizeOf e := by
  cases e <;> simp only [parts, mem_append, mem_cons, mem_flatMap, mem_map, Option.mem_toList,
    not_mem_nil, or_false] at among
  all_goals grind [→ sizeOf_lt_of_mem, → sizeOf_lt_of_mem_arguments, sizeOf_generator,
    sizeOf_keyword, Option.some.sizeOf_spec]

/-- The name that an expression is, with its place. -/
def name? : Expr → Option (String × Location)
  | .name loc id => some (id, loc)
  | _ => none

/-- The names in an expression, each with its place. -/
def names (e : Expr) : List (String × Location) :=
  e.name?.toList ++ e.parts.attach.flatMap fun p => p.1.names
termination_by e
decreasing_by exact sizeOf_lt_of_mem_parts p.2

theorem names_eq (e : Expr) : e.names = e.name?.toList ++ e.parts.flatMap names := by
  rw [names, ← flatMap_map Subtype.val names, attach_map_subtype_val]

theorem names_pieces (e : Expr) : e.pieces.flatMap names = e.names := by
  cases e
  case formatted loc value spec => exact (names_eq (.formatted loc value spec)).symm
  all_goals exact flatMap_singleton ..

/-- Formatting has no names of its own. -/
theorem names_operands (e : Expr) : e.operands.flatMap names = e.parts.flatMap names := by
  cases e
  case joined loc values =>
    rw [operands, flatMap_assoc]
    exact flatMap_congr fun e _ => names_pieces e
  all_goals rfl

end Expr

namespace Stmt

theorem sizeOf_lt_of_mem_inner {s c : Stmt} (among : c ∈ s.inner) : sizeOf c < sizeOf s := by
  cases s <;> simp only [inner, mem_append, mem_flatMap, not_mem_nil] at among
  all_goals grind [→ sizeOf_lt_of_mem, sizeOf_clause]

/-- The names in a statement, each with its place. -/
def names (s : Stmt) : List (String × Location) :=
  s.parts.flatMap Expr.names ++ s.inner.attach.flatMap fun c => c.1.names
termination_by s
decreasing_by exact sizeOf_lt_of_mem_inner c.2

theorem names_eq (s : Stmt) : s.names = s.parts.flatMap Expr.names ++ s.inner.flatMap names := by
  rw [names, ← flatMap_map Subtype.val names, attach_map_subtype_val]

end Stmt

/-- The names in a module, each with its place. -/
def Module.names (m : Module) : List (String × Location) :=
  m.body.flatMap Stmt.names

end Lineage.Grammar

namespace Lineage.Node

open List

open Grammar (Expr Stmt)

/-! ### Names in a tree -/

/-- The name that a node is, with its place. -/
def name? : Node → Option (String × Location)
  | .name loc id => some (id, loc)
  | _ => none

/-- The names that a walk over a tree comes by, each with its place. -/
def names (n : Node) : List (String × Location) :=
  n.nodes.filterMap name?

theorem names_eq (n : Node) : n.names = n.name?.toList ++ n.children.flatMap names := by
  rw [names, nodes_eq, filterMap_cons, filterMap_flatMap]
  cases n.name? <;> rfl

/-- Operations nested to the left have the names of all operands. -/
theorem names_foldl {α : Type} (op : α → String) (node : α → Node) (loc : Location) (xs : List α)
    (first : Node) : (xs.foldl (fun left x => .binary loc (op x) left (node x)) first).names =
      first.names ++ (xs.map node).flatMap names := by
  induction xs generalizing first with
  | nil => simp
  | cons x rest ih =>
    rw [foldl_cons, ih, names_eq (.binary ..)]
    simp [name?, children]

variable {src : Source}

/-- The names in the node of an expression are those in the nodes of its operands. -/
theorem names_ofExpr_perm {e : Expr} (own : e.WellMade) :
    (ofExpr src e).names.Perm (e.name?.toList ++ (e.operands.map (ofExpr src)).flatMap names) := by
  cases e
  case boolean loc op first rest =>
    rw [ofExpr, ofExprs_eq_map]
    exact .of_eq ((names_foldl (fun _ => op) id loc _ _).trans (by rw [map_id]; rfl))
  case compare loc left ops comparators =>
    rw [ofExpr, names_foldl Prod.fst Prod.snd, operands_zip src own]
    exact .refl _
  case joined loc values =>
    rw [ofExpr, names_eq, children, ofPieces_eq_map]
    exact .refl _
  case lambda loc params body =>
    have all := (perm_params src own).append_right ([body].map (ofExpr src))
    rw [← map_append] at all
    rw [ofExpr, names_eq, children]
    exact all.flatMap_right names
  case dict loc keys values =>
    rw [ofExpr, names_eq, children]
    exact (perm_entries src own).flatMap_right names
  case formatted => exact own.elim
  all_goals
    rw [ofExpr, names_eq]
    simp [name?, Expr.name?, children, Expr.operands, Expr.parts, ofExprs_eq_map, toList_ofExpr?,
      values_ofKeywords, nodes_ofGenerators]

theorem names_ofExpr {e : Expr} (shaped : e.Shaped) : (ofExpr src e).names.Perm e.names := by
  induction shaped with
  | @mk e own _ ih =>
    refine (names_ofExpr_perm own).trans ?_
    rw [Expr.names_eq, ← Expr.names_operands, flatMap_map]
    exact (List.Perm.flatMap_left e.operands ih).append_left _

theorem names_ofExprs {es : List Expr} (shaped : ∀ e ∈ es, e.Shaped) :
    ((es.map (ofExpr src)).flatMap names).Perm (es.flatMap Expr.names) := by
  rw [flatMap_map]
  exact List.Perm.flatMap_left es fun e among => names_ofExpr (shaped e among)

/-! ### Statements -/

theorem names_decorate (loc : Location) (decorators : List Expr) (definition : Node) :
    (decorate src loc decorators definition).names =
      (decorators.map (ofExpr src)).flatMap names ++ definition.names := by
  cases decorators with
  | nil => rfl
  | cons first rest =>
    rw [decorate, names_eq, children, flatMap_append, flatMap_map, flatMap_map, flatMap_singleton]
    have own : ∀ d : Expr, (decorator d.loc (ofExpr src d)).names = (ofExpr src d).names := by
      intro d
      rw [names_eq, children, flatMap_singleton]
      rfl
    simp only [own]
    rfl

theorem statements_ofClause (word : String) (after : Int) (body : List Stmt) :
    Clause.statements (ofClause src word after body) = ofStmts src body := by
  cases body with
  | nil => rw [ofClause, ofStmts]; rfl
  | cons s rest => rw [ofClause, ofStmts]; rfl

/-- The nodes in the further branches and the alternative of a branch. -/
def branchNodes (rest : List (Elif Node) × Option (Clause Node)) : List Node :=
  rest.1.flatMap Elif.nodes ++ Clause.statements rest.2

/-- Taking a branch apart into further branches loses no names. -/
theorem names_ofBranches (src : Source) (after : Int) (orelse : List Stmt) :
    (branchNodes (ofBranches src after orelse)).flatMap names =
    (ofStmts src orelse).flatMap names := by
  fun_cases ofBranches src after orelse with
  | case1 => rw [ofStmts]; rfl
  | case2 loc test body orelse starts =>
    rw [ofStmts, ofStmts, ofStmt, flatMap_singleton, names_eq (.branch ..)]
    simp +zetaDelta [branchNodes, Elif.nodes, name?, children]
  | case3 loc test body orelse starts =>
    rw [ofStmts, ofStmts, ofStmt]
    rfl
  | case4 s rest other =>
    rw [ofStmts]
    rfl

theorem names_handlers (src : Source) (handlers : List (Grammar.ExceptClause Expr Stmt)) :
    (((ofHandlers src handlers).flatMap Handler.nodes).flatMap names).Perm
      (((handlers.flatMap fun h => h.type.toList).map (ofExpr src)).flatMap names ++
        (ofStmts src (handlers.flatMap fun h => h.body)).flatMap names) := by
  rw [← flatMap_append, map_flatMap, ofStmts_eq_map, map_flatMap, ofHandlers_eq_map, flatMap_map]
  refine List.Perm.flatMap_right names ?_
  simp only [Handler.nodes, toList_ofExpr?, ofStmts_eq_map]
  exact (flatMap_append_perm handlers _ _).symm

/-- The names in the node of a statement are those in the nodes of its parts and of the statements
in it. -/
theorem names_ofStmt_perm {s : Stmt} (own : s.WellMade) : (ofStmt src s).names.Perm
    ((s.parts.map (ofExpr src)).flatMap names ++ (ofStmts src s.inner).flatMap names) := by
  rw [perm_iff_count]
  intro x
  cases s
  case functionDef loc id params returns body decorators isAsync =>
    have given := ((perm_params src own).flatMap_right names).count_eq x
    rw [ofStmt, names_decorate, names_eq]
    simp [name?, children, Stmt.parts, Stmt.inner, toList_ofExpr?, given]
  case classDef loc id bases keywords body decorators =>
    rw [ofStmt, names_decorate, names_eq]
    simp [name?, children, Stmt.parts, Stmt.inner, ofExprs_eq_map, values_ofKeywords]
  case branch loc test body orelse =>
    have rest := congrArg (List.count x) (names_ofBranches src (Grammar.lastLine body) orelse)
    rw [ofStmt, names_eq]
    simp [branchNodes, name?, children, Stmt.parts, Stmt.inner, ofStmts_eq_map] at rest ⊢
    omega
  case forLoop | whileLoop =>
    rw [ofStmt, names_eq, children, statements_ofClause]
    simp [name?, Stmt.parts, Stmt.inner, ofStmts_eq_map]
  case context loc items body isAsync =>
    rw [ofStmt, names_eq, children, nodes_ofItems]
    simp [name?, Stmt.parts, Stmt.inner]
  case attempt loc body handlers orelse final =>
    have handled := (names_handlers src handlers).count_eq x
    rw [ofStmt, names_eq, children, statements_ofClause, statements_ofClause]
    simp [name?, Stmt.parts, Stmt.inner, ofStmts_eq_map] at handled ⊢
    omega
  all_goals
    rw [ofStmt, names_eq]
    simp [name?, children, Stmt.parts, Stmt.inner, ofStmts, toList_ofExpr?, ofExprs_eq_map]

theorem names_ofStmts {body : List Stmt} (each : ∀ s ∈ body, (ofStmt src s).names.Perm s.names) :
    ((ofStmts src body).flatMap names).Perm (body.flatMap Stmt.names) := by
  rw [ofStmts_eq_map, flatMap_map]
  exact List.Perm.flatMap_left body each

theorem names_ofStmt {s : Stmt} (shaped : s.Shaped) : (ofStmt src s).names.Perm s.names := by
  induction shaped with
  | mk own parts _ ih =>
    rw [Stmt.names_eq]
    exact (names_ofStmt_perm own).trans ((names_ofExprs parts).append (names_ofStmts ih))

/-! ### Places in a tree -/

/-- What a node holds in its fields, one field after the other as they are declared. -/
def fields : Node → List Node
  | .module _ code => code
  | .decorator _ value => [value]
  | .decorated _ decorators definition => decorators ++ [definition]
  | .function _ _ _ params returns code _ =>
    params.flatMap (fun p => p.default.toList ++ p.hint.toList) ++ returns.toList ++ code
  | .classDef _ _ _ bases keywords code => bases ++ keywords.map Keyword.value ++ code
  | .assign _ targets value _ hint _ => targets ++ value.toList ++ hint.toList
  | .assertion _ condition message => condition :: message.toList
  | .returning _ value => value.toList
  | .yielding _ value _ => value.toList
  | .raising _ exception cause => exception.toList ++ cause.toList
  | .delete _ targets => targets
  | .expression _ value => [value]
  | .branch _ _ test code elifs orelse =>
    test :: code ++ elifs.flatMap (fun e => e.test :: e.body) ++ orelse.toList.flatMap Clause.body
  | .whileLoop _ _ test code orelse => test :: code ++ orelse.toList.flatMap Clause.body
  | .forLoop _ _ target iter code orelse _ => target :: iter :: code ++
      orelse.toList.flatMap Clause.body
  | .attempt _ _ code handlers orelse final =>
    code ++ handlers.flatMap (fun h => h.body ++ h.type.toList) ++ orelse.toList.flatMap Clause.body
      ++ final.toList.flatMap Clause.body
  | .context _ _ items code _ => items.flatMap (fun i => i.context :: i.target.toList) ++ code
  | .call _ func args keywords => func :: args ++ keywords.map Keyword.value
  | .conditional _ test body orelse => [test, body, orelse]
  | .lambda _ params body => params.flatMap (fun p => p.default.toList ++ p.hint.toList) ++ [body]
  | .unary _ _ operand => [operand]
  | .binary _ _ left right => [left, right]
  | .starred _ value => [value]
  | .tuple _ items => items
  | .list _ items => items
  | .set _ items => items
  | .dict _ entries => entries.flatMap fun e => e.key.toList ++ [e.value]
  | .member _ value _ => [value]
  | .subscript _ value index => [value, index]
  | .slice _ lower upper step => lower.toList ++ upper.toList ++ step.toList
  | .comprehension _ _ element value generators =>
    element :: value.toList ++ generators.flatMap fun g => g.target :: g.iter :: g.conditions
  | .formatted _ values => values
  | .imports .. | .importsFrom .. | .break _ | .continue _ | .pass _ | .global .. | .nonlocal ..
  | .verbatim .. | .name .. | .literal .. => []

/-- The node at a place of a tree: which of its fields to go to, from the top down. -/
def at? : Node → List Nat → Option Node
  | n, [] => some n
  | n, i :: rest => n.fields[i]?.bind (at? · rest)

theorem statements_eq (clause : Option (Clause Node)) :
    Clause.statements clause = clause.toList.flatMap Clause.body := by
  cases clause with
  | none => rfl
  | some clause => exact (append_nil _).symm

/-- The children of a node are what it holds in its fields, if not in the same order. -/
theorem children_perm (n : Node) : n.children.Perm n.fields := by
  have given : ∀ params : List (Param Node), (params.flatMap Param.nodes).Perm
      (params.flatMap fun p => p.default.toList ++ p.hint.toList) :=
    fun params => List.Perm.flatMap_left params fun p _ => perm_append_comm
  cases n
  case function => exact ((given _).append_right _).append_right _
  case lambda => exact (given _).append_right _
  case assign loc targets value op hint isExpression =>
    rw [children, fields, append_assoc, append_assoc]
    exact perm_append_comm.append_left _
  case branch | whileLoop | forLoop => rw [children, statements_eq]; exact .refl _
  case attempt loc header code handlers orelse final =>
    rw [children, statements_eq, statements_eq]
    have caught : (handlers.flatMap Handler.nodes).Perm
        (handlers.flatMap fun h => h.body ++ h.type.toList) :=
      List.Perm.flatMap_left handlers fun h _ => perm_append_comm
    exact ((caught.append_left _).append_right _).append_right _
  all_goals exact .refl _

/-- A walk over a tree lists what stands at its places, each place once. -/
theorem exists_places (n : Node) : ∃ places : List (List Nat), places.Nodup ∧
    (∀ a, a ∈ places ↔ (n.at? a).isSome) ∧ (n.nodes.map some).Perm (places.map n.at?) := by
  induction n using children_induction with
  | step n ih =>
    have inside : ∀ {c i}, (c, i) ∈ n.fields.zipIdx → c ∈ n.children :=
      fun among => n.children_perm.mem_iff.mpr (fst_mem_of_mem_zipIdx among)
    choose! below nodup complete listed using ih
    refine ⟨[] :: n.fields.zipIdx.flatMap fun (c, i) => (below c).map (i :: ·), ?_, fun a => ?_, ?_⟩
    · rw [nodup_cons, nodup_flatMap]
      refine ⟨by simp, fun (c, i) among => (nodup c (inside among)).map cons_injective, ?_⟩
      have apart : (n.fields.zipIdx.map Prod.snd).Nodup := by
        rw [zipIdx_map_snd]
        exact nodup_range'
      refine (pairwise_map.mp apart).imp fun differ a first second => ?_
      obtain ⟨_, _, rfl⟩ := mem_map.mp first
      obtain ⟨_, _, same⟩ := mem_map.mp second
      exact differ (List.cons.inj same).1.symm
    · cases a with
      | nil => exact ⟨fun _ => rfl, fun _ => mem_cons_self ..⟩
      | cons i rest =>
        rw [at?]
        cases found : n.fields[i]? with
        | none => simp [mem_zipIdx_iff_getElem?, found]
        | some c =>
          have child := inside (mem_zipIdx_iff_getElem?.mpr found)
          simp [mem_zipIdx_iff_getElem?, found, complete c child]
    · have each : ∀ ci ∈ n.fields.zipIdx, (ci.1.nodes.map some).Perm
          (((below ci.1).map (ci.2 :: ·)).map n.at?) := by
        intro (c, i) among
        refine (listed c (inside among)).trans (.of_eq ?_)
        rw [map_map]
        refine map_congr_left fun a _ => ?_
        rw [Function.comp_apply, at?, mem_zipIdx_iff_getElem?.mp among, Option.bind_some]
      have all := (n.children_perm.flatMap_right nodes).map some
      rw [← zipIdx_map_fst 0 n.fields, flatMap_map] at all
      rw [nodes_eq, map_cons, map_cons]
      simp only [map_flatMap] at all ⊢
      exact (all.trans (List.Perm.flatMap_left _ each)).cons _

/-- **Nothing gets lost on the way to a tree.** The tree of a shaped module has the names of the
module, each as often as it stands there and in the same places, and a walk over it comes by every
node exactly once, whichever field of which node it stands in. The tree of a text is that of the
module read from the text, and that module is shaped: each default belongs to a parameter, each sign
of a comparison and each key to an operand or a value. -/
theorem walk_ofModule_complete :
    (∀ (src : Source) (m : Grammar.Module), (∀ s ∈ m.body, s.Shaped) →
      (((ofModule src m).walk fun _ => false).filterMap name?).Perm m.names ∧
        ∃ places : List (List Nat), places.Nodup ∧
          (∀ a, a ∈ places ↔ ((ofModule src m).at? a).isSome) ∧
          (((ofModule src m).walk fun _ => false).map some).Perm
          (places.map (ofModule src m).at?)) ∧
    ∀ (text : String) (tree : Node), parse text = .ok tree →
      ∃ m, Grammar.Module.parse text = .ok m ∧ tree = ofModule (.ofText text) m ∧
      ∀ s ∈ m.body, s.Shaped := by
  refine ⟨fun src m shaped => ⟨?_, exists_places _⟩, fun text tree parsed => ?_⟩
  · have all : ((ofStmts src m.body).flatMap names).Perm m.names :=
      names_ofStmts fun s among => names_ofStmt (shaped s among)
    exact (List.Perm.of_eq (names_eq (ofModule src m))).trans all
  · rw [parse] at parsed
    split at parsed
    · exact nomatch parsed
    · rename_i m reads
      exact ⟨m, reads, (Except.ok.inj parsed).symm,
        fun s member => (Grammar.sound_parse reads s member).shaped⟩

/-- A function with defaults in both places of defaults, which returns a string formatted to a
width. -/
def defaulted : String := "def f(a, b=x, *, c, d=y):\n  return f'\x7ba:\x7bz\x7d\x7d'"

/-- The names of a text, found by walking over its tree. -/
theorem walk_ofModule_complete_defaulted : ∃ m, Grammar.Module.parse defaulted = .ok m ∧
    (m.names.map Prod.fst).Perm ["x", "y", "a", "z"] := by
  have found : (parse defaulted).toOption.map
      (fun tree => ((tree.walk fun _ => false).filterMap name?).map Prod.fst) =
      some ["x", "y", "a", "z"] := by decide +kernel
  obtain ⟨tree, parsed, listed⟩ := Option.map_eq_some_iff.mp found
  obtain ⟨m, reads, rfl, shaped⟩ := walk_ofModule_complete.2 defaulted tree (by
    cases result : parse defaulted <;> simp_all [Except.toOption])
  refine ⟨m, reads, ?_⟩
  rw [← listed]
  exact ((walk_ofModule_complete.1 _ m shaped).1.map Prod.fst).symm

end Lineage.Node
