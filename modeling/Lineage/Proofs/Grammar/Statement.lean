import Lineage.Proofs.Grammar.Expression

/-!
The rules for statements read statements whose expressions are shaped and that end no earlier than
they start, one law for each rule, up to whole modules.
-/

namespace Lineage.Grammar

open List

/-- A shaped statement that, like all statements in it, ends no earlier than it starts. -/
inductive Stmt.Sound : Stmt → Prop where
  | mk {s : Stmt} (place : s.loc.firstLine ≤ s.loc.lastLine) (own : s.WellMade)
      (parts : ∀ e ∈ s.parts, e.Shaped) (inner : ∀ c ∈ s.inner, Sound c) : Sound s

namespace Stmt.Sound

variable {s : Stmt}

theorem shaped (sound : s.Sound) : s.Shaped := by
  induction sound with
  | mk _ own parts _ ih => exact .mk own parts ih

theorem inside (sound : s.Sound) : ∀ c ∈ s.inner, c.Sound := by
  obtain ⟨_, _, _, inner⟩ := sound
  exact inner

theorem simple (place : s.loc.firstLine ≤ s.loc.lastLine) (own : s.WellMade) (none : s.inner = [])
    (parts : ∀ e ∈ s.parts, e.Shaped) : s.Sound :=
  .mk place own parts (none ▸ forall_mem_nil _)

end Stmt.Sound

namespace Blocks

open Nested

/-- The rules for what is nested in statements read shaped expressions and sound statements. -/
structure Sound (b : Blocks) : Prop where
  expressions : b.expressions.Sound
  block : Yields b.block fun body => ∀ s ∈ body, s.Sound

variable {b : Blocks}

section Simple

variable (sound : b.expressions.Sound)

include sound

theorem yields_assignment : Yields b.assignment Stmt.Sound := by
  refine .skip fun _ => .bind (yields_starExpressions sound) fun _ first => .skip fun _ => .ite ?_
    (.skip fun op => ?_)
  · refine .skip fun _ => .bind sound.expression fun _ hint => .skip fun _ => ?_
    refine .ite (.bind (yields_assigned sound).given fun _ value => ?_)
      (.bind (.absent Expr.Shaped) fun _ value => ?_)
    all_goals
      refine .bind .since fun _ place => .pure (.simple place trivial rfl ?_)
      exact forall_mem_cons.mpr ⟨first, forall_mem_cons.mpr ⟨hint, value⟩⟩
  cases op with
  | some op =>
    refine .skip fun _ => .bind (yields_assigned sound) fun _ value => .bind .since
      fun _ place => .pure (.simple place trivial rfl ?_)
    exact forall_mem_pair first value
  | none =>
    refine .bind (yields_assigned sound).andThen.many fun more all => ?_
    split
    · exact .bind .since fun _ place => .pure
        (.simple place trivial rfl (forall_mem_singleton.mpr first))
    · rename_i value ends
      refine .skip fun _ => .bind .since fun _ place => .pure
        (.simple place trivial rfl (forall_mem_append.mpr ⟨?_, ?_⟩))
      · exact forall_mem_cons.mpr ⟨first, fun e member => all e (dropLast_subset _ member)⟩
      · exact forall_mem_singleton.mpr (all value (mem_of_getLast? ends))

theorem yields_returning : Yields b.returning Stmt.Sound :=
  .skip fun _ => .skip fun _ => .bind (yields_starExpressions sound).maybe
      fun _ value => .bind .since fun _ place =>
    .pure (.simple place trivial rfl value)

theorem yields_raising : Yields b.raising Stmt.Sound := by
  refine .skip fun _ => .skip fun _ => .bind sound.expression.maybe fun exception raised => ?_
  cases exception with
  | none => exact .bind .since fun _ place => .pure (.simple place trivial rfl (forall_mem_nil _))
  | some exception =>
    refine .skip fun _ => .ite (.bind sound.expression.given fun _ cause => ?_) (.bind
        (.absent Expr.Shaped) fun _ cause => ?_)
    all_goals exact .bind .since fun _ place => .pure (.simple place trivial rfl
        (forall_mem_append.mpr ⟨raised, cause⟩))

theorem yields_deletion : Yields b.deletion Stmt.Sound :=
  .skip fun _ => .skip fun _ => .bind sound.primary.listed fun _ targets => .skip
      fun _ => .bind .since fun _ place =>
    .pure (.simple place trivial rfl targets)

theorem yields_assertion : Yields b.assertion Stmt.Sound := by
  refine .skip fun _ => .skip fun _ => .bind sound.expression fun _ test => .skip fun _ => ?_
  refine .ite (.bind sound.expression.given fun _ message => ?_) (.bind (.absent Expr.Shaped)
      fun _ message => ?_)
  all_goals exact .bind .since fun _ place => .pure (.simple place trivial rfl
      (forall_mem_cons.mpr ⟨test, message⟩))

theorem yields_yieldStatement : Yields b.yielding Stmt.Sound :=
  .skip fun _ => .bind (yields_yielding sound) fun _ value => .bind .since fun _ place =>
    .pure (.simple place trivial rfl (forall_mem_singleton.mpr value))

omit sound in
/-- A statement without expressions. -/
theorem sound_bare {s : Stmt} (place : s.loc.firstLine ≤ s.loc.lastLine) (own : s.WellMade)
    (none : s.inner = []) (bare : s.parts = []) : s.Sound :=
  .simple place own none (bare ▸ forall_mem_nil _)

theorem yields_simple : Yields b.simple Stmt.Sound := by
  refine .orElse (yields_assignment sound)
    (.orElse (yields_returning sound) (.orElse ?_ (.orElse ?_ ?_)))
  · exact .skip fun _ => .skip fun _ => .skip fun _ => .bind .since
      fun _ place => .pure (sound_bare place trivial rfl rfl)
  · refine .skip fun _ => .skip fun _ => .skip fun _ => .ite ?_ ?_
    all_goals
      exact .skip fun _ => .skip fun _ => .skip fun _ => .bind .since
        fun _ place => .pure (sound_bare place trivial rfl rfl)
  refine .orElse (yields_raising sound) (.orElse ?_ (.orElse (yields_deletion sound) ?_))
  · exact .skip fun _ => .skip fun _ => .bind .since
      fun _ place => .pure (sound_bare place trivial rfl rfl)
  refine .orElse (yields_yieldStatement sound)
    (.orElse (yields_assertion sound) (.orElse ?_ (.orElse ?_ (.orElse ?_ ?_))))
  · exact .skip fun _ => .skip fun _ => .bind .since
      fun _ place => .pure (sound_bare place trivial rfl rfl)
  · exact .skip fun _ => .skip fun _ => .bind .since
      fun _ place => .pure (sound_bare place trivial rfl rfl)
  · exact .skip fun _ => .skip fun _ => .skip fun _ => .bind .since
      fun _ place => .pure (sound_bare place trivial rfl rfl)
  · exact .skip fun _ => .skip fun _ => .skip fun _ => .bind .since
      fun _ place => .pure (sound_bare place trivial rfl rfl)

theorem yields_simpleLine : Yields b.simpleLine fun body => ∀ s ∈ body, s.Sound :=
  .bind (yields_simple sound) fun _ first => .bind (yields_simple sound).andThen.many
      fun _ rest => .skip fun _ =>
    .skip fun _ => .pure (forall_mem_cons.mpr ⟨first, rest⟩)

end Simple

section Compound

variable (sound : b.Sound)

include sound

theorem yields_body : Yields b.body fun body => ∀ s ∈ body, s.Sound :=
  sound.block.andThen

theorem yields_orElse : Yields b.orElse fun body => ∀ s ∈ body, s.Sound :=
  .skip fun _ => .ite (yields_body sound) (.pure (forall_mem_nil _))

/-- A condition and a body. -/
def ShapedGuard (found : Position × Expr × List Stmt) : Prop :=
  found.2.1.Shaped ∧ ∀ s ∈ found.2.2, s.Sound

theorem yields_guarded (word : String) : Yields (b.guarded word) ShapedGuard :=
  .skip fun _ => .skip fun _ => .bind (yields_namedExpression sound.expressions) fun _ test =>
    .bind (yields_body sound) fun _ body => .pure ⟨test, body⟩

omit sound in
theorem sound_branch {loc : Location} (place : loc.firstLine ≤ loc.lastLine) {start : Position}
    {test : Expr} {body orelse : List Stmt} (guard : ShapedGuard (start, test, body))
    (rest : ∀ s ∈ orelse, s.Sound) : (Stmt.branch loc test body orelse).Sound :=
  .mk place trivial (forall_mem_singleton.mpr guard.1) (forall_mem_append.mpr ⟨guard.2, rest⟩)

theorem yields_branch : Yields b.branch Stmt.Sound := by
  refine .bind (yields_guarded sound "if") fun (_, _, _) own => .bind
    (yields_guarded sound "elif").many fun branches all => ?_
  refine .bind (yields_orElse sound) fun last ends => .bind (Q :=
      fun orelse => ∀ s ∈ orelse, s.Sound) ?_ fun _ rest =>
    .bind .since fun _ place => .pure (sound_branch place own rest)
  induction branches with
  | nil => exact .pure ends
  | cons found branches ih =>
    obtain ⟨guard, others⟩ := forall_mem_cons.mp all
    rw [foldrM_cons]
    exact .bind (ih others) fun _ rest => .bind .since fun _ place => .pure
      (forall_mem_singleton.mpr (sound_branch place guard rest))

theorem yields_whileLoop : Yields b.whileLoop Stmt.Sound :=
  .bind (yields_guarded sound "while") fun (_, _, _) own => .bind (yields_orElse sound)
      fun _ rest => .bind .since fun _ place =>
    .pure (.mk place trivial (forall_mem_singleton.mpr own.1) (forall_mem_append.mpr ⟨own.2, rest⟩))

theorem yields_forLoop (start : Position) (isAsync : Bool) :
    Yields (b.forLoop start isAsync) Stmt.Sound := by
  refine .skip fun _ => .bind (yields_targets sound.expressions) fun _ target => .skip fun _ => ?_
  refine .bind (yields_starExpressions sound.expressions) fun _ iter => .bind (yields_body sound)
    fun _ body => ?_
  refine .bind (yields_orElse sound) fun _ rest => .bind .since fun _ place => .pure ?_
  exact .mk place trivial (forall_mem_pair target iter) (forall_mem_append.mpr ⟨body, rest⟩)

/-- The expressions of a context. -/
def itemParts (i : WithItem Expr) : List Expr :=
  i.context :: i.target.toList

theorem yields_contextItem : Yields b.contextItem fun i => ∀ e ∈ itemParts i, e.Shaped := by
  refine .bind sound.expressions.expression fun _ context => .bind (.maybe (P := Expr.Shaped) ?_)
    fun _ target => .pure ?_
  · exact .skip fun _ => .bind (yields_target sound.expressions) fun _ own => .skip fun _ => .skip
      fun _ => .pure own
  · exact forall_mem_cons.mpr ⟨context, target⟩

theorem yields_contextItems : Yields b.contextItems fun items => ∀ i ∈ items, ∀ e ∈ itemParts i,
    e.Shaped :=
  .orElse (.before (.before (.andThen (yields_contextItem sound).listed)))
    (.before (yields_contextItem sound).separated)

theorem yields_context (start : Position) (isAsync : Bool) :
    Yields (b.context start isAsync) Stmt.Sound :=
  .skip fun _ => .bind (yields_contextItems sound) fun _ items => .bind sound.block
      fun _ body => .bind .since fun _ place =>
    .pure (.mk place trivial (forall_mem_flatMap items) body)

/-- An `except` clause whose parts are shaped. -/
def ShapedHandler (h : ExceptClause Expr Stmt) : Prop :=
  (∀ e ∈ h.type.toList, e.Shaped) ∧ ∀ s ∈ h.body, s.Sound

theorem yields_handler (group : Bool) : Yields (b.handler group) ShapedHandler := by
  have caught := sound.expressions.expression
  have after : ∀ (start : Position) (type : Option Expr), (∀ e ∈ type.toList, e.Shaped) → Yields (do
      let bound ← if type.isSome then (if ← Rule.hasKeyword "as" then some <$> Rule.name
        else pure none) else pure none
      let body ← b.body
      return ⟨← Rule.since start, type, bound, body⟩) ShapedHandler := by
    intro start type shaped
    have ends : ∀ bound : Option String, Yields (do
        let body ← b.body
        return ⟨← Rule.since start, type, bound, body⟩) ShapedHandler :=
      fun bound => .bind (yields_body sound) fun _ body => .skip fun _ => .pure ⟨shaped, body⟩
    exact .ite (.skip fun _ => .skip ends) (.skip ends)
  refine .skip fun start => .skip fun _ => ?_
  cases group
  · exact .bind caught.maybe (after start)
  · exact .skip fun _ => .bind caught.given (after start)

theorem yields_finally : Yields b.finally? fun body => ∀ s ∈ body, s.Sound :=
  .skip fun _ => .ite (yields_body sound) (.pure (forall_mem_nil _))

theorem yields_attempt : Yields b.attempt Stmt.Sound := by
  refine .skip fun _ => .skip fun _ => .bind (yields_body sound) fun _ body => .skip fun _ => ?_
  refine .bind (yields_handler sound _).many fun handlers caught => ?_
  have none : ∀ s ∈ ([] : List Stmt), s.Sound := forall_mem_nil _
  refine .ite (.bind (Q := fun rest => ∀ s ∈ rest, s.Sound) (.pure none) fun _ rest => ?_)
    (.bind (yields_orElse sound) fun _ rest => ?_)
  all_goals
    refine .bind (yields_finally sound) fun _ final => .skip fun _ => .bind .since
      fun _ place => .pure (.mk place trivial ?_ ?_)
    · exact forall_mem_flatMap fun h member => (caught h member).1
    · refine forall_mem_append.mpr
        ⟨forall_mem_append.mpr ⟨forall_mem_append.mpr ⟨body, ?_⟩, rest⟩, final⟩
      exact forall_mem_flatMap fun h member => (caught h member).2

theorem yields_function (start : Position) (isAsync : Bool) {decorators : List Expr}
    (all : ∀ e ∈ decorators, e.Shaped) :
    Yields (b.function start isAsync decorators) Stmt.Sound := by
  refine .skip fun _ => .skip fun _ => .skip fun _ => .bind
    (yields_parameters sound.expressions true) fun _ ⟨aligned, given⟩ => ?_
  refine .skip fun _ => .skip fun _ => ?_
  refine .ite (.bind sound.expressions.expression.given fun _ returns => ?_)
    (.bind (.absent Expr.Shaped) fun _ returns => ?_)
  all_goals
    refine .bind (yields_body sound) fun _ body => .bind .since fun _ place => .pure
      (.mk place aligned ?_ body)
    exact forall_mem_append.mpr ⟨forall_mem_append.mpr ⟨all, given⟩, returns⟩

theorem yields_class {decorators : List Expr} (all : ∀ e ∈ decorators, e.Shaped) :
    Yields (b.class? decorators) Stmt.Sound := by
  refine .skip fun _ => .skip fun _ => .skip fun _ => .skip fun _ => ?_
  have none : ∀ a ∈ ([] : List Argument), a.value.Shaped := forall_mem_nil _
  refine .ite (.bind (yields_arguments sound.expressions) fun _ arguments => ?_)
    (.bind (Q := fun found => ∀ a ∈ found, a.value.Shaped) (.pure none) fun _ arguments => ?_)
  all_goals
    refine .bind (yields_body sound) fun _ body => .bind .since fun _ place => .pure
      (.mk place trivial ?_ body)
    rw [Stmt.parts, append_assoc]
    exact forall_mem_append.mpr ⟨all, shaped_arguments arguments⟩

theorem yields_definition : Yields b.definition Stmt.Sound := by
  have decorator : Yields b.decorator Expr.Shaped :=
    .before (.andThen (yields_namedExpression sound.expressions))
  refine .bind decorator.many fun _ all => .orElse (yields_class sound all) ?_
  exact .skip fun _ => .skip fun _ => yields_function sound _ _ all

theorem yields_asyncable : Yields b.asyncable Stmt.Sound :=
  .skip fun _ => .skip fun _ => .orElse (yields_forLoop sound _ _) (yields_context sound _ _)

omit sound in
theorem yields_matching : Yields b.matching Stmt.Sound := by
  refine .skip fun _ => .skip fun _ => .skip fun _ => .skip fun _ => .ite (.skip fun _ => ?_)
      (.skip fun _ => ?_)
  all_goals
    refine .skip fun _ => .skip fun _ => .skip fun _ => .skip fun _ => .skip fun _ => .bind .since
      fun _ place => .pure ?_
    exact sound_bare place trivial rfl rfl

theorem yields_compound : Yields b.compound Stmt.Sound :=
  .orElse (yields_definition sound) (.orElse (yields_branch sound) (.orElse (yields_asyncable sound)
    (.orElse (yields_attempt sound) (.orElse (yields_whileLoop sound) yields_matching))))

theorem yields_statement : Yields b.statement fun body => ∀ s ∈ body, s.Sound :=
  .orElse (.bind (yields_compound sound) fun _ own => .pure (forall_mem_singleton.mpr own))
    (yields_simpleLine sound.expressions)

omit sound in
theorem sound_flatten {bodies : List (List Stmt)} (all : ∀ body ∈ bodies, ∀ s ∈ body, s.Sound) :
    ∀ s ∈ bodies.flatten, s.Sound := by
  intro s member
  obtain ⟨body, among, own⟩ := mem_flatten.mp member
  exact all body among s own

theorem yields_blockRule : Yields b.blockRule fun body => ∀ s ∈ body, s.Sound := by
  refine .orElse (.skip fun _ => .skip fun _ => .bind ?_ fun _ all => .skip fun _ => .pure all)
    (yields_simpleLine sound.expressions)
  exact .bind (yields_statement sound).many1 fun _ found => .pure (sound_flatten found.2)

theorem yields_module : Yields b.module fun m => ∀ s ∈ m.body, s.Sound :=
  .bind (yields_statement sound).many fun _ all => .skip fun _ => .pure (sound_flatten all)

end Compound

theorem sound_upTo {expressions : Nested} (patterns : Patterns) (sound : expressions.Sound)
    (depth : Nat) : (upTo expressions patterns depth).Sound := by
  induction depth with
  | zero => exact ⟨sound, .fail⟩
  | succ depth ih => exact ⟨sound, yields_blockRule ih⟩

end Blocks

/-- The statements of a text that is read as a module are sound. -/
theorem sound_parse {text : String} {m : Module} (parses : Module.parse text = .ok m) :
    ∀ s ∈ m.body, s.Sound := by
  rw [Module.parse] at parses
  split at parses
  · exact nomatch parses
  split at parses
  · exact nomatch parses
  · rename_i found reads
    cases parses
    obtain ⟨⟨_, rest⟩, read, rfl⟩ := Option.map_eq_some_iff.mp reads
    exact Blocks.yields_module (Blocks.sound_upTo _ (Nested.sound_upTo _) _) _ _ rest read

end Lineage.Grammar
