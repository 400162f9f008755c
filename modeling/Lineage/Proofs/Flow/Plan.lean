import Lineage.Proofs.Flow.Place
import Lineage.Proofs.Flow.Work

/-!
The analysis of any block as a plan. A plan is read off the statements alone, whatever is known of
calls: it tells which statements are entered and left, what compound statements do at their heads,
and how states are handed on from part to part. Every visit carries out the plan of what it visits,
so what is to be shown of all analyses, or of two analyses of the same block, is shown by induction
on plans.
-/

namespace Lineage.Flow

open List

variable {elifs : List (Elif Node)} {handlers : List (Handler Node)} {code : List Node}
  {header loc : Location} {i k : Nat} {m : Node} {orelse : Option (Clause Node)}

namespace State

theorem join_append_pair (states : List State) (a b : State) :
    join (states ++ [a, b]) = join (states ++ [a.merge b]) := by
  induction states with
  | nil => exact (join_singleton _).symm
  | cons s rest ih => rw [cons_append, cons_append, join_cons (by simp), join_cons (by simp), ih]

end State

/-- What the analysis of statements does, whatever is known of calls. A part may `stop` at some
states without being broken off there. -/
inductive Plan where
  | skip
  | stop
  /-- A compound statement does something at its head. -/
  | acts (i : Nat) (actions : List Action)
  /-- A statement without blocks. -/
  | flat (parent : Option Nat) (i : Nat) (n : Node)
  /-- A compound statement that is no loop. -/
  | compound (parent : Option Nat) (i : Nat) (n : Node) (inner : Plan)
  /-- A loop: what it does in front, what it does whenever it comes round, its body and its `else`
  clause. -/
  | cycle (parent : Option Nat) (i : Nat) (n : Node) (before again : List Action)
      (body orelse : Plan)
  | seq (first second : Plan)
  /-- Goes on behind the body, and also rescues from any state in which the body has stopped. -/
  | protect (body rescue after : Plan)

namespace Plan

mutual

/-- Carries out a plan. -/
@[simp]
def run (env : Env) : Plan → Progress → Progress
  | skip, p => p
  | stop, p => p
  | acts i actions, p => p.acts env i actions
  | flat parent i n, p => ((p.enter parent i n).perform env i n).leave i n p.state
  | compound parent i n inner, p => (inner.run env (p.enter parent i n)).leave i n p.state
  | cycle parent i n before again body orelse, p =>
    (((p.enter parent i n).acts env i before).loop env i
      (fun q => body.run env (q.acts env i again)) (fun q => orelse.run env q)).leave i n p.state
  | seq first second, p => second.run env (first.run env p)
  | protect body rescue after, p =>
    let q := body.run env p
    let r := rescue.run env (q.resume (State.join (p.state :: body.stops env p)))
    let t := after.run env (r.resume q.state)
    t.resume (t.state.merge r.state)

/-- The states in which a plan stops. -/
def stops (env : Env) : Plan → Progress → List State
  | stop, p => [p.state]
  | seq first second, p => first.stops env p ++ second.stops env (first.run env p)
  | protect body _ _, p => body.stops env p
  | _, _ => []

end

/-- Goes two ways from the same state. -/
abbrev fork (left right : Plan) : Plan :=
  protect skip left right

theorem resume_skip (env : Env) (p : Progress) :
    (skip.run env p).resume (State.join (p.state :: skip.stops env p)) = p :=
  congrArg p.resume (State.join_singleton p.state)

theorem run_fork (env : Env) (left right : Plan) (p : Progress) : (fork left right).run env p =
    (right.run env ((left.run env p).resume p.state)).resume
      ((left.run env p).state.merge (right.run env ((left.run env p).resume p.state)).state) := by
  rw [run, resume_skip, State.merge_comm]
  rfl

/-- Goes on behind a body, and rescues from where it has stopped unless there is nothing to rescue
with. -/
def tried (bare : Bool) (body rescue after : Plan) : Plan :=
  if bare then seq body after else protect body rescue after

/-- Goes on behind a part, from wherever it has stopped if that is so. -/
def finished (always : Bool) (whole : Plan) : Plan :=
  if always then protect whole skip skip else whole

end Plan

mutual

/-- The plan of a statement with an index, in a block of the statement `parent`. -/
def nodePlan (parent : Option Nat) (i : Nat) : Node → Plan
  | n@(.branch _ _ test code elifs orelse) =>
    let next := i + 1 + blockExtent code
    let last := clausePlan i (next + (Node.elifStatements elifs).length) orelse
    .compound parent i n (.seq (.acts i [.evaluate [test]])
      (.fork (blockPlan (some i) (i + 1) code) (elifPlan i next last elifs)))
  | n@(.whileLoop _ _ test code orelse) =>
    .cycle parent i n [.evaluate [test]] [.evaluate [test]] (blockPlan (some i) (i + 1) code)
      (clausePlan i (i + 1 + blockExtent code) orelse)
  | n@(.forLoop _ _ target iter code orelse _) =>
    .cycle parent i n [.evaluate [iter]] (targetActions .loopTarget target)
      (blockPlan (some i) (i + 1) code) (clausePlan i (i + 1 + blockExtent code) orelse)
  | n@(.attempt _ _ code handlers orelse final) =>
    let next := i + 1 + blockExtent code
    let after := next + (Node.handlerStatements handlers).length
    let whole := .tried handlers.isEmpty (eachPlan (some i) (i + 1) code)
      (handlerPlan i next handlers) (clausePlan i after orelse)
    .compound parent i n
      (.seq (.finished final.isSome whole)
        (clausePlan i (after + (Node.clauseStatements orelse).length) final))
  | n@(.context _ _ items code _) =>
    .compound parent i n (.seq (.acts i (contextActions items)) (blockPlan (some i) (i + 1) code))
  | n => .flat parent i n

/-- The plan of a block. -/
def blockPlan (parent : Option Nat) (i : Nat) : List Node → Plan
  | [] => .skip
  | n :: rest => .seq (nodePlan parent i n) (blockPlan parent (i + n.extent) rest)

/-- The plan of a block that stops behind each statement. -/
def eachPlan (parent : Option Nat) (i : Nat) : List Node → Plan
  | [] => .skip
  | n :: rest => .seq (nodePlan parent i n) (.seq .stop (eachPlan parent (i + n.extent) rest))

/-- The plan of an optional clause. -/
def clausePlan (parent i : Nat) : Option (Clause Node) → Plan
  | none => .skip
  | some ⟨_, body⟩ => blockPlan (some parent) i body

/-- The plan of `elif` clauses, with that of the last clause. -/
def elifPlan (parent i : Nat) (last : Plan) : List (Elif Node) → Plan
  | [] => last
  | ⟨_, test, body⟩ :: rest =>
    .seq (.acts parent [.evaluate [test]])
      (.fork (blockPlan (some parent) i body) (elifPlan parent (i + blockExtent body) last rest))

/-- The plan of `except` clauses. -/
def handlerPlan (parent i : Nat) : List (Handler Node) → Plan
  | [] => .skip
  | ⟨header, body, type, name⟩ :: rest =>
    let own := Plan.seq (.acts parent (catchActions header type name))
      (blockPlan (some parent) i body)
    if rest.isEmpty then own else .fork own (handlerPlan parent (i + blockExtent body) rest)

end

attribute [local simp] nodePlan

theorem nodePlan_flat {n : Node} (flat : n.kind.isCompound = false) (parent : Option Nat)
    (i : Nat) : nodePlan parent i n = .flat parent i n := by
  cases n
  case branch => nomatch flat
  case whileLoop => nomatch flat
  case forLoop => nomatch flat
  case attempt => nomatch flat
  case context => nomatch flat
  all_goals simp only [nodePlan]

/-- What plans of statements look like. -/
theorem nodePlan_cases (parent : Option Nat) (i : Nat) (n : Node) :
    (n.kind.isCompound = false ∧ nodePlan parent i n = .flat parent i n) ∨
      (∃ inner, nodePlan parent i n = .compound parent i n inner) ∨
      ∃ before again body orelse, nodePlan parent i n = .cycle parent i n before again body
      orelse := by
  cases n
  case branch | attempt | context => exact Or.inr (Or.inl ⟨_, rfl⟩)
  case whileLoop | forLoop => exact Or.inr (Or.inr ⟨_, _, _, _, rfl⟩)
  all_goals exact Or.inl ⟨rfl, rfl⟩

/-- Statements stop nowhere by themselves. -/
theorem stops_nodePlan (env : Env) (parent : Option Nat) (i : Nat) (n : Node) (p : Progress) :
    (nodePlan parent i n).stops env p = [] := by
  cases n <;> simp only [nodePlan, Plan.stops]

theorem stops_blockPlan (env : Env) (parent : Option Nat) (i : Nat) (code : List Node)
    (p : Progress) : (blockPlan parent i code).stops env p = [] := by
  induction code generalizing i p with
  | nil => simp only [blockPlan, Plan.stops]
  | cons n rest ih => rw [blockPlan, Plan.stops, stops_nodePlan, ih, append_nil]

theorem stops_clausePlan (env : Env) (k i : Nat) (clause : Option (Clause Node)) (p : Progress) :
    (clausePlan k i clause).stops env p = [] := by
  cases clause with
  | none => simp only [clausePlan, Plan.stops]
  | some c =>
    rw [clausePlan]
    exact stops_blockPlan env (some k) i c.body p

section Carrying

variable {env : Env}

/-- A visit of the statement carries out its plan. -/
def Planned (env : Env) (n : Node) : Prop :=
  ∀ parent i p, visit env parent i n p = (nodePlan parent i n).run env p

theorem visitBlock_eq_run (planned : ∀ c ∈ code, Planned env c) (parent : Option Nat) (i : Nat)
    (p : Progress) : visitBlock env parent i code p = (blockPlan parent i code).run env p := by
  induction code generalizing i p with
  | nil => rw [visitBlock, blockPlan, Plan.run]
  | cons n rest ih =>
    obtain ⟨own, others⟩ := forall_mem_cons.mp planned
    rw [visitBlock, blockPlan, Plan.run, own, ih others]

theorem visitEach_eq_run (planned : ∀ c ∈ code, Planned env c) (parent : Option Nat) (i : Nat)
    (p : Progress) (between : List State) : visitEach env parent i code p between =
      ((eachPlan parent i code).run env p, between ++ (eachPlan parent i code).stops env p) := by
  induction code generalizing i p between with
  | nil => simp only [visitEach, eachPlan, Plan.run, Plan.stops, append_nil]
  | cons n rest ih =>
    obtain ⟨own, others⟩ := forall_mem_cons.mp planned
    rw [visitEach, own, ih others, eachPlan]
    simp only [Plan.run, Plan.stops, stops_nodePlan, nil_append, append_assoc]

theorem visitClause_eq_run {clause : Option (Clause Node)}
    (planned : ∀ c ∈ Clause.statements clause, Planned env c) (k i : Nat) (p : Progress) :
    visitClause env k i clause p = (clausePlan k i clause).run env p := by
  cases clause with
  | none => rw [visitClause, clausePlan, Plan.run]
  | some c =>
    rw [visitClause, clausePlan]
    exact visitBlock_eq_run planned (some k) i p

/-- The clauses behind `elif` are visited one after the other and their ends are joined with those
before. -/
theorem visitElifs_eq_run (planned : ∀ e ∈ elifs, ∀ c ∈ e.body, Planned env c) (last : Plan)
    (k i : Nat) (p : Progress) (exits : List State) :
    (last.run env (visitElifs env k i elifs p exits).1).resume
        (State.join ((visitElifs env k i elifs p exits).2 ++
          [(last.run env (visitElifs env k i elifs p exits).1).state])) =
      ((elifPlan k i last elifs).run env p).resume
        (State.join (exits ++ [((elifPlan k i last elifs).run env p).state])) := by
  induction elifs generalizing i p exits with
  | nil => rw [elifPlan, visitElifs]
  | cons e rest ih =>
    obtain ⟨own, others⟩ := forall_mem_cons.mp planned
    rw [elifPlan, visitElifs, visitBlock_eq_run own]
    refine (ih others _ _ _).trans ?_
    rw [append_assoc, singleton_append, State.join_append_pair, Plan.run, Plan.run_fork, Plan.run]
    rfl

theorem visitHandlers_eq_run (planned : ∀ h ∈ handlers, ∀ c ∈ h.body, Planned env c) (k i : Nat)
    (raised : State) (p : Progress) (exits : List State) (some : handlers ≠ []) :
      ∃ found, found ≠ [] ∧ (visitHandlers env k i raised handlers p exits).2 = exits ++ found ∧
      (visitHandlers env k i raised handlers p exits).1.resume (State.join found) =
        (handlerPlan k i handlers).run env (p.resume raised) := by
  induction handlers generalizing i p exits with
  | nil => exact absurd rfl some
  | cons h rest ih =>
    obtain ⟨own, others⟩ := forall_mem_cons.mp planned
    have same : visitBlock env (Option.some k) i h.body
        ((p.resume raised).catchError env k h.header h.type h.name) =
          (Plan.seq (.acts k (catchActions h.header h.type h.name))
            (blockPlan (Option.some k) i h.body)).run env (p.resume raised) := by
      rw [Plan.run, Plan.run, Progress.catchError_eq_acts]
      exact visitBlock_eq_run own _ _ _
    rw [handlerPlan, visitHandlers, same]
    generalize Plan.seq (.acts k (catchActions h.header h.type h.name))
      (blockPlan (Option.some k) i h.body) = first
    cases rest with
    | nil =>
      refine ⟨[(first.run env (p.resume raised)).state], cons_ne_nil _ _, ?_, ?_⟩
      · rw [visitHandlers]
      · rw [visitHandlers, State.join_singleton]
        rfl
    | cons other rest =>
      obtain ⟨found, some, exitsRest, sameRest⟩ :=
        ih others (i + blockExtent h.body) (first.run env (p.resume raised))
        (exits ++ [(first.run env (p.resume raised)).state]) (cons_ne_nil _ _)
      refine ⟨(first.run env (p.resume raised)).state :: found, cons_ne_nil _ _, ?_, ?_⟩
      · rw [exitsRest, append_assoc, singleton_append]
      · have back : (p.resume raised).state = raised := rfl
        rw [State.join_cons some, isEmpty_cons, if_neg Bool.false_ne_true, Plan.run_fork]
        simp only [back, ← sameRest]
        rfl

section

variable (body : ∀ c ∈ code, Planned env c)

include body

theorem planned_branch {test : Node}
    (others : ∀ e ∈ elifs, ∀ c ∈ e.body, Planned env c)
    (last : ∀ c ∈ Clause.statements orelse, Planned env c) :
    Planned env (.branch loc header test code elifs orelse) := by
  intro parent i p
  rw [visit, nodePlan, Plan.run]
  dsimp only
  rw [visitBlock_eq_run body, visitClause_eq_run last]
  refine congrArg (Progress.leave i _ _) ?_
  rw [visitElifs_eq_run others, Plan.run, Plan.run_fork, Plan.run]
  rfl

theorem planned_while {test : Node}
    (last : ∀ c ∈ Clause.statements orelse, Planned env c) :
    Planned env (.whileLoop loc header test code orelse) := by
  intro parent i p
  rw [visit, nodePlan, Plan.run]
  simp only [visitBlock_eq_run body, visitClause_eq_run last]
  rfl

theorem planned_for {target iter : Node} {isAsync : Bool}
    (last : ∀ c ∈ Clause.statements orelse, Planned env c) :
    Planned env (.forLoop loc header target iter code orelse isAsync) := by
  intro parent i p
  rw [visit, nodePlan, Plan.run]
  simp only [visitBlock_eq_run body, visitClause_eq_run last, Progress.bind_eq_acts]
  rfl

theorem planned_context {items : List (WithItem Node)} {isAsync : Bool} :
    Planned env (.context loc header items code isAsync) := by
  intro parent i p
  rw [visit, nodePlan, Plan.run, Plan.run, Plan.run]
  simp only [visitBlock_eq_run body, Progress.enterContexts_eq_acts]

/-- A body, the clauses that rescue from it and the clause behind it. -/
theorem tried_eq_run (others : ∀ h ∈ handlers, ∀ c ∈ h.body, Planned env c)
    (last : ∀ c ∈ Clause.statements orelse, Planned env c) (k i j l : Nat) (p : Progress) :
    let tried := visitEach env (some k) i code p [p.state]
    let handled := visitHandlers env k j (State.join tried.2) handlers tried.1 []
    let ended := visitClause env k l orelse (handled.1.resume tried.1.state)
    ended.resume (State.join (ended.state :: handled.2)) =
      (Plan.tried handlers.isEmpty (eachPlan (some k) i code) (handlerPlan k j handlers)
        (clausePlan k l orelse)).run env p := by
  rw [visitEach_eq_run body, singleton_append]
  dsimp only
  cases handlers with
  | nil =>
    rw [visitHandlers, visitClause_eq_run last, Plan.tried, isEmpty_nil, if_pos rfl, Plan.run]
    exact congrArg (Progress.resume _) (State.join_singleton _)
  | cons h rest =>
    obtain ⟨found, some, exits, same⟩ := visitHandlers_eq_run others k j
      (State.join (p.state :: (eachPlan (some k) i code).stops env p))
      ((eachPlan (some k) i code).run env p) [] (cons_ne_nil h rest)
    rw [nil_append] at exits
    rw [visitClause_eq_run last, exits, State.join_cons some, Plan.tried, isEmpty_cons,
      if_neg Bool.false_ne_true, Plan.run, ← same]
    rfl

end

theorem stops_tried (bare : Bool) (body rescue : Plan) (k l : Nat) (orelse : Option (Clause Node))
    (p : Progress) : (Plan.tried bare body rescue (clausePlan k l orelse)).stops env p =
    body.stops env p := by
  unfold Plan.tried
  split
  · rw [Plan.stops, stops_clausePlan, append_nil]
  · rw [Plan.stops]

theorem planned_attempt {final : Option (Clause Node)} (body : ∀ c ∈ code, Planned env c)
    (others : ∀ h ∈ handlers, ∀ c ∈ h.body, Planned env c)
    (last : ∀ c ∈ Clause.statements orelse, Planned env c)
    (ends : ∀ c ∈ Clause.statements final, Planned env c) :
    Planned env (.attempt loc header code handlers orelse final) := by
  intro parent i p
  have same := tried_eq_run body others last i (i + 1) (i + 1 + blockExtent code)
    (i + 1 + blockExtent code + (Node.handlerStatements handlers).length)
    (p.enter parent i (.attempt loc header code handlers orelse final))
  rw [visit, nodePlan, Plan.run, Plan.run, ← visitClause_eq_run ends]
  refine congrArg (Progress.leave i _ _) (congrArg (visitClause env i _ final) ?_)
  rw [Plan.finished]
  split
  · rw [Plan.run, stops_tried, ← same, visitEach_eq_run body]
    rfl
  · exact same

/-- Every visit carries out a plan. -/
theorem planned (n : Node) : Planned env n := by
  induction n using Node.clause_induction with
  | step n inside =>
    cases n
    case branch =>
      obtain ⟨body, others, last⟩ := Node.forall_clauseBlocks_branch.mp inside
      exact planned_branch body others last
    case whileLoop =>
      obtain ⟨body, last⟩ := Node.forall_clauseBlocks_while.mp inside
      exact planned_while body last
    case forLoop =>
      obtain ⟨body, last⟩ := Node.forall_clauseBlocks_for.mp inside
      exact planned_for body last
    case attempt =>
      obtain ⟨body, others, last, ends⟩ := Node.forall_clauseBlocks_attempt.mp inside
      exact planned_attempt body others last ends
    case context => exact planned_context (Node.forall_clauseBlocks_context.mp inside)
    all_goals
      intro parent i p
      rw [nodePlan_flat rfl, Plan.run, visit_flat env parent i _ p rfl]

/-- A visit of a block carries out its plan. -/
theorem visitBlock_eq_plan (env : Env) (parent : Option Nat) (i : Nat) (code : List Node)
    (p : Progress) : visitBlock env parent i code p = (blockPlan parent i code).run env p :=
  visitBlock_eq_run (fun c _ => planned c) parent i p

end Carrying

/-! ### Where plans stand -/

namespace Plan

/-- The expressions that are evaluated for the statement around. -/
@[simp]
def asks : Plan → List Node
  | acts _ actions => actions.flatMap Action.parts
  | seq first second => first.asks ++ second.asks
  | protect body rescue after => body.asks ++ rescue.asks ++ after.asks
  | _ => []

/-- A plan stands between two indices in the statement `own`: its statements have the indices from
the first on, in order, and have the property `good`; what is done for the statement around has the
property `fine`. -/
inductive Lies (good : Option Nat → Nat → Node → Prop) (fine : Action → Prop) :
    Option Nat → Nat → Nat → Plan → Prop where
  | skip {own : Option Nat} {a : Nat} : Lies good fine own a a .skip
  | stop {own : Option Nat} {a : Nat} : Lies good fine own a a .stop
  | acts {i a : Nat} {actions : List Action} : i < a → (∀ action ∈ actions, fine action) →
      Lies good fine (some i) a a (.acts i actions)
  | flat {own parent : Option Nat} {i : Nat} {n : Node} : n.kind.isCompound = false → n.extent = 1 →
      good parent i n → Lies good fine own i (i + 1) (.flat parent i n)
  | compound {own parent : Option Nat} {i : Nat} {n : Node} {inner : Plan} : n.kind.isCompound =
      true → good parent i n → nodePlan parent i n = .compound parent i n inner →
      (∀ e, e ∈ inner.asks ↔ e ∈ n.headParts) →
      Lies good fine (some i) (i + 1) (i + n.extent) inner → Lies good fine own i (i + n.extent)
      (.compound parent i n inner)
  | cycle {own parent : Option Nat} {i b : Nat} {n : Node} {before again : List Action}
      {body orelse : Plan} : n.kind.isCompound = true → good parent i n →
      nodePlan parent i n = .cycle parent i n before again body orelse →
      (∀ action ∈ before ++ again, fine action) →
      (∀ e, e ∈ (before ++ again).flatMap Action.parts ↔ e ∈ n.headParts) → body.asks = [] →
      orelse.asks = [] → Lies good fine (some i) (i + 1) b body →
      Lies good fine (some i) b (i + n.extent) orelse → Lies good fine own i (i + n.extent)
      (.cycle parent i n before again body orelse)
  | seq {own : Option Nat} {a b c : Nat} {first second : Plan} : Lies good fine own a b first →
      Lies good fine own b c second → Lies good fine own a c (.seq first second)
  | protect {own : Option Nat} {a b c d : Nat} {body rescue after : Plan} : Lies good fine own a
      b body → Lies good fine own b c rescue → Lies good fine own c d after →
      Lies good fine own a d (.protect body rescue after)

variable {good : Option Nat → Nat → Node → Prop} {fine : Action → Prop} {own : Option Nat}
  {a b c d : Nat}

theorem Lies.le {s : Plan} (lies : s.Lies good fine own a b) : a ≤ b := by
  induction lies with
  | skip => exact Nat.le_refl _
  | stop => exact Nat.le_refl _
  | acts => exact Nat.le_refl _
  | flat => exact Nat.le_succ _
  | compound => exact Nat.le_add_right _ _
  | cycle => exact Nat.le_add_right _ _
  | seq _ _ first second => exact Nat.le_trans first second
  | protect _ _ _ first second third => exact Nat.le_trans first (Nat.le_trans second third)

theorem Lies.imp {s : Plan} (lies : s.Lies good fine own a b)
    {better : Option Nat → Nat → Node → Prop} {finer : Action → Prop}
    (goods : ∀ parent i n, good parent i n → better parent i n)
    (fines : ∀ action, fine action → finer action) : s.Lies better finer own a b := by
  induction lies with
  | skip => exact .skip
  | stop => exact .stop
  | acts below all => exact .acts below fun action member => fines action (all action member)
  | flat simple single here => exact .flat simple single (goods _ _ _ here)
  | compound compound here shape parts _ ih =>
    exact .compound compound (goods _ _ _ here) shape parts ih
  | cycle compound here shape all parts noBody noElse _ _ body orelse =>
    exact .cycle compound (goods _ _ _ here) shape
      (fun action member => fines action (all action member)) parts noBody noElse body orelse
  | seq _ _ first second => exact .seq first second
  | protect _ _ _ first second third => exact .protect first second third

theorem Lies.fork {left right : Plan} (first : left.Lies good fine own a b)
    (second : right.Lies good fine own b c) : (Plan.fork left right).Lies good fine own a c :=
  .protect .skip first second

theorem Lies.tried (bare : Bool) {body rescue after : Plan} (first : body.Lies good fine own a b)
    (second : rescue.Lies good fine own b c) (third : after.Lies good fine own c d)
    (none : bare = true → b = c) : (Plan.tried bare body rescue after).Lies good fine own a d := by
  unfold Plan.tried
  split
  · rename_i nothing
    obtain rfl := none nothing
    exact .seq first third
  · exact .protect first second third

theorem Lies.finished (always : Bool) {whole : Plan} (lies : whole.Lies good fine own a b) :
    (Plan.finished always whole).Lies good fine own a b := by
  unfold Plan.finished
  split
  · exact .protect lies .skip .skip
  · exact lies

theorem asks_tried (bare : Bool) {body rescue after : Plan}
    (none : bare = true → rescue.asks = []) :
    (Plan.tried bare body rescue after).asks = body.asks ++ rescue.asks ++ after.asks := by
  unfold Plan.tried
  split
  · rename_i nothing
    rw [asks, none nothing, append_nil]
  · rw [asks]

theorem asks_finished (always : Bool) (whole : Plan) :
    (Plan.finished always whole).asks = whole.asks := by
  unfold Plan.finished
  split
  · simp only [asks, append_nil]
  · rfl

end Plan

theorem asks_nodePlan (parent : Option Nat) (i : Nat) (n : Node) :
    (nodePlan parent i n).asks = [] := by
  cases n <;> simp only [nodePlan, Plan.asks]

theorem asks_blockPlan (parent : Option Nat) (i : Nat) (code : List Node) :
    (blockPlan parent i code).asks = [] := by
  induction code generalizing i with
  | nil => simp only [blockPlan, Plan.asks]
  | cons n rest ih => rw [blockPlan, Plan.asks, asks_nodePlan, ih, append_nil]

theorem asks_eachPlan (parent : Option Nat) (i : Nat) (code : List Node) :
    (eachPlan parent i code).asks = [] := by
  induction code generalizing i with
  | nil => simp only [eachPlan, Plan.asks]
  | cons n rest ih => simp only [eachPlan, Plan.asks, asks_nodePlan, ih, append_nil]

theorem asks_clausePlan (k i : Nat) (clause : Option (Clause Node)) :
    (clausePlan k i clause).asks = [] := by
  cases clause with
  | none => simp only [clausePlan, Plan.asks]
  | some c =>
    rw [clausePlan]
    exact asks_blockPlan (some k) i c.body

theorem asks_elifPlan (k i : Nat) (last : Plan) (elifs : List (Elif Node)) :
    (elifPlan k i last elifs).asks = elifs.map Elif.test ++ last.asks := by
  induction elifs generalizing i with
  | nil => rw [elifPlan, map_nil, nil_append]
  | cons e rest ih =>
    rw [elifPlan]
    simp only [Plan.asks, asks_blockPlan, ih, flatMap_cons, flatMap_nil, Action.parts, nil_append,
      append_nil, map_cons, cons_append]

theorem asks_handlerPlan (k i : Nat) (handlers : List (Handler Node)) :
    (handlerPlan k i handlers).asks = (handlers.flatMap fun h => catchActions h.header h.type
      h.name).flatMap Action.parts := by
  induction handlers generalizing i with
  | nil => simp only [handlerPlan, Plan.asks, flatMap_nil]
  | cons h rest ih =>
    rw [handlerPlan, flatMap_cons, flatMap_append]
    split
    · rename_i none
      rw [List.isEmpty_iff.mp none]
      simp only [Plan.asks, asks_blockPlan, append_nil, flatMap_nil]
    · simp only [Plan.asks, asks_blockPlan, append_nil, nil_append, ih]

section Lying

variable {good : Option Nat → Nat → Node → Prop} {fine : Action → Prop} {own : Option Nat}
  {around : Option (Nat × Node)}

/-- The statements at the places have the property. -/
def Goods (good : Option Nat → Nat → Node → Prop) (places : List Place) : Prop :=
  ∀ place ∈ places, good (place.parent.map Prod.fst) place.index place.node

/-- The plan of the statement stands at its indices, if the statements there have the property. -/
def Standing (good : Option Nat → Nat → Node → Prop) (fine : Action → Prop) (n : Node) : Prop :=
  ∀ own around i, Goods good (⟨i, around, n⟩ :: innerPlaces i n) →
    (nodePlan (around.map Prod.fst) i n).Lies good fine own i (i + n.extent)

/-- Whatever statement is around stands at some place. -/
theorem exists_around (parent : Option Nat) :
    ∃ around : Option (Nat × Node), parent = around.map Prod.fst :=
  ⟨parent.map (·, default), by cases parent <;> rfl⟩

theorem standing_blockPlan (standing : ∀ c ∈ code, Standing good fine c)
    (all : Goods good (blockPlaces around i code)) :
    (blockPlan (around.map Prod.fst) i code).Lies good fine own i (i + blockExtent code) := by
  induction code generalizing i with
  | nil =>
    rw [blockPlan]
    exact .skip
  | cons n rest ih =>
    obtain ⟨first, others⟩ := forall_mem_cons.mp standing
    obtain ⟨here, later⟩ := forall_mem_append.mp all
    rw [blockPlan, blockExtent_cons, ← Nat.add_assoc]
    exact .seq (first own around i here) (ih others later)

theorem standing_eachPlan (standing : ∀ c ∈ code, Standing good fine c)
    (all : Goods good (blockPlaces around i code)) :
    (eachPlan (around.map Prod.fst) i code).Lies good fine own i (i + blockExtent code) := by
  induction code generalizing i with
  | nil =>
    rw [eachPlan]
    exact .skip
  | cons n rest ih =>
    obtain ⟨first, others⟩ := forall_mem_cons.mp standing
    obtain ⟨here, later⟩ := forall_mem_append.mp all
    rw [eachPlan, blockExtent_cons, ← Nat.add_assoc]
    exact .seq (first own around i here) (.seq .stop (ih others later))

theorem standing_clausePlan {clause : Option (Clause Node)}
    (standing : ∀ c ∈ Clause.statements clause, Standing good fine c)
    (all : Goods good (clausePlaces (k, m) i clause)) :
    (clausePlan k i clause).Lies good fine (some k) i
    (i + (Node.clauseStatements clause).length) := by
  cases clause with
  | none =>
    rw [clausePlan]
    exact .skip
  | some c =>
    rw [clausePlan]
    exact standing_blockPlan standing all

theorem standing_elifPlan (standing : ∀ e ∈ elifs, ∀ c ∈ e.body, Standing good fine c)
    (tests : ∀ e ∈ elifs, fine (.evaluate [e.test])) (below : k < i)
    (all : Goods good (elifPlaces (k, m) i elifs)) {last : Plan} {b : Nat}
    (ends : last.Lies good fine (some k) (i + (Node.elifStatements elifs).length) b) :
    (elifPlan k i last elifs).Lies good fine (some k) i b := by
  induction elifs generalizing i with
  | nil =>
    rw [elifPlan]
    exact ends
  | cons e rest ih =>
    obtain ⟨first, others⟩ := forall_mem_cons.mp standing
    obtain ⟨test, tests⟩ := forall_mem_cons.mp tests
    obtain ⟨here, later⟩ := forall_mem_append.mp all
    rw [Node.elifStatements, length_append, ← Nat.add_assoc] at ends
    rw [elifPlan]
    exact .seq (.acts below (forall_mem_singleton.mpr test))
      (.fork (standing_blockPlan first here)
        (ih others tests (Nat.lt_add_right _ below) later ends))

theorem standing_handlerPlan (standing : ∀ h ∈ handlers, ∀ c ∈ h.body, Standing good fine c)
    (heads : ∀ h ∈ handlers, ∀ action ∈ catchActions h.header h.type h.name, fine action)
    (below : k < i) (all : Goods good (handlerPlaces (k, m) i handlers)) :
    (handlerPlan k i handlers).Lies good fine (some k) i
    (i + (Node.handlerStatements handlers).length) := by
  induction handlers generalizing i with
  | nil =>
    rw [handlerPlan]
    exact .skip
  | cons h rest ih =>
    obtain ⟨first, others⟩ := forall_mem_cons.mp standing
    obtain ⟨head, heads⟩ := forall_mem_cons.mp heads
    obtain ⟨here, later⟩ := forall_mem_append.mp all
    have lies := Plan.Lies.seq (.acts below head) (standing_blockPlan first here)
    rw [handlerPlan, Node.handlerStatements, length_append]
    split
    · rename_i none
      rw [List.isEmpty_iff.mp none, Node.handlerStatements, length_nil, Nat.add_zero]
      exact lies
    · rw [← Nat.add_assoc]
      exact .fork lies (ih others heads (Nat.lt_add_right _ below) later)

/-- The plan of a statement stands at its indices. -/
theorem standing (fits : ∀ parent i n, good parent i n → ∀ action ∈ n.headActions, fine action)
    (n : Node) : n.ModuleFree → Standing good fine n := by
  induction n using Node.clause_induction with
  | step n ih =>
    intro plain own around i all
    have inside : ∀ block ∈ n.clauseBlocks, ∀ c ∈ block.2, Standing good fine c :=
      fun block among c member => ih block among c member (plain.inside among member)
    have statement := plain n (mem_cons_self ..)
    obtain ⟨here, inner⟩ := forall_mem_cons.mp all
    dsimp only at here
    have heads := fits _ i n here
    clear ih plain all
    cases n
    case module => exact absurd rfl statement
    case branch loc header test code elifs orelse =>
      obtain ⟨body, others, last⟩ := Node.forall_clauseBlocks_branch.mp inside
      obtain ⟨test, tests⟩ := forall_mem_cons.mp heads
      obtain ⟨inner, lastAll⟩ := forall_mem_append.mp inner
      obtain ⟨bodyAll, othersAll⟩ := forall_mem_append.mp inner
      rw [nodePlan]
      refine .compound rfl here (by rw [nodePlan]) (fun e => ?_) ?_
      · simp only [Plan.asks, asks_blockPlan, asks_elifPlan, asks_clausePlan, Node.headParts,
          Node.headActions, flatMap_cons, flatMap_nil, flatMap_map, Action.parts, append_nil,
          nil_append, mem_append, mem_flatMap, mem_map, List.mem_singleton]
        simp only [eq_comm]
      · rw [extent_branch]
        simp only [← Nat.add_assoc]
        exact .seq (.acts (Nat.lt_succ_self i) (forall_mem_singleton.mpr test))
          (.fork (standing_blockPlan body bodyAll)
            (standing_elifPlan others (fun e member => tests _ (mem_map_of_mem member))
              (by omega) othersAll (standing_clausePlan last lastAll)))
    case whileLoop loc header test code orelse =>
      obtain ⟨body, last⟩ := Node.forall_clauseBlocks_while.mp inside
      obtain ⟨bodyAll, lastAll⟩ := forall_mem_append.mp inner
      have ends := standing_clausePlan last lastAll
      rw [nodePlan]
      refine .cycle rfl here (by rw [nodePlan]) ?_ (fun e => ?_) (asks_blockPlan _ _ _)
        (asks_clausePlan _ _ _) (standing_blockPlan body bodyAll) ?_
      · simpa [Node.headActions] using heads
      · simp [Node.headParts, Node.headActions, Action.parts]
      · rwa [extent_while, ← Nat.add_assoc, ← Nat.add_assoc]
    case forLoop loc header target iter code orelse isAsync =>
      obtain ⟨body, last⟩ := Node.forall_clauseBlocks_for.mp inside
      obtain ⟨bodyAll, lastAll⟩ := forall_mem_append.mp inner
      have ends := standing_clausePlan last lastAll
      rw [nodePlan]
      refine .cycle rfl here (by rw [nodePlan]) heads (fun e => Iff.rfl) (asks_blockPlan _ _ _)
        (asks_clausePlan _ _ _) (standing_blockPlan body bodyAll) ?_
      rwa [extent_for, ← Nat.add_assoc, ← Nat.add_assoc]
    case attempt loc header code handlers orelse final =>
      obtain ⟨body, others, last, ends⟩ := Node.forall_clauseBlocks_attempt.mp inside
      obtain ⟨inner, endsAll⟩ := forall_mem_append.mp inner
      obtain ⟨inner, lastAll⟩ := forall_mem_append.mp inner
      obtain ⟨bodyAll, othersAll⟩ := forall_mem_append.mp inner
      have caught : ∀ h ∈ handlers, ∀ action ∈ catchActions h.header h.type h.name, fine action :=
        fun h member action among => heads action (mem_flatMap.mpr ⟨h, member, among⟩)
      rw [nodePlan]
      refine .compound rfl here (by rw [nodePlan]) (fun e => ?_) ?_
      · rw [Plan.asks, Plan.asks_finished, Plan.asks_tried, asks_eachPlan, asks_handlerPlan,
          asks_clausePlan, asks_clausePlan, append_nil, append_nil, nil_append]
        · rfl
        · intro none
          rw [List.isEmpty_iff.mp none, asks_handlerPlan]
          rfl
      · rw [extent_attempt]
        simp only [← Nat.add_assoc]
        refine .seq (.finished _ (.tried _ (standing_eachPlan body bodyAll)
          (standing_handlerPlan others caught (by omega) othersAll)
          (standing_clausePlan last lastAll) fun none => ?_)) (standing_clausePlan ends endsAll)
        rw [List.isEmpty_iff.mp none]
        rfl
    case context loc header items code isAsync =>
      have body := Node.forall_clauseBlocks_context.mp inside
      rw [nodePlan]
      refine .compound rfl here (by rw [nodePlan]) (fun e => ?_) ?_
      · rw [Plan.asks, Plan.asks, asks_blockPlan, append_nil]
        rfl
      · rw [extent_context, ← Nat.add_assoc]
        exact .seq (.acts (Nat.lt_succ_self i) heads) (standing_blockPlan body inner)
    all_goals
      rw [nodePlan_flat rfl, extent_flat rfl statement]
      exact .flat rfl (extent_flat rfl statement) here

end Lying

end Lineage.Flow
