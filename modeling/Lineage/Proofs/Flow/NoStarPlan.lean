import Lineage.Proofs.Flow.NoStar
import Lineage.Proofs.Flow.PlanInvariant

/-!
Plans of clear statements. Carrying them out keeps an analysis noStar, so nothing is left to be done
where a statement is left. At other indices a block has the same plan but for the indices.
-/

namespace Lineage.Flow

open List

variable {i j : Nat} {code : List Node}

section Clear

variable {settings : Settings} {names : NameSet}

/-- The statements in the blocks of a clear statement are clear. -/
theorem Clear.throughout {n : Node} (clear : Clear settings names n) :
    n.Throughout (Clear settings names) :=
  Node.throughout_of (fun _ held => held)
    (fun _ held _ among _ member => held.inside (Node.mem_bodies_of_block among member)) n clear

/-- What a statement does is known and clear. -/
structure Smooth (settings : Settings) (names : NameSet) (env : Env) (n : Node) : Prop where
  clear : Clear settings names n
  flat : n.kind.isCompound = false → ∀ a ∈ flatActions env n, a.Clear settings names

theorem lies_of_clear {good : Node → Prop} (clear : ∀ n, good n → Clear settings names n)
    (each : ∀ c ∈ code, c.Throughout good) : (blockPlan none 0 code).Lies (fun _ _ => good)
      (Action.Clear settings names) none 0 (0 + blockExtent code) := by
  have around : Goods (fun _ _ => good) (blockPlaces none 0 code) := by
    intro place among
    have member : place.node ∈ Node.blockStatements code :=
      node_blockPlaces none 0 code ▸ mem_map_of_mem among
    rw [Node.blockStatements_eq_flatMap] at member
    obtain ⟨c, listed, inside⟩ := mem_flatMap.mp member
    exact each c listed _ inside
  refine standing_blockPlan (fun c member => standing
    (fun _ _ n holds => (clear n holds).headActions) c ?_) around
  exact fun m inside => (clear m (each c member m inside)).statement

variable (star : allNames ∉ names) {env : Env} (proper : env.Proper settings)

include star proper

/-- What smooth statements do keeps an analysis noStar. -/
theorem noStar_kept :
    (⟨fun _ _ _ => Progress.NoStar, fun _ => State.Plain,
      fun _ _ _ _ _ => Progress.NoStar⟩ :
      PlanInvariant).Kept env (fun _ _ => Smooth settings names env)
      (Action.Clear settings names) where
  merge := State.Plain.merge
  state noStar := noStar.state
  head noStar found := noStar.heads _ _ found
  jumps noStar _ := forall_mem_append.mpr ⟨noStar.breaks, noStar.continues⟩
  ends noStar := noStar.state
  mono _ plain := plain
  less noStar _ := noStar
  next noStar _ _ := noStar
  again noStar _ _ := noStar
  resume := Progress.NoStar.resume
  aside noStar := { noStar with breaks := forall_mem_nil _, continues := forall_mem_nil _ }
  nothing noStar := noStar
  append _ noStar _ _ := noStar
  twice _ noStar := noStar
  resumed := Progress.NoStar.resume
  of_resume noStar := noStar
  settled around noStar plain := noStar.restore around _ plain
  act clear noStar := noStar.act proper star clear
  enter _ _ _ noStar := noStar.enter _ _ _
  leave _ _ _ noStar _ := by rwa [noStar.leave]
  flat {_ parent i n p} smooth simple _ noStar := by
    have done := (noStar.enter parent i n).acts (i := i) proper star (smooth.flat simple)
    rwa [Progress.perform_eq_acts env i n _ smooth.clear.own.2.1, done.leave]

/-- What the body of a class reads from outside are single names. -/
theorem star_classBody
    (smooth : ∀ c ∈ code, c.Throughout fun m => ∀ env : Env, env.Proper settings →
    Smooth settings names env m) : ∀ u ∈ (classBody env code).classUses, u.name ≠ allNames := by
  have inner := proper.forBlock [] code
  have lies := lies_of_clear (fun _ held => held.clear) fun c member m inside => smooth c member m
    inside _ inner
  have done := ((noStar_kept star inner).run inner.passes lies (.start State.plain_empty)).1
  rw [← visitBlock_eq_plan] at done
  intro u among
  obtain ⟨f, listed, among⟩ := mem_flatMap.mp among
  obtain ⟨read, external, rfl⟩ := mem_map.mp among
  rintro rfl
  exact (done.facts f (Array.mem_toList_iff.mp listed)).external
    (Std.ExtTreeSet.mem_toList.mp external)

omit proper in
/-- A clear statement is smooth in all proper environments, and so are those inside it. -/
theorem smooth (n : Node) : Clear settings names n →
    n.Everywhere fun m => ∀ env : Env, env.Proper settings → Smooth settings names env m := by
  induction n using Node.bodies_induction with
  | step n ih =>
    intro clear
    have inner := fun c member => ih c member (clear.inside member)
    exact ⟨fun env proper => ⟨clear, fun flat => clear.flatActions star flat
      (star_classBody star proper fun c member => (inner c member).throughout)⟩,
      inner⟩

end Clear

/-! ### Plans at other indices -/

namespace Plan

/-- The plan with all indices so much greater. -/
@[simp]
def shift (a : Nat) : Plan → Plan
  | skip => skip
  | stop => stop
  | acts i actions => acts (a + i) actions
  | flat parent i n => flat (parent.map (a + ·)) (a + i) n
  | compound parent i n inner => compound (parent.map (a + ·)) (a + i) n (inner.shift a)
  | cycle parent i n before again body orelse =>
    cycle (parent.map (a + ·)) (a + i) n before again (body.shift a) (orelse.shift a)
  | seq first second => seq (first.shift a) (second.shift a)
  | protect body rescue after => protect (body.shift a) (rescue.shift a) (after.shift a)

theorem shift_tried (a : Nat) (bare : Bool) (body rescue after : Plan) :
    (tried bare body rescue after).shift a = tried bare (body.shift a) (rescue.shift a)
    (after.shift a) := by
  cases bare <;> rfl

theorem shift_finished (a : Nat) (always : Bool) (whole : Plan) :
    (finished always whole).shift a = finished always (whole.shift a) := by
  cases always <;> rfl

end Plan

section Moved

variable {a : Nat}

/-- The statement has the same plan at greater indices. -/
def Moved (a : Nat) (n : Node) : Prop :=
  ∀ parent i, nodePlan (parent.map (a + ·)) (a + i) n = (nodePlan parent i n).shift a

theorem moved_blockPlan (moved : ∀ c ∈ code, Moved a c) (parent : Option Nat) (there : j = a + i) :
    blockPlan (parent.map (a + ·)) j code = (blockPlan parent i code).shift a := by
  induction code generalizing i j with
  | nil => rw [blockPlan, blockPlan, Plan.shift]
  | cons n rest ih =>
    obtain ⟨own, others⟩ := forall_mem_cons.mp moved
    subst there
    rw [blockPlan, blockPlan, Plan.shift, own parent i, ih others (Nat.add_assoc ..)]

theorem moved_eachPlan (moved : ∀ c ∈ code, Moved a c) (parent : Option Nat) (there : j = a + i) :
    eachPlan (parent.map (a + ·)) j code = (eachPlan parent i code).shift a := by
  induction code generalizing i j with
  | nil => rw [eachPlan, eachPlan, Plan.shift]
  | cons n rest ih =>
    obtain ⟨own, others⟩ := forall_mem_cons.mp moved
    subst there
    rw [eachPlan, eachPlan, Plan.shift, Plan.shift, Plan.shift, own parent i,
      ih others (Nat.add_assoc ..)]

theorem moved_clausePlan {clause : Option (Clause Node)}
    (moved : ∀ c ∈ Clause.statements clause, Moved a c) (k : Nat) (there : j = a + i) :
    clausePlan (a + k) j clause = (clausePlan k i clause).shift a := by
  cases clause with
  | none => rw [clausePlan, clausePlan, Plan.shift]
  | some c =>
    rw [clausePlan, clausePlan]
    exact moved_blockPlan moved (some k) there

theorem moved_elifPlan {elifs : List (Elif Node)} (moved : ∀ e ∈ elifs, ∀ c ∈ e.body, Moved a c)
    (k : Nat) (there : j = a + i) (last : Plan) :
    elifPlan (a + k) j (last.shift a) elifs = (elifPlan k i last elifs).shift a := by
  induction elifs generalizing i j with
  | nil => rw [elifPlan, elifPlan]
  | cons e rest ih =>
    obtain ⟨own, others⟩ := forall_mem_cons.mp moved
    rw [elifPlan, elifPlan, Plan.shift, Plan.shift, Plan.shift,
      ← moved_blockPlan own (some k) there, ← ih others (j := j + blockExtent e.body) (by omega)]
    rfl

theorem moved_handlerPlan {handlers : List (Handler Node)}
    (moved : ∀ h ∈ handlers, ∀ c ∈ h.body, Moved a c) (k : Nat) (there : j = a + i) :
    handlerPlan (a + k) j handlers = (handlerPlan k i handlers).shift a := by
  induction handlers generalizing i j with
  | nil => rw [handlerPlan, handlerPlan, Plan.shift]
  | cons h rest ih =>
    obtain ⟨own, others⟩ := forall_mem_cons.mp moved
    rw [handlerPlan, handlerPlan]
    split
    · rw [Plan.shift, Plan.shift, ← moved_blockPlan own (some k) there]
      rfl
    · rw [Plan.shift, Plan.shift, Plan.shift, ← moved_blockPlan own (some k) there,
        ← ih others (j := j + blockExtent h.body) (by omega)]
      rfl

/-- A statement has the same plan at any indices. -/
theorem moved (a : Nat) (n : Node) : Moved a n := by
  induction n using Node.clause_induction with
  | step n inside =>
    intro parent i
    cases n
    case branch loc header test code elifs orelse =>
      obtain ⟨body, others, last⟩ := Node.forall_clauseBlocks_branch.mp inside
      simp only [nodePlan, Plan.shift]
      rw [← moved_blockPlan body (some i) (j := a + i + 1) (by omega),
        ← moved_elifPlan others i (j := a + i + 1 + blockExtent code) (by omega),
        ← moved_clausePlan last i (j := a + i + 1 + blockExtent code +
          (Node.elifStatements elifs).length) (by omega)]
      rfl
    case whileLoop loc header test code orelse =>
      obtain ⟨body, last⟩ := Node.forall_clauseBlocks_while.mp inside
      simp only [nodePlan, Plan.shift]
      rw [← moved_blockPlan body (some i) (j := a + i + 1) (by omega),
        ← moved_clausePlan last i (j := a + i + 1 + blockExtent code) (by omega)]
      rfl
    case forLoop loc header target iter code orelse isAsync =>
      obtain ⟨body, last⟩ := Node.forall_clauseBlocks_for.mp inside
      simp only [nodePlan, Plan.shift]
      rw [← moved_blockPlan body (some i) (j := a + i + 1) (by omega),
        ← moved_clausePlan last i (j := a + i + 1 + blockExtent code) (by omega)]
      rfl
    case attempt loc header code handlers orelse final =>
      obtain ⟨body, others, last, ends⟩ := Node.forall_clauseBlocks_attempt.mp inside
      simp only [nodePlan, Plan.shift, Plan.shift_finished, Plan.shift_tried]
      rw [← moved_eachPlan body (some i) (j := a + i + 1) (by omega),
        ← moved_handlerPlan others i (j := a + i + 1 + blockExtent code) (by omega),
        ← moved_clausePlan last i
          (j := a + i + 1 + blockExtent code + (Node.handlerStatements handlers).length) (by omega),
        ← moved_clausePlan ends i (j := a + i + 1 + blockExtent code +
          (Node.handlerStatements handlers).length + (Node.clauseStatements orelse).length)
          (by omega)]
      rfl
    case context loc header items code isAsync =>
      have body := Node.forall_clauseBlocks_context.mp inside
      simp only [nodePlan, Plan.shift]
      rw [← moved_blockPlan body (some i) (j := a + i + 1) (by omega)]
      rfl
    all_goals simp only [nodePlan, Plan.shift]

end Moved

end Lineage.Flow
