import Lineage.Proofs.Flow.Regular
import Lineage.Proofs.Flow.Faults
import Mathlib.Data.Nat.Find
import Mathlib.Logic.Relation

/-!
The passes over loops. An analysis visits a loop wherever its plan comes to one: again on every pass
over a loop around it, and in the bodies of functions and classes. In every visit the head rises
with each pass but the last, among finitely many states, so the loop comes to rest.
-/

namespace Lineage

open List

variable {p : Progress} {own : Option Nat} {n : Node} {lo hi : Nat}

/-- The body of a function or class, with its parameters, or a module. -/
structure Flow.Body where
  params : List String
  code : List Node

/-- The bodies of what a statement defines. They are analysed by themselves. -/
def Node.definedBodies : Node → List Flow.Body
  | .function _ _ _ params _ code _ => [⟨paramNames params, code⟩]
  | .classDef _ _ _ _ _ code => [⟨[], code⟩]
  | .decorated _ _ (.function _ _ _ params _ code _) => [⟨paramNames params, code⟩]
  | .decorated _ _ (.classDef _ _ _ _ _ code) => [⟨[], code⟩]
  | _ => []

theorem Node.code_definedBodies {body : Flow.Body} (among : body ∈ n.definedBodies) :
    body.code = n.bodies := by
  cases n
  case decorated loc decorators definition =>
    cases definition
    case function | classDef => rw [List.mem_singleton.mp among]; rfl
    all_goals exact absurd among not_mem_nil
  case function | classDef => rw [List.mem_singleton.mp among]; rfl
  all_goals exact absurd among not_mem_nil

namespace Flow

namespace Body

/-- The environment in which a body is analysed. -/
def env (env : Env) (body : Body) : Env :=
  env.forBlock body.params body.code

def scope (env : Env) (body : Body) : Scope :=
  .ofBlock env.writes body.params body.code

def plan (body : Body) : Plan :=
  blockPlan none 0 body.code

/-- The analysis of a body starts with its parameters. -/
def start (body : Body) : Progress :=
  .start (parameterState body.params)

end Body

/-! ### Passes -/

/-- The head of a loop and the analysis in front of each pass. -/
def rounds (pass : Progress → Progress) (head : State) (p : Progress) : Nat → State × Progress
  | 0 => (head, p)
  | k + 1 =>
    let q := pass ((rounds pass head p k).2.resume (rounds pass head p k).1)
    (State.join ((rounds pass head p k).1 :: q.state :: q.continues), q)

theorem rounds_succ (pass : Progress → Progress) (head : State) (p : Progress) (k : Nat) :
    rounds pass head p (k + 1) =
      rounds pass (State.join (head :: (pass (p.resume head)).state ::
        (pass (p.resume head)).continues)) (pass (p.resume head)) k := by
  induction k with
  | zero => rfl
  | succ k ih =>
    rw [rounds, ih]
    rfl

/-- A loop that comes to rest within the passes it may take is left there. -/
theorem settle_eq {pass : Progress → Progress} {passes last : Nat} (enough : last < passes)
    {head : State} (moves : ∀ k < last, (rounds pass head p (k + 1)).1.same
    (rounds pass head p k).1 = false) (rests : (rounds pass head p (last + 1)).1.same
    (rounds pass head p last).1 = true) :
    Progress.settle pass passes head p =
    ((rounds pass head p last).1, (rounds pass head p (last + 1)).2) := by
  induction last generalizing passes head p with
  | zero =>
    obtain ⟨passes, rfl⟩ := Nat.exists_eq_add_of_lt enough
    rw [Nat.zero_add, Progress.settle]
    exact if_pos rests
  | succ last ih =>
    obtain ⟨passes, rfl⟩ : ∃ n, passes = n + 1 := ⟨passes - 1, by omega⟩
    rw [Progress.settle]
    refine (if_neg (Bool.not_eq_true _ ▸ moves 0 (Nat.succ_pos last))).trans ?_
    rw [rounds_succ pass head p last, rounds_succ pass head p (last + 1)] at *
    refine ih (Nat.lt_of_succ_lt_succ enough) (fun k less => ?_) rests
    rw [← rounds_succ, ← rounds_succ]
    exact moves (k + 1) (Nat.succ_lt_succ less)

/-- A visit of a loop: in which body the loop stands, the statement with its index, what it does
whenever it comes round, its two blocks, and the analysis when it comes to the head. -/
structure LoopVisit where
  around : Body
  index : Nat
  node : Node
  again : List Action
  body : Plan
  orelse : Plan
  before : Progress

namespace LoopVisit

/-- A pass over the loop. -/
def pass (env : Env) (v : LoopVisit) (p : Progress) : Progress :=
  v.body.run (v.around.env env) (p.acts (v.around.env env) v.index v.again)

/-- The head and the analysis in front of each pass. -/
def round (env : Env) (v : LoopVisit) : Nat → State × Progress :=
  rounds (v.pass env) (loopStart (v.around.env env) v.index v.before)
      { v.before with breaks := [], continues := [] }

/-- The state in which a pass begins. -/
def head (env : Env) (v : LoopVisit) (k : Nat) : State :=
  (v.round env k).1

/-- The pass brings nothing new, so that no other follows. -/
def Rests (env : Env) (v : LoopVisit) (k : Nat) : Prop :=
  (v.head env (k + 1)).same (v.head env k) = true

/-- The head and the analysis with which the loop is left. -/
def settled (env : Env) (v : LoopVisit) : State × Progress :=
  Progress.settle (v.pass env) (v.around.env env).passes
    (loopStart (v.around.env env) v.index v.before) { v.before with breaks := [], continues := [] }

end LoopVisit

/-- The visit of a loop that a plan comes to. -/
def Body.visit (env : Env) (around : Body) (parent : Option Nat) (i : Nat) (n : Node)
    (before again : List Action) (body orelse : Plan) (p : Progress) : LoopVisit :=
  ⟨around, i, n, again, body, orelse, (p.enter parent i n).acts (around.env env) i before⟩

/-- A point of an analysis: a plan is about to be carried out in a body. -/
structure Point where
  around : Body
  plan : Plan
  progress : Progress

/-- From one point an analysis goes on to a part of the plan there, or to the body of what a
statement defines. A loop is gone round for as long as the passes before have brought something
new. -/
inductive Goes (env : Env) : Point → Point → Prop where
  | inner {around : Body} {parent : Option Nat} {i : Nat} {n : Node} {inner : Plan} {p : Progress} :
      Goes env ⟨around, .compound parent i n inner, p⟩ ⟨around, inner, p.enter parent i n⟩
  | pass {around : Body} {parent : Option Nat} {i : Nat} {n : Node} {before again : List Action}
      {body orelse : Plan} {p : Progress} (k : Nat) (v : LoopVisit) : v =
      around.visit env parent i n before again body orelse p → (∀ j < k, ¬ v.Rests env j) →
      Goes env ⟨around, .cycle parent i n before again body orelse, p⟩
        ⟨around, body, ((v.round env k).2.resume (v.head env k)).acts (around.env env) i again⟩
  | orelse {around : Body} {parent : Option Nat} {i : Nat} {n : Node} {before again : List Action}
      {body orelse : Plan} {p : Progress} (v : LoopVisit) : v = around.visit env parent i n before
      again body orelse p → Goes env ⟨around, .cycle parent i n before again body orelse, p⟩
        ⟨around, orelse, settledAt v.before i (v.settled env).1 (v.settled env).2⟩
  | defined {around own : Body} {parent : Option Nat} {i : Nat} {n : Node} {p : Progress} : own ∈
      n.definedBodies → Goes env ⟨around, .flat parent i n, p⟩ ⟨own, own.plan, own.start⟩
  | first {around : Body} {first second : Plan} {p : Progress} :
      Goes env ⟨around, .seq first second, p⟩ ⟨around, first, p⟩
  | second {around : Body} {first second : Plan} {p : Progress} :
      Goes env ⟨around, .seq first second, p⟩ ⟨around, second, first.run (around.env env) p⟩
  | body {around : Body} {body rescue after : Plan} {p : Progress} :
      Goes env ⟨around, .protect body rescue after, p⟩ ⟨around, body, p⟩
  | rescue {around : Body} {body rescue after : Plan} {p : Progress} :
      Goes env ⟨around, .protect body rescue after, p⟩
        ⟨around, rescue, (body.run (around.env env) p).resume
          (State.join (p.state :: body.stops (around.env env) p))⟩
  | after {around : Body} {body rescue after : Plan} {p q : Progress} : q =
      body.run (around.env env) p → Goes env ⟨around, .protect body rescue after, p⟩
        ⟨around, after, (rescue.run (around.env env)
          (q.resume (State.join (p.state :: body.stops (around.env env) p)))).resume q.state⟩

/-- The visit is one that the analysis of a body makes, in the body or in those defined inside. -/
def Body.Makes (env : Env) (own : Body) (v : LoopVisit) : Prop :=
  ∃ around parent i n before again body orelse p, v = around.visit env parent i n before again body
    orelse p ∧ Relation.ReflTransGen (Goes env) ⟨own, own.plan, own.start⟩
    ⟨around, .cycle parent i n before again body orelse, p⟩

/-! ### What holds at every visit -/

/-- What holds everywhere in the statements of a block holds so of each statement in it. -/
theorem everywhere_statementAt {P : Node → Prop} {code : List Node}
    (all : ∀ c ∈ code, c.Everywhere P) {i : Nat} (here : statementAt code i = some n) :
    n.Everywhere P := by
  have inside := mem_of_getElem? here
  rw [Node.blockStatements_eq_flatMap] at inside
  obtain ⟨c, member, inside⟩ := mem_flatMap.mp inside
  refine Node.throughout_of (fun _ => id) (fun _ holds _ among d member => ?_) c
    (all c member) n inside
  obtain ⟨_, inner⟩ := holds
  exact inner d (Node.mem_bodies_of_block among member)

/-- A statement of a body that holds no modules. -/
structure Body.Holds (env : Env) (around : Body) (i : Nat) (n : Node) : Prop where
  stated : Stated (around.scope env) (statementAt around.code) i n
  plain : n.NoModules

/-- What is kept all along the analysis of a body. -/
abbrev Body.trait (env : Env) (around : Body) : Trait :=
  .sound (around.env env) (around.scope env) (statementAt around.code)

/-- An analysis that is about to carry out a plan. -/
structure Faces (env : Env) (around : Body) (own : Option Nat) (lo hi : Nat) (s : Plan)
    (p : Progress) : Prop where
  lies : s.Lies (fun _ => around.Holds env) (Action.Plain (around.scope env).names) own lo hi
  ready : (around.trait env).Ready own lo s.asks p

/-- The analysis faces the plan at a point. -/
def Point.Faced (env : Env) (x : Point) : Prop :=
  ∃ own lo hi, Faces env x.around own lo hi x.plan x.progress

/-- An analysis that comes to the head of a loop. -/
structure LoopVisit.Faced (env : Env) (v : LoopVisit) (mid hi : Nat) : Prop where
  again : ∀ action ∈ v.again, action.Plain (v.around.scope env).names
  body : v.body.Lies (fun _ => v.around.Holds env) (Action.Plain (v.around.scope env).names)
    (some v.index) (v.index + 1) mid
  orelse : v.orelse.Lies (fun _ => v.around.Holds env) (Action.Plain (v.around.scope env).names)
    (some v.index) mid hi
  noBody : v.body.asks = []
  noElse : v.orelse.asks = []
  ready : (v.around.trait env).Ready (some v.index) (v.index + 1) (v.again.flatMap Action.parts)
    v.before

section Visits

variable {env : Env} {around : Body}

theorem Body.known (env : Env) (around : Body) : (around.env env).Known (around.scope env).names :=
  known_vocabulary env.writes around.params around.code rfl

theorem Body.steady (env : Env) (around : Body) : (around.trait env).Steady (around.env env)
    (Stated (around.scope env) (statementAt around.code)) (Action.Plain (around.scope env).names) :=
  Trait.steady_sound (statementAt around.code) (around.known env)

theorem Faces.kept {s : Plan} (faces : Faces env around own lo hi s p) :
    p.Kept (around.env env) (around.scope env) (statementAt around.code) :=
  faces.ready.kept

theorem Faces.run {s : Plan} (faces : Faces env around own lo hi s p) :
    Leads (around.trait env) (around.env env) own lo hi s.asks p (s.run (around.env env) p) ∧
      ∀ t ∈ s.stops (around.env env) p, t.Sound (around.env env) (around.scope env)
      (s.run (around.env env) p).facts :=
  (around.steady env).invariant.run (Nat.succ_pos _)
    (faces.lies.imp (fun _ _ _ holds => holds.stated) fun _ => id) faces.ready

/-- The analysis of a body faces its plan. -/
theorem Body.faces (env : Env) {around : Body} (plain : ∀ c ∈ around.code, c.NoModules) :
    Faces env around none 0 (0 + blockExtent around.code) around.plan around.start := by
  have all : Goods (fun _ => around.Holds env) (blockPlaces none 0 around.code) := by
    intro place among
    have stated := stated_blockPlaces env.writes around.params among
    exact ⟨stated, everywhere_statementAt plain stated.here⟩
  have kept : around.start.Kept (around.env env) (around.scope env) (statementAt around.code) := by
    refine .start (within_parameterState env.writes around.params around.code)
      fun name k reaches => ?_
    rcases origin_parameterState reaches with ⟨_, same⟩ | same <;> exact nomatch same
  refine ⟨standing_blockPlan (fun c member => standing (fun _ i n held => ?_) c
    (plain c member).throughout) all, kept, Nat.zero_le _, nofun⟩
  exact plain_headActions held.stated.named

namespace LoopVisit

variable {v : LoopVisit} {mid hi : Nat}

/-- Every pass over a loop leads on. -/
theorem Faced.leads (faced : v.Faced env mid hi) (q : Progress)
    (ready : (v.around.trait env).Ready (some v.index) (v.index + 1)
    (v.again.flatMap Action.parts) q) : Leads (v.around.trait env) (v.around.env env) (some v.index)
      (v.index + 1) mid (v.again.flatMap Action.parts) q (v.pass env q) := by
  have lies := faced.body.imp (fun _ _ _ holds => Body.Holds.stated holds) fun _ => id
  exact (v.around.steady env).invariant.pass faced.again faced.body.le
    ((v.around.steady env).invariant.quiet (Nat.succ_pos _) lies faced.noBody) q ready

theorem Faced.poised (faced : v.Faced env mid hi) (k : Nat) :
    Poised (v.around.env env) (v.around.scope env) (statementAt v.around.code) v.index (v.index + 1)
    (v.again.flatMap Action.parts) (v.round env k).2 (v.head env k) := by
  induction k with
  | zero => exact .start (v.around.known env) faced.ready
  | succ k ih => exact (ih.pass (v.around.known env) faced.body.le faced.leads).2

/-- In front of each pass the analysis faces the body. -/
theorem Faced.faces_body (faced : v.Faced env mid hi) (k : Nat) :
    Faces env v.around (some v.index) (v.index + 1) mid v.body
    (((v.round env k).2.resume (v.round env k).1).acts (v.around.env env) v.index v.again) := by
  have poised := faced.poised k
  have ready := poised.ready.resume poised.sound
  refine ⟨faced.body, ?_⟩
  rw [faced.noBody]
  exact (ready.next ((v.around.steady env).invariant.acts faced.again ready) (Nat.le_refl _)).less
    (nil_subset _)

/-- When the loop is left the analysis faces the `else` clause. -/
theorem Faced.faces_else (faced : v.Faced env mid hi) :
    Faces env v.around (some v.index) mid hi v.orelse
    (settledAt v.before v.index (v.settled env).1 (v.settled env).2) := by
  have start := faced.poised 0
  obtain ⟨sound, led⟩ := (v.around.steady env).invariant.settles faced.body.le faced.leads
    (Nat.succ_pos _ : 0 < (v.around.env env).passes) start.sound start.ready (forall_mem_nil _)
  refine ⟨faced.orelse, ?_⟩
  rw [faced.noElse]
  exact (faced.ready.next ((v.around.steady env).restores faced.ready.kept led v.index sound)
    faced.body.le).less (nil_subset _)

end LoopVisit

/-- A plan with a loop comes to the head of the loop. -/
theorem Faces.visit {parent : Option Nat} {i : Nat} {before again : List Action}
    {body orelse : Plan} (faces : Faces env around own lo hi
    (.cycle parent i n before again body orelse) p) :
    ∃ mid, (around.visit env parent i n before again body orelse p).Faced env mid hi := by
  obtain ⟨lies, ready⟩ := faces
  cases lies with
  | cycle compound here _ all parts noBody noElse first second =>
    obtain ⟨fineBefore, fineAgain⟩ := forall_mem_append.mp all
    have entered := (around.steady env).entered ready parent here.stated compound
      fun e => (parts e).mp
    rw [flatMap_append] at entered
    have led := (around.steady env).invariant.acts fineBefore
      (entered.less (subset_append_left _ _))
    exact ⟨_, fineAgain, first, second, noBody, noElse,
      (entered.next led (Nat.le_refl _)).less (subset_append_right _ _)⟩

/-- UnderLeader what may stop, the analysis goes on from all the states in which it may have
stopped. -/
theorem Faces.rescued {a b : Nat} {body rescue : Plan} {asks : List Node}
    (first : body.Lies (fun _ => around.Holds env) (Action.Plain (around.scope env).names) own a b)
    (ready : (around.trait env).Ready own a (body.asks ++ rescue.asks ++ asks) p) :
    (around.trait env).Ready own b rescue.asks ((body.run (around.env env) p).resume
        (State.join (p.state :: body.stops (around.env env) p))) ∧
      Leads (around.trait env) (around.env env) own a b body.asks p
          (body.run (around.env env) p) := by
  have both := ready.less (subset_append_left _ _)
  obtain ⟨led, stops⟩ := Faces.run ⟨first, both.less (subset_append_left _ _)⟩
  exact ⟨((both.next led first.le).less (subset_append_right _ _)).resume
    ((around.steady env).invariant.join (ready.kept.state.mono led.under) stops), led⟩

/-- Wherever the analysis goes on to, it faces the plan there. -/
theorem Goes.faces {x y : Point} (goes : Goes env x y) (faces : x.Faced env) : y.Faced env := by
  obtain ⟨own, lo, hi, faces⟩ := faces
  cases goes with
  | pass k v same _ =>
    obtain ⟨mid, faced⟩ := faces.visit
    subst same
    exact ⟨_, _, _, faced.faces_body k⟩
  | orelse v same =>
    obtain ⟨mid, faced⟩ := faces.visit
    subst same
    exact ⟨_, _, _, faced.faces_else⟩
  | inner =>
    obtain ⟨lies, ready⟩ := faces
    cases lies with
    | compound compound here _ parts lies =>
      exact ⟨_, _, _, lies, (Body.steady env _).entered ready _ here.stated compound
        fun e => (parts e).mp⟩
  | defined among =>
    obtain ⟨lies, _⟩ := faces
    cases lies with
    | flat simple _ here =>
      obtain ⟨_, inside⟩ := here.plain
      exact ⟨_, _, _, Body.faces env (Node.code_definedBodies among ▸ inside)⟩
  | first =>
    obtain ⟨lies, ready⟩ := faces
    cases lies with
    | seq first second => exact ⟨_, _, _, first, ready.less (subset_append_left _ _)⟩
  | second =>
    obtain ⟨lies, ready⟩ := faces
    cases lies with
    | seq first second =>
      have led := (Faces.run ⟨first, ready.less (subset_append_left _ _)⟩).1
      exact ⟨_, _, _, second, (ready.next led first.le).less (subset_append_right _ _)⟩
  | body =>
    obtain ⟨lies, ready⟩ := faces
    cases lies with
    | protect first second third =>
      exact ⟨_, _, _, first, (ready.less (subset_append_left _ _)).less (subset_append_left _ _)⟩
  | rescue =>
    obtain ⟨lies, ready⟩ := faces
    cases lies with
    | protect first second third => exact ⟨_, _, _, second, (Faces.rescued first ready).1⟩
  | after same =>
    obtain ⟨lies, ready⟩ := faces
    cases lies with
    | protect first second third =>
      subst same
      obtain ⟨rescued, led⟩ := Faces.rescued first ready
      have done := (Faces.run ⟨second, rescued⟩).1.of_resume
      exact ⟨_, _, _, third, (((ready.next led first.le).next done second.le).less
        (subset_append_right _ _)).resume (led.kept.state.mono done.under)⟩

theorem Point.Faced.goes {x y : Point} (faced : x.Faced env)
    (goes : Relation.ReflTransGen (Goes env) x y) : y.Faced env := by
  induction goes with
  | refl => exact faced
  | tail _ step faces => exact step.faces faces

/-- The analysis of a body faces what it begins with. -/
theorem Body.faced (env : Env) {own : Body} (plain : ∀ c ∈ own.code, c.NoModules) :
    Point.Faced env ⟨own, own.plan, own.start⟩ :=
  ⟨_, _, _, Body.faces env plain⟩

/-- The analysis of a body comes to each of the visits it makes in the same way. -/
theorem Body.Makes.faced {own : Body} (plain : ∀ c ∈ own.code, c.NoModules) {v : LoopVisit}
    (makes : own.Makes env v) : ∃ mid hi, v.Faced env mid hi := by
  obtain ⟨around, parent, i, n, before, again, body, orelse, p, rfl, goes⟩ := makes
  obtain ⟨o, lo, hi, faces⟩ := (Body.faced env plain).goes goes
  obtain ⟨mid, faced⟩ := faces.visit
  exact ⟨mid, hi, faced⟩

namespace LoopVisit.Faced

variable {v : LoopVisit} {mid hi : Nat}

theorem within (faced : v.Faced env mid hi) (k : Nat) :
    (v.head env k).Within (v.around.scope env) :=
  (faced.poised k).sound.within

theorem below_head (env : Env) (v : LoopVisit) (k : Nat) :
    (v.head env k).Below (v.head env (k + 1)) :=
  State.below_join (mem_cons_self ..)

/-- As long as the passes bring something new, each gives some name one origin more. -/
theorem le_rank (faced : v.Faced env mid hi) {k : Nat} (moves : ∀ j < k, ¬ v.Rests env j) :
    k ≤ (v.head env k).rank (v.around.scope env) := by
  induction k with
  | zero => exact Nat.zero_le _
  | succ k ih =>
    have more := State.rank_lt (below_head env v k) (faced.within k) (faced.within (k + 1))
      (Bool.eq_false_iff.mpr (moves k (Nat.lt_succ_self k)))
    have before := ih fun j less => moves j (Nat.lt_succ_of_lt less)
    omega

/-- A loop comes to rest, and is left there. -/
theorem exists_rests (faced : v.Faced env mid hi) : ∃ last,
    last < (v.around.env env).passes ∧ (∀ k < last, ¬ v.Rests env k) ∧ v.Rests env last := by
  classical
  have rests : ∃ k, v.Rests env k := by
    refine Classical.byContradiction fun never => ?_
    have many := faced.le_rank (k := (v.around.env env).passes) fun j _ rests => never ⟨j, rests⟩
    exact Nat.not_succ_le_self _ (Nat.le_trans many (State.rank_le _ _))
  refine ⟨Nat.find rests, ?_, fun k less => Nat.find_min rests less, Nat.find_spec rests⟩
  have many := faced.le_rank fun j less => Nat.find_min rests less
  exact Nat.lt_succ_of_le (Nat.le_trans many (State.rank_le _ _))

theorem settled_eq {last : Nat} (enough : last < (v.around.env env).passes)
    (moves : ∀ k < last, ¬ v.Rests env k) (rests : v.Rests env last) :
    v.settled env = (v.head env last, (v.round env (last + 1)).2) :=
  settle_eq enough (fun k less => Bool.eq_false_iff.mpr (moves k less)) rests

end LoopVisit.Faced

end Visits

/-- The analysis of a body carries out its plan, and every loop that it visits, in the body or in
those defined inside, comes to rest: the head rises with each pass but the last, stays among the
names and origins of the body that the loop stands in, and so takes no more passes than there are of
both. -/
theorem loops_end (env : Env) (own : Body) (plain : ∀ c ∈ own.code, c.NoModules) :
    visitBlock (own.env env) none 0 own.code own.start = own.plan.run (own.env env) own.start ∧
      ∀ v, own.Makes env v → ∃ last,
        last + 1 ≤ (vocabulary env.writes v.around.params v.around.code).size *
        (blockExtent v.around.code + 2) + 1 ∧
        (∀ k < last, (v.head env k).Below (v.head env (k + 1)) ∧ ¬ v.Rests env k) ∧
        v.Rests env last ∧ (∀ k, (v.head env k).Within (v.around.scope env)) ∧
        v.settled env = (v.head env last, (v.round env (last + 1)).2) := by
  refine ⟨visitBlock_eq_plan _ _ _ _ _, fun v makes => ?_⟩
  obtain ⟨mid, hi, faced⟩ := makes.faced plain
  obtain ⟨last, enough, moves, rests⟩ := faced.exists_rests
  exact ⟨last, enough, fun k less => ⟨LoopVisit.Faced.below_head env v k, moves k less⟩, rests,
    faced.within, LoopVisit.Faced.settled_eq enough moves rests⟩

/-- `while n: n = m`. -/
def counting : List Node :=
  [.whileLoop default default (.name default "n")
    [.assign default [.name default "n"] (some (.name default "m")) none none false] none]

/-- `def f(n):` with the loop as its body. -/
def countingModule : Body :=
  ⟨[], [.function default "f" default [⟨"n", none, none, ""⟩] none counting false]⟩

/-- The loop in the body of a function comes to rest. -/
theorem loops_end_counting : (∀ c ∈ countingModule.code, c.NoModules) ∧
    ∃ v, countingModule.Makes ⟨⟨∅, ∅⟩, ∅, 0, true⟩ v ∧ v.around = ⟨["n"], counting⟩ ∧
      ∃ last, last + 1 ≤ (vocabulary ∅ ["n"] counting).size * (2 + 2) + 1 ∧
      v.Rests ⟨⟨∅, ∅⟩, ∅, 0, true⟩ last := by
  have makes : countingModule.Makes ⟨⟨∅, ∅⟩, ∅, 0, true⟩
      (Body.visit ⟨⟨∅, ∅⟩, ∅, 0, true⟩ ⟨["n"], counting⟩ none 0 _ _ _ _ _ _) :=
    ⟨_, _, _, _, _, _, _, _, _, rfl, .head .first
      (.head (.defined (mem_singleton_self _)) (.single .first))⟩
  have plain : ∀ c ∈ countingModule.code, c.NoModules := Node.everywhere_of_blockFault rfl
  obtain ⟨last, few, _, rests, _, _⟩ :=
    (loops_end ⟨⟨∅, ∅⟩, ∅, 0, true⟩ countingModule plain).2 _ makes
  exact ⟨plain, _, makes, rfl, last, few, rests⟩

end Flow

end Lineage
