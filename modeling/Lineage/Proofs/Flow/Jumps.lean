import Lineage.Proofs.Flow.Rounds
import Lineage.Proofs.Tree.Jumps

/-!
Where the states at jumps are kept. A loop opens lists for the states at the jumps in its body, and
a plan only adds to the lists that it finds: the states at those jumps that it comes to outside of
the bodies of its loops. So in every pass over a loop its lists take in the states at the jumps that
the loop owns, one for each, and nothing else.
-/

namespace Lineage.Flow

open List

variable {i : Nat} {n : Node} {x : Point} {code : List Node} {own : Body}

/-- The analysis comes to a jump: the statement with its index and the one around, and how far the
analysis has come. -/
structure JumpVisit where
  parent : Option Nat
  index : Nat
  node : Node
  before : Progress

/-- The states at those jumps that are of a kind. -/
def statesAt (kind : Kind) (visits : List JumpVisit) : List State :=
  (visits.filter fun v => v.node.kind = kind).map fun v => v.before.state

theorem statesAt_append (kind : Kind) (first second : List JumpVisit) :
    statesAt kind (first ++ second) = statesAt kind first ++ statesAt kind second := by
  rw [statesAt, filter_append, map_append]
  rfl

namespace Progress

/-- From one point to another, the lists take in the states at jumps. -/
structure Records (visits : List JumpVisit) (p q : Progress) : Prop where
  breaks : q.breaks = p.breaks ++ statesAt .break visits
  continues : q.continues = p.continues ++ statesAt .continue visits

namespace Records

variable {visits more : List JumpVisit} {p q r : Progress}

theorem none (breaks : q.breaks = p.breaks) (continues : q.continues = p.continues) :
    Records [] p q :=
  ⟨breaks.trans (append_nil _).symm, continues.trans (append_nil _).symm⟩

theorem trans (first : Records visits p q) (second : Records more q r) :
    Records (visits ++ more) p r where
  breaks := by rw [second.breaks, first.breaks, append_assoc, statesAt_append]
  continues := by rw [second.continues, first.continues, append_assoc, statesAt_append]

theorem resume (records : Records visits p q) (s : State) : Records visits p (q.resume s) :=
  ⟨records.breaks, records.continues⟩

theorem of_resume {s : State} (records : Records visits (p.resume s) q) : Records visits p q :=
  ⟨records.breaks, records.continues⟩

/-- With the `else` clause of a loop the lists of the loop around are back in place. -/
theorem of_settledAt {head : State} (records : Records visits (settledAt p i head r) q) :
    Records visits p q :=
  ⟨records.breaks, records.continues⟩

theorem of_enter {parent : Option Nat} (records : Records visits (p.enter parent i n) q) :
    Records visits p q :=
  ⟨records.breaks.trans (by rw [breaks_enter]), records.continues.trans (by rw [continues_enter])⟩

theorem leave (records : Records visits p q) (i : Nat) (n : Node) (entry : State) :
    Records visits p (q.leave i n entry) :=
  ⟨(breaks_leave ..).trans records.breaks, (continues_leave ..).trans records.continues⟩

end Records

/-- What does not jump leaves the lists as they are. -/
theorem records_acts (env : Env) (i : Nat) {actions : List Action}
    (still : Action.break ∉ actions ∧ Action.continue ∉ actions) (p : Progress) :
    Records [] p (p.acts env i actions) := by
  induction actions generalizing p with
  | nil => exact .none rfl rfl
  | cons a rest ih =>
    simp only [mem_cons, not_or] at still
    have first : Records [] p (p.act env i a) := by
      cases a with
      | evaluate es => exact .none (p.jumps_evaluate env i es).1 (p.jumps_evaluate env i es).2
      | define => exact .none rfl rfl
      | use => exact .none rfl rfl
      | close => exact .none rfl rfl
      | «break» => exact absurd rfl still.1.1
      | «continue» => exact absurd rfl still.2.1
    exact first.trans (ih ⟨still.1.2, still.2.2⟩ (p.act env i a))

theorem records_plain {names : NameSet} (env : Env) (i : Nat) {actions : List Action}
    (plain : ∀ a ∈ actions, a.Plain names) (p : Progress) : Records [] p (p.acts env i actions) :=
  p.records_acts env i ⟨fun member => plain _ member, fun member => plain _ member⟩

/-- A statement without blocks records the state in front of it if it is a jump. -/
theorem records_flat (env : Env) (parent : Option Nat) (i : Nat) (n : Node) (p : Progress) :
    Records (if n.isJump then [⟨parent, i, n, p⟩] else []) p
    (((p.enter parent i n).perform env i n).leave i n p.state) := by
  suffices performed : Records (if n.isJump then [⟨parent, i, n, p⟩] else []) (p.enter parent i n)
      ((p.enter parent i n).perform env i n) from performed.of_enter.leave i n p.state
  by_cases jump : n.isJump = true
  · rw [if_pos jump]
    cases n
    case «break» => exact ⟨congrArg (_ ++ [·]) (state_enter ..), (append_nil _).symm⟩
    case «continue» => exact ⟨(append_nil _).symm, congrArg (_ ++ [·]) (state_enter ..)⟩
    all_goals exact absurd jump Bool.false_ne_true
  · rw [if_neg jump]
    rcases perform_cases env i n (p.enter parent i n) with ⟨_, same⟩ | ⟨_, same⟩
    · rw [same]
      exact .none rfl rfl
    · rw [same]
      refine records_acts env i ⟨fun member => jump ?_, fun member => jump ?_⟩ _
      · have kind : decide (n.kind = .break) = true :=
        decide_eq_true (done_flatActions env n _ member)
        cases n <;> first | rfl | exact absurd kind Bool.false_ne_true
      · have kind : decide (n.kind = .continue) = true :=
        decide_eq_true (done_flatActions env n _ member)
        cases n <;> first | rfl | exact absurd kind Bool.false_ne_true

end Progress

namespace Plan

/-- The jumps that a plan comes to outside of the bodies of its loops, one after the other. -/
def visits (env : Env) : Plan → Progress → List JumpVisit
  | flat parent i n, p => if n.isJump then [⟨parent, i, n, p⟩] else []
  | compound parent i n inner, p => inner.visits env (p.enter parent i n)
  | cycle parent i n before again body orelse, p =>
    let q := (p.enter parent i n).acts env i before
    let settled := Progress.settle (fun q => body.run env (q.acts env i again)) env.passes
      (loopStart env i q) { q with breaks := [], continues := [] }
    orelse.visits env (settledAt q i settled.1 settled.2)
  | seq first second, p => first.visits env p ++ second.visits env (first.run env p)
  | protect body rescue after, p =>
    let q := body.run env p
    let r := q.resume (State.join (p.state :: body.stops env p))
    body.visits env p ++ (rescue.visits env r ++ after.visits env
      ((rescue.run env r).resume q.state))
  | _, _ => []

/-- The jumps of a plan outside of the bodies of its loops. -/
def jumps : Plan → List Node
  | flat _ _ n => if n.isJump then [n] else []
  | compound _ _ _ inner => inner.jumps
  | cycle _ _ _ _ _ _ orelse => orelse.jumps
  | seq first second => first.jumps ++ second.jumps
  | protect body rescue after => body.jumps ++ (rescue.jumps ++ after.jumps)
  | _ => []

/-- The jumps of every loop in a plan are those of the statement. -/
def Fits : Plan → Prop
  | compound _ _ _ inner => inner.Fits
  | cycle _ _ n _ _ body orelse => body.jumps = n.loopJumps ∧ body.Fits ∧ orelse.Fits
  | seq first second => first.Fits ∧ second.Fits
  | protect body rescue after => body.Fits ∧ rescue.Fits ∧ after.Fits
  | _ => True

/-- A plan comes to each of its jumps once, in order. -/
theorem node_visits (env : Env) (s : Plan) (p : Progress) :
    (s.visits env p).map JumpVisit.node = s.jumps := by
  induction s generalizing p with
  | flat parent i n =>
    rw [visits, jumps]
    split <;> rfl
  | compound parent i n inner ih => exact ih _
  | cycle parent i n before again body orelse _ ih => exact ih _
  | seq first second ihFirst ihSecond => rw [visits, jumps, map_append, ihFirst, ihSecond]
  | protect body rescue after ihBody ihRescue ihAfter =>
    rw [visits, jumps, map_append, map_append, ihBody, ihRescue, ihAfter]
  | _ => rfl

/-- A plan adds the states at its jumps to the lists that it finds. -/
theorem records_run {env : Env} {good : Option Nat → Nat → Node → Prop} {names : NameSet}
    {own : Option Nat} {lo hi : Nat} {s : Plan} (lies : s.Lies good (Action.Plain names) own lo hi)
    (p : Progress) : Progress.Records (s.visits env p) p (s.run env p) := by
  induction lies generalizing p with
  | skip => exact .none rfl rfl
  | stop => exact .none rfl rfl
  | acts _ plain => exact p.records_plain env _ plain
  | flat => exact p.records_flat env _ _ _
  | compound _ _ _ _ _ ih =>
    rw [visits, run]
    exact (ih _).of_enter.leave ..
  | @cycle own parent i b n before again body orelse _ _ _ plain _ _ _ _ _ _ ih =>
    have head := (p.enter parent i n).records_plain env i (forall_mem_append.mp plain).1
    rw [visits, run, loop_eq i _ _ rfl]
    exact ((head.of_enter.trans (ih _).of_settledAt).resume _).leave ..
  | seq _ _ first second =>
    rw [visits, run]
    exact (first p).trans (second _)
  | protect _ _ _ body rescue after =>
    rw [visits, run]
    exact ((body p).trans ((rescue _).of_resume.trans (after _).of_resume)).resume _

theorem jumps_tried (bare : Bool) {body rescue after : Plan}
    (none : bare = true → rescue.jumps = []) : (tried bare body rescue after).jumps = body.jumps ++
    (rescue.jumps ++ after.jumps) := by
  unfold tried
  split
  · rename_i nothing
    rw [jumps, none nothing, nil_append]
  · rw [jumps]

theorem Fits.tried (bare : Bool) {body rescue after : Plan} (first : body.Fits)
    (second : rescue.Fits) (third : after.Fits) : (tried bare body rescue after).Fits := by
  unfold Plan.tried
  split
  · exact ⟨first, third⟩
  · exact ⟨first, second, third⟩

theorem jumps_finished (always : Bool) (whole : Plan) :
    (finished always whole).jumps = whole.jumps := by
  unfold finished
  split
  · exact append_nil _
  · rfl

theorem Fits.finished (always : Bool) {whole : Plan} (fits : whole.Fits) :
    (finished always whole).Fits := by
  unfold Plan.finished
  split
  · exact ⟨fits, trivial, trivial⟩
  · exact fits

/-- The plan has the jumps, and each loop in it those of its statement. -/
def Has (s : Plan) (jumps : List Node) : Prop :=
  s.jumps = jumps ∧ s.Fits

end Plan

section Shapes

/-- The plan of the statement has the jumps of the statement. -/
def Shaped (n : Node) : Prop :=
  ∀ parent i, (nodePlan parent i n).Has n.jumps

theorem shaped_blockPlan (shaped : ∀ c ∈ code, Shaped c) (parent : Option Nat) (i : Nat) :
    (blockPlan parent i code).Has (Node.blockJumps code) := by
  induction code generalizing i with
  | nil => exact ⟨rfl, trivial⟩
  | cons n rest ih =>
    obtain ⟨first, others⟩ := forall_mem_cons.mp shaped
    obtain ⟨own, fits⟩ := first parent i
    obtain ⟨later, fitsLater⟩ := ih others (i + n.extent)
    rw [blockPlan, Node.blockJumps]
    exact ⟨congrArg₂ (· ++ ·) own later, fits, fitsLater⟩

theorem shaped_eachPlan (shaped : ∀ c ∈ code, Shaped c) (parent : Option Nat) (i : Nat) :
    (eachPlan parent i code).Has (Node.blockJumps code) := by
  induction code generalizing i with
  | nil => exact ⟨rfl, trivial⟩
  | cons n rest ih =>
    obtain ⟨first, others⟩ := forall_mem_cons.mp shaped
    obtain ⟨own, fits⟩ := first parent i
    obtain ⟨later, fitsLater⟩ := ih others (i + n.extent)
    rw [eachPlan, Node.blockJumps]
    exact ⟨congrArg₂ (· ++ ·) own later, fits, trivial, fitsLater⟩

theorem shaped_clausePlan {clause : Option (Clause Node)}
    (shaped : ∀ c ∈ Clause.statements clause, Shaped c) (k i : Nat) :
    (clausePlan k i clause).Has (Node.clauseJumps clause) := by
  cases clause with
  | none => exact ⟨rfl, trivial⟩
  | some c => exact shaped_blockPlan shaped (some k) i

theorem shaped_elifPlan {elifs : List (Elif Node)} (shaped : ∀ e ∈ elifs, ∀ c ∈ e.body, Shaped c)
    (k i : Nat) {last : Plan} {jumps : List Node} (ends : last.Has jumps) :
    (elifPlan k i last elifs).Has (Node.elifJumps elifs ++ jumps) := by
  induction elifs generalizing i with
  | nil => exact ends
  | cons e rest ih =>
    obtain ⟨first, others⟩ := forall_mem_cons.mp shaped
    obtain ⟨own, fits⟩ := shaped_blockPlan first (some k) i
    obtain ⟨later, fitsLater⟩ := ih others (i + blockExtent e.body)
    rw [elifPlan, Node.elifJumps, append_assoc]
    refine ⟨?_, trivial, trivial, fits, fitsLater⟩
    simp only [Plan.jumps, own, later, nil_append]

theorem shaped_handlerPlan {handlers : List (Handler Node)}
    (shaped : ∀ h ∈ handlers, ∀ c ∈ h.body, Shaped c) (k i : Nat) :
    (handlerPlan k i handlers).Has (Node.handlerJumps handlers) := by
  induction handlers generalizing i with
  | nil => exact ⟨rfl, trivial⟩
  | cons h rest ih =>
    obtain ⟨first, others⟩ := forall_mem_cons.mp shaped
    obtain ⟨own, fits⟩ := shaped_blockPlan first (some k) i
    obtain ⟨later, fitsLater⟩ := ih others (i + blockExtent h.body)
    rw [handlerPlan, Node.handlerJumps]
    split
    · rename_i none
      rw [List.isEmpty_iff.mp none, Node.handlerJumps, append_nil]
      exact ⟨own, trivial, fits⟩
    · refine ⟨?_, trivial, ⟨trivial, fits⟩, fitsLater⟩
      simp only [Plan.jumps, own, later, nil_append]

/-- The plan of every statement has its jumps. -/
theorem shaped (n : Node) : n.ModuleFree → Shaped n := by
  induction n using Node.clause_induction with
  | step n ih =>
    intro plain parent i
    have inside : ∀ block ∈ n.clauseBlocks, ∀ c ∈ block.2, Shaped c :=
      fun block among c member => ih block among c member (plain.inside among member)
    have statement := plain n (mem_cons_self ..)
    clear ih plain
    cases n
    case module => exact absurd rfl statement
    case branch loc header test code elifs orelse =>
      obtain ⟨body, others, last⟩ := Node.forall_clauseBlocks_branch.mp inside
      obtain ⟨own, fits⟩ := shaped_blockPlan body (some i) (i + 1)
      obtain ⟨later, fitsLater⟩ := shaped_elifPlan others i (i + 1 + blockExtent code)
        (shaped_clausePlan last i (i + 1 + blockExtent code + (Node.elifStatements elifs).length))
      rw [nodePlan, Node.jumps, append_assoc]
      refine ⟨?_, trivial, trivial, fits, fitsLater⟩
      simp only [Plan.jumps, own, later, nil_append]
    case whileLoop loc header test code orelse =>
      obtain ⟨body, last⟩ := Node.forall_clauseBlocks_while.mp inside
      obtain ⟨own, fits⟩ := shaped_blockPlan body (some i) (i + 1)
      obtain ⟨later, fitsLater⟩ := shaped_clausePlan last i (i + 1 + blockExtent code)
      exact ⟨later, own, fits, fitsLater⟩
    case forLoop loc header target iter code orelse isAsync =>
      obtain ⟨body, last⟩ := Node.forall_clauseBlocks_for.mp inside
      obtain ⟨own, fits⟩ := shaped_blockPlan body (some i) (i + 1)
      obtain ⟨later, fitsLater⟩ := shaped_clausePlan last i (i + 1 + blockExtent code)
      exact ⟨later, own, fits, fitsLater⟩
    case attempt loc header code handlers orelse final =>
      obtain ⟨body, others, last, ends⟩ := Node.forall_clauseBlocks_attempt.mp inside
      obtain ⟨own, fits⟩ := shaped_eachPlan body (some i) (i + 1)
      obtain ⟨rescued, fitsRescued⟩ := shaped_handlerPlan others i (i + 1 + blockExtent code)
      obtain ⟨later, fitsLater⟩ := shaped_clausePlan last i
        (i + 1 + blockExtent code + (Node.handlerStatements handlers).length)
      obtain ⟨final, fitsFinal⟩ := shaped_clausePlan ends i (i + 1 + blockExtent code +
        (Node.handlerStatements handlers).length + (Node.clauseStatements orelse).length)
      rw [nodePlan]
      refine ⟨?_, (Plan.Fits.tried _ fits fitsRescued fitsLater).finished _, fitsFinal⟩
      rw [Plan.jumps, Plan.jumps, Plan.jumps_finished, Plan.jumps_tried, own, rescued, later, final,
        Node.jumps, append_assoc, append_assoc, append_assoc, append_assoc]
      intro none
      rw [rescued, List.isEmpty_iff.mp none, Node.handlerJumps]
    case context loc header items code isAsync =>
      obtain ⟨own, fits⟩ := shaped_blockPlan (Node.forall_clauseBlocks_context.mp inside)
        (some i) (i + 1)
      exact ⟨own, trivial, fits⟩
    all_goals
      rw [nodePlan_flat rfl]
      exact ⟨rfl, trivial⟩

end Shapes

/-! ### Jumps in an analysis -/

/-- Where the analysis of a body begins. -/
def Body.point (own : Body) : Point :=
  ⟨own, own.plan, own.start⟩

/-- Where the analysis comes to a jump. -/
def JumpVisit.point (around : Body) (visit : JumpVisit) : Point :=
  ⟨around, .flat visit.parent visit.index visit.node, visit.before⟩

/-- The jumps that the plan at a point comes to outside of the bodies of its loops. -/
def Point.visits (env : Env) (x : Point) : List JumpVisit :=
  x.plan.visits (x.around.env env) x.progress

namespace LoopVisit

/-- Where a pass over a loop goes on with the body. -/
def point (env : Env) (v : LoopVisit) (k : Nat) : Point :=
  ⟨v.around, v.body, ((v.round env k).2.resume (v.head env k)).acts (v.around.env env) v.index
    v.again⟩

/-- The jumps that a pass over a loop comes to outside of the bodies of loops further inside. -/
def visits (env : Env) (v : LoopVisit) (k : Nat) : List JumpVisit :=
  (v.point env k).visits env

end LoopVisit

section Visits

variable {env : Env}

/-- The analysis comes to the jumps that a plan is said to come to. -/
theorem goes_visits {around : Body} {s : Plan} {p : Progress} {visit : JumpVisit}
    (member : visit ∈ s.visits (around.env env) p) :
    Relation.ReflTransGen (Goes env) ⟨around, s, p⟩ (visit.point around) := by
  induction s generalizing p with
  | flat parent i n =>
    rw [Plan.visits] at member
    split at member
    · obtain rfl := mem_singleton.mp member
      exact .refl
    · exact absurd member not_mem_nil
  | compound parent i n inner ih => exact .head .inner (ih member)
  | cycle parent i n before again body orelse _ ih => exact .head (.orelse _ rfl) (ih member)
  | seq first second ihFirst ihSecond =>
    rcases mem_append.mp member with member | member
    · exact .head .first (ihFirst member)
    · exact .head .second (ihSecond member)
  | protect body rescue after ihBody ihRescue ihAfter =>
    rcases mem_append.mp member with member | member
    · exact .head .body (ihBody member)
    · rcases mem_append.mp member with member | member
      · exact .head .rescue (ihRescue member)
      · exact .head (.after rfl) (ihAfter member)
  | _ => exact absurd member not_mem_nil

/-- An analysis goes on to jumps that it was to come to already, unless it goes into the body of a
loop or begins with that of a function or class. -/
theorem Goes.cases {y : Point} (goes : Goes env x y) : y.visits env ⊆ x.visits env ∨
    (∃ parent i n before again body orelse p k, x =
      ⟨x.around, .cycle parent i n before again body orelse, p⟩ ∧
      (∀ j < k, ¬ (x.around.visit env parent i n before again body orelse p).Rests env j) ∧
      y = (x.around.visit env parent i n before again body orelse p).point env k) ∨
    ∃ parent i n own p, x = ⟨x.around, .flat parent i n, p⟩ ∧ own ∈ n.definedBodies ∧
        y = own.point := by
  cases goes with
  | inner => exact Or.inl (List.Subset.refl _)
  | pass k v same moves =>
    subst same
    exact Or.inr (Or.inl ⟨_, _, _, _, _, _, _, _, k, rfl, moves, rfl⟩)
  | orelse v same =>
    subst same
    exact Or.inl (List.Subset.refl _)
  | defined among => exact Or.inr (Or.inr ⟨_, _, _, _, _, rfl, among, rfl⟩)
  | first => exact Or.inl (subset_append_left _ _)
  | second => exact Or.inl (subset_append_right _ _)
  | body => exact Or.inl (subset_append_left _ _)
  | rescue => exact Or.inl (List.Subset.trans (subset_append_left _ _) (subset_append_right _ _))
  | after same =>
    subst same
    exact Or.inl (List.Subset.trans (subset_append_right _ _) (subset_append_right _ _))

/-- A point in the analysis of a tree: the analysis faces the plan there, the plan has the jumps of
its loops, and the body is one of those in the tree. -/
structure Point.Sited (env : Env) (tree : Node) (x : Point) : Prop where
  faced : x.Faced env
  fits : x.plan.Fits
  inside : ∀ c ∈ x.around.code, c ∈ tree.nodes

variable {tree : Node}

theorem Body.has_plan (plain : ∀ c ∈ own.code, c.NoModules) :
    own.plan.Has (Node.blockJumps own.code) :=
  shaped_blockPlan (fun c member => shaped c (plain c member).throughout) none 0

theorem statementAt_mem_nodes (inside : ∀ c ∈ code, c ∈ tree.nodes)
    (here : statementAt code i = some n) : n ∈ tree.nodes := by
  obtain ⟨c, member, below⟩ := Node.mem_nodes_of_blockStatements (mem_of_getElem? here)
  exact Node.nodes_subset (inside c member) below

/-- The body of what a statement of a tree defines. -/
theorem Point.Sited.defined {around : Body} {parent : Option Nat} {p : Progress}
    (sited : Point.Sited env tree ⟨around, .flat parent i n, p⟩) (among : own ∈ n.definedBodies) :
    n ∈ tree.nodes ∧ own.plan.Has (Node.blockJumps own.code) ∧ ∀ c ∈ own.code, c ∈ tree.nodes := by
  obtain ⟨_, _, _, lies, _⟩ := sited.faced
  cases lies with
  | flat _ _ here =>
    have member := statementAt_mem_nodes sited.inside here.stated.here
    obtain ⟨_, inner⟩ := here.plain
    rw [← Node.code_definedBodies among] at inner
    refine ⟨member, Body.has_plan inner, fun c own => ?_⟩
    rw [Node.code_definedBodies among] at own
    exact Node.nodes_subset member (Node.bodies_subset n own)

theorem Goes.sited {y : Point} (goes : Goes env x y) (sited : x.Sited env tree) :
    y.Sited env tree := by
  refine ⟨goes.faces sited.faced, ?_, ?_⟩
  · have fits := sited.fits
    cases goes with
    | inner => exact fits
    | pass => exact fits.2.1
    | orelse => exact fits.2.2
    | defined among => exact (sited.defined among).2.1.2
    | first => exact fits.1
    | second => exact fits.2
    | body => exact fits.1
    | rescue => exact fits.2.1
    | after => exact fits.2.2
  · cases goes with
    | defined among => exact (sited.defined among).2.2
    | _ => exact sited.inside

/-- A jump in the body of a function or class is caught there if no loop does. -/
theorem exists_definition (among : own ∈ n.definedBodies) :
    ∃ d ∈ n.nodes, d.caught = Node.blockJumps own.code ∧ d.loopJumps = [] := by
  cases n
  case function =>
    obtain rfl := mem_singleton.mp among
    exact ⟨_, Node.mem_nodes_self _, rfl, rfl⟩
  case classDef =>
    obtain rfl := mem_singleton.mp among
    exact ⟨_, Node.mem_nodes_self _, rfl, rfl⟩
  case decorated loc decorators definition =>
    have below : definition ∈ (Node.decorated loc decorators definition).nodes :=
      Node.nodes_subset_of_child (mem_append_right _ (mem_singleton_self _))
        (Node.mem_nodes_self definition)
    cases definition
    case function =>
      obtain rfl := mem_singleton.mp among
      exact ⟨_, below, rfl, rfl⟩
    case classDef =>
      obtain rfl := mem_singleton.mp among
      exact ⟨_, below, rfl, rfl⟩
    all_goals exact absurd among not_mem_nil
  all_goals exact absurd among not_mem_nil

/-- The analysis of a tree. -/
def treeBody (tree : Node) : Body :=
  ⟨[], tree.code⟩

/-- Coming to a jump is part of a pass over a loop that the analysis makes, or no loop is found to
have the jump. -/
def Accounted (env : Env) (tree : Node) (visit : JumpVisit) : Prop :=
  (∃ v k, (treeBody tree).Makes env v ∧ (∀ j < k, ¬ v.Rests env j) ∧ visit ∈ v.visits env k) ∨
    ∀ loop ∈ tree.nodes, visit.node ∉ loop.loopJumps

theorem sited_tree (env : Env) (plain : ∀ c ∈ tree.code, c.NoModules) :
    (treeBody tree).point.Sited env tree where
  faced := Body.faced env plain
  fits := (Body.has_plan plain).2
  inside _ member := code_subset_nodes tree member

theorem sited_of_goes (plain : ∀ c ∈ tree.code, c.NoModules)
    (goes : Relation.ReflTransGen (Goes env) (treeBody tree).point x) : x.Sited env tree := by
  induction goes with
  | refl => exact sited_tree env plain
  | tail _ step sited => exact step.sited sited

/-- No loop is found to have a jump that leaves the tree. -/
theorem not_loopJumps_of_blockJumps (distinct : tree.allJumps.Nodup) {j : Node}
    (leaves : j ∈ Node.blockJumps tree.code) : ∀ loop ∈ tree.nodes, j ∉ loop.loopJumps := by
  have same : Node.blockJumps tree.code = tree.jumps := by
    cases tree
    case module => rfl
    all_goals exact append_nil _
  intro loop member own
  exact Node.not_caught_of_jumps distinct member (same ▸ leaves)
    (Node.loopJumps_subset_caught loop own)

/-- Whatever jump the analysis is to come to is accounted for. -/
theorem accounted_of_goes (distinct : tree.allJumps.Nodup) (plain : ∀ c ∈ tree.code, c.NoModules)
    (goes : Relation.ReflTransGen (Goes env) (treeBody tree).point x) :
    ∀ visit ∈ x.visits env, Accounted env tree visit := by
  induction goes with
  | refl =>
    intro visit member
    right
    have node : visit.node ∈ (treeBody tree).plan.jumps :=
      Plan.node_visits ((treeBody tree).env env) _ _ ▸ mem_map_of_mem member
    rw [(Body.has_plan plain).1] at node
    exact not_loopJumps_of_blockJumps distinct node
  | @tail x y before step ih =>
    intro visit member
    have sited := sited_of_goes plain before
    rcases step.cases with already | ⟨_, _, _, _, _, _, _, _, k, same, moves, rfl⟩ | ⟨_, _, n, own,
      p, same, among, rfl⟩
    · exact ih visit (already member)
    · exact Or.inl ⟨_, k, ⟨_, _, _, _, _, _, _, _, _, rfl, same ▸ before⟩, moves, member⟩
    · right
      rw [same] at sited
      obtain ⟨inTree, has, _⟩ := sited.defined among
      obtain ⟨d, below, caught, noLoop⟩ := exists_definition among
      have node : visit.node ∈ d.caught := by
        rw [caught, ← has.1, ← Plan.node_visits (own.env env) own.plan own.start]
        exact mem_map_of_mem member
      intro loop memberLoop found
      -- What is caught by the definition is caught by no loop.
      obtain rfl := Node.caught_unique distinct (Node.nodes_subset inTree below) memberLoop node
        (Node.loopJumps_subset_caught loop found)
      rw [noLoop] at found
      exact absurd found not_mem_nil

/-- A visit that the analysis of a tree makes: the loop stands in the tree, the body has the jumps
that are found for the loop, and every pass is a point of the analysis. -/
theorem Body.Makes.sited (plain : ∀ c ∈ tree.code, c.NoModules) {v : LoopVisit}
    (makes : (treeBody tree).Makes env v) : v.node ∈ tree.nodes ∧ v.body.jumps = v.node.loopJumps ∧
      ∀ k, (∀ j < k, ¬ v.Rests env j) → Relation.ReflTransGen (Goes env) (treeBody tree).point
      (v.point env k) := by
  obtain ⟨around, parent, i, n, before, again, body, orelse, p, rfl, goes⟩ := makes
  have sited := sited_of_goes plain goes
  obtain ⟨_, _, _, lies, _⟩ := sited.faced
  cases lies with
  | cycle _ here =>
    refine ⟨statementAt_mem_nodes sited.inside here.stated.here, sited.fits.1, fun k moves => ?_⟩
    exact goes.tail (.pass k _ rfl moves)

/-- A pass over a loop adds the states at the jumps that it comes to. -/
theorem LoopVisit.Faced.records {v : LoopVisit} {mid hi : Nat} (faced : v.Faced env mid hi)
    (k : Nat) : Progress.Records (v.visits env k) (v.round env k).2 (v.round env (k + 1)).2 := by
  have head := Progress.records_plain (v.around.env env) v.index faced.again
    ((v.round env k).2.resume (v.head env k))
  exact (head.trans (Plan.records_run faced.body _)).of_resume

end Visits

/-- In a tree in which no jump stands twice, a jump in the body of a loop is found for one loop
only, the one that owns it, and any other jump for none. The analysis keeps the states accordingly.
A loop opens empty lists, and each pass over it comes to each of the jumps found for the loop once;
the states there are added to the lists, and nothing else. Whenever the analysis comes to a jump
that some loop owns, that is in a pass over this loop. -/
theorem jumps_owned (env : Env) (tree : Node) (distinct : tree.allJumps.Nodup) :
    (∀ j : Node, j.isJump = true →
      ((∃ loop ∈ tree.nodes, j ∈ loop.looped) → ∃ owner ∈ tree.nodes, owner.Owns j ∧
        ∀ other ∈ tree.nodes, j ∈ other.loopJumps ↔ other = owner) ∧
      ((∀ loop ∈ tree.nodes, j ∉ loop.looped) → ∀ loop ∈ tree.nodes, j ∉ loop.loopJumps)) ∧
    visitBlock ((treeBody tree).env env) none 0 tree.code (treeBody tree).start =
      (treeBody tree).plan.run ((treeBody tree).env env) (treeBody tree).start ∧
    ((∀ c ∈ tree.code, c.NoModules) →
      (∀ v, (treeBody tree).Makes env v →
        v.node ∈ tree.nodes ∧ (v.round env 0).2.breaks = [] ∧ (v.round env 0).2.continues = [] ∧
        ∀ k, (∀ j < k, ¬ v.Rests env j) → (v.visits env k).map JumpVisit.node = v.node.loopJumps ∧
          (∀ visit ∈ v.visits env k, Relation.ReflTransGen (Goes env) (treeBody tree).point
          (visit.point v.around)) ∧ Progress.Records (v.visits env k) (v.round env k).2
          (v.round env (k + 1)).2) ∧
      ∀ around visit, Relation.ReflTransGen (Goes env) (treeBody tree).point
        (JumpVisit.point around visit) → visit.node.isJump = true →
        (∃ loop ∈ tree.nodes, visit.node ∈ loop.looped) → ∃ v k, (treeBody tree).Makes env v ∧
          (∀ j < k, ¬ v.Rests env j) ∧ v.node.Owns visit.node ∧ visit ∈ v.visits env k) := by
  refine ⟨fun j jump => ⟨?_, ?_⟩, visitBlock_eq_plan _ _ _ _ _,
    fun plain => ⟨fun v makes => ?_, fun around visit goes jump inside => ?_⟩⟩
  · rintro ⟨loop, member, inside⟩
    exact Node.exists_owner distinct member jump inside
  · intro outside loop member own
    exact outside loop member (Node.mem_looped_of_loopJumps own).2
  · obtain ⟨member, jumps, passes⟩ := makes.sited plain
    obtain ⟨mid, hi, faced⟩ := makes.faced plain
    refine ⟨member, rfl, rfl, fun k moves => ⟨?_, fun visit among => ?_, faced.records k⟩⟩
    · exact (Plan.node_visits _ _ _).trans jumps
    · exact (passes k moves).trans (goes_visits among)
  · have among : visit ∈ (visit.point around).visits env := by
      rw [Point.visits, JumpVisit.point, Plan.visits, if_pos jump]
      exact mem_singleton_self visit
    rcases accounted_of_goes distinct plain goes visit among with ⟨v, k, makes, moves, found⟩ | none
    · obtain ⟨member, jumps, _⟩ := makes.sited plain
      refine ⟨v, k, makes, moves, ?_, found⟩
      have own : visit.node ∈ v.node.loopJumps := by
        rw [← jumps, ← Plan.node_visits (v.around.env env) v.body]
        exact mem_map_of_mem found
      exact ((Node.mem_loopJumps_iff distinct member).mp own).2
    · obtain ⟨loop, member, inside⟩ := inside
      obtain ⟨owner, ownerMember, _, only⟩ := Node.exists_owner distinct member jump inside
      exact absurd ((only owner ownerMember).mpr rfl) (none owner ownerMember)

/-- `while a: (while a: continue, else: break)`. The `break` leaves the outer loop. The two tests
are equal nodes. -/
def leftByElse : Node :=
  .module default [.whileLoop default default (.name default "a")
    [.whileLoop default default (.name default "a") [.continue default]
      (some ⟨default, [.break default]⟩)] none]

theorem nodup_leftByElse : leftByElse.allJumps.Nodup := by
  have jumps : leftByElse.allJumps = [.continue default, .break default] := rfl
  simp [jumps]

/-- In the first pass over the outer loop its list takes in the state at the `break` in the inner
loop's `else` clause. -/
theorem jumps_owned_left_by_else : leftByElse.allJumps.Nodup ∧
    (∀ c ∈ leftByElse.code, c.NoModules) ∧
      (∃ owner ∈ leftByElse.nodes, owner.Owns (.break default) ∧
        ∀ other ∈ leftByElse.nodes, .break default ∈ other.loopJumps ↔ other = owner) ∧
    ∃ v, (treeBody leftByElse).Makes ⟨⟨∅, ∅⟩, ∅, 0, true⟩ v ∧
      (v.visits ⟨⟨∅, ∅⟩, ∅, 0, true⟩ 0).map JumpVisit.node = [.break default] ∧
      (v.round ⟨⟨∅, ∅⟩, ∅, 0, true⟩ 1).2.breaks.length = 1 := by
  have makes : (treeBody leftByElse).Makes ⟨⟨∅, ∅⟩, ∅, 0, true⟩
      ((treeBody leftByElse).visit ⟨⟨∅, ∅⟩, ∅, 0, true⟩ none 0 _ _ _ _ _ _) :=
    ⟨_, _, _, _, _, _, _, _, _, rfl, .single .first⟩
  obtain ⟨owned, _, analysed⟩ := jumps_owned ⟨⟨∅, ∅⟩, ∅, 0, true⟩ leftByElse nodup_leftByElse
  have plain : ∀ c ∈ leftByElse.code, c.NoModules := Node.everywhere_of_blockFault rfl
  obtain ⟨_, noBreaks, _, passes⟩ := (analysed plain).1 _ makes
  obtain ⟨nodes, _, records⟩ := passes 0 fun j less => absurd less (Nat.not_lt_zero j)
  refine ⟨nodup_leftByElse, plain, (owned (.break default) rfl).1 ?_, _, makes, nodes, ?_⟩
  · refine ⟨_, code_subset_nodes leftByElse (mem_singleton_self _), ?_⟩
    simp [Node.looped, Node.blockStatements, Node.statements, Node.clauseStatements]
  · obtain ⟨visit, single, node⟩ := map_eq_singleton_iff.mp nodes
    have kind : visit.node.kind = .break := congrArg Node.kind node
    simp [records.breaks, noBreaks, single, statesAt, kind]

end Lineage.Flow
