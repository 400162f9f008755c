import Lineage.Proofs.Flow.Upheld

/-!
What an `except` clause and a `finally` clause see of the blocks in front of them. An error may
leave the body of a `try` statement before and behind each of its statements, so what is there at
these points reaches the clauses. A statement of the body that has blocks counts as one step: what
comes into it from outside is there before it, but what one statement inside it assigns and another
one replaces is seen by neither clause. In the same way the blocks of the `except` clauses and of
the `else` clause are one step each.
-/

namespace Lineage.Flow

open List

variable {code : List Node} {first i length : Nat} {clause : Option (Clause Node)} {origin : Origin}
  {p q : Progress} {name : String} {parent : Option Nat} {n : Node}

namespace Progress

/-- An origin that is there when a stretch of statements is entered: it reaches the first of them,
or it reaches one of them, or the head of a loop among them, and does not stand in the stretch
itself. -/
def Carries (p : Progress) (first length : Nat) (name : String) (origin : Origin) : Prop :=
  0 < length ∧ p.Reaches first name origin ∨
    (∃ k, first ≤ k ∧ k < first + length ∧ p.Notes k name origin) ∧
      ∀ k, first ≤ k → k < first + length → origin ≠ .statement k

theorem Reaches.congr {k : Nat}
    (same : p.facts[k]?.map StatementFacts.entry = q.facts[k]?.map StatementFacts.entry)
    (reaches : q.Reaches k name origin) : p.Reaches k name origin := by
  obtain ⟨f, found, reaches⟩ := reaches
  rw [found] at same
  obtain ⟨g, foundG, entry⟩ := Option.map_eq_some_iff.mp same
  rw [← entry] at reaches
  exact ⟨g, foundG, reaches⟩

theorem Carries.congr (alike : p.Alike first (first + length) q)
    (carries : q.Carries first length name origin) : p.Carries first length name origin := by
  rcases carries with ⟨some, reaches⟩ | ⟨⟨k, above, below, noted⟩, outside⟩
  · obtain ⟨facts, _⟩ := alike first (Nat.le_refl _) (Nat.lt_add_of_pos_right some)
    exact Or.inl ⟨some, reaches.congr (congrArg _ facts.symm)⟩
  · obtain ⟨facts, heads⟩ := alike k above below
    refine Or.inr ⟨⟨k, above, below, noted.imp (·.congr (congrArg _ facts.symm)) ?_⟩, outside⟩
    rw [heads]
    exact id

/-- In a stretch without statements nothing is carried. -/
theorem Carries.pos (carries : p.Carries first length name origin) : 0 < length := by
  rcases carries with ⟨some, _⟩ | ⟨⟨k, above, below, _⟩, _⟩
  · exact some
  · omega

/-- A statement without blocks that is not marked binds its names. -/
theorem state_flat {env : Env} {f : StatementFacts}
    (found : ((Plan.flat parent i n).run env p).facts[i]? = some f) (known : f.dynamic = false)
    (settled : p.pending = []) (member : name ∈ n.evaluatedParts.flatMap Node.walruses ++
    n.boundNames) : .statement i ∈ ((Plan.flat parent i n).run env p).state.reaching name := by
  have does := does_perform env i n ((pending_enter parent i n p).trans settled)
  rw [Plan.run] at found ⊢
  generalize (p.enter parent i n).perform env i n = q at does found ⊢
  suffices same : q.leave i n p.state = q by
    rw [same]
    exact (does.binds name).1 member
  cases here : q.facts[i]? with
  | none =>
    rw [leave, here]
    rfl
  | some g =>
    obtain ⟨h, foundH, flag⟩ := flags_leave i n p.state q g here
    obtain rfl := Option.some.inj (found.symm.trans foundH)
    rw [known, Bool.or_false] at flag
    rw [leave, here, Option.map_some, Option.getD_some, ← flag, if_neg Bool.false_ne_true]

end Progress

/-- A fence around a stretch of statements that are about to be visited. -/
def Fence.over (p : Progress) (first length : Nat) : Fence where
  inside k := first ≤ k ∧ k < first + length
  allowed name origin := origin ∈ p.state.reaching name ∨
    (∃ k, first ≤ k ∧ k < first + length ∧ p.Notes k name origin) ∨
      ∃ k, first ≤ k ∧ k < first + length ∧ origin = .statement k
  own k inside _ := Or.inr (Or.inr ⟨k, inside.1, inside.2, rfl⟩)

theorem Fence.confined_over (fits : first ≤ p.facts.size) (length : Nat) :
    p.Confined (.over p first length) first where
  notes k inside _ _ noted := Or.inr (Or.inl ⟨k, inside.1, inside.2, noted⟩)
  state _ _ reaches := Or.inl reaches
  reach := fits

theorem blockExtent_append (before rest : List Node) :
    blockExtent (before ++ rest) = blockExtent before + blockExtent rest := by
  induction before with
  | nil => exact (Nat.zero_add _).symm
  | cons n others ih => rw [cons_append, blockExtent_cons, blockExtent_cons, ih, Nat.add_assoc]

theorem visitBlock_append (env : Env) (parent : Option Nat) (i : Nat) (before rest : List Node)
    (p : Progress) : visitBlock env parent i (before ++ rest) p =
      visitBlock env parent (i + blockExtent before) rest (visitBlock env parent i before p) := by
  induction before generalizing i p with
  | nil =>
    rw [nil_append, visitBlock, blockExtent, Node.blockStatements, length_nil, Nat.add_zero]
  | cons n others ih =>
    rw [cons_append, visitBlock, visitBlock, ih, blockExtent_cons, Nat.add_assoc]

/-! ### Blocks -/

section Blocks

variable {env : Env} (allowed : 0 < env.passes) (plain : ∀ c ∈ code, c.ModuleFree)

include allowed plain

/-- What reaches the first statement of a block is what has reached it before and what is there
where the block begins. -/
theorem reaches_blockPlan (some : 0 < blockExtent code) (parent : Option Nat)
    (fits : i ≤ p.facts.size) :
    ((blockPlan parent i code).run env p).Reaches i name origin ↔
      p.Reaches i name origin ∨ origin ∈ p.state.reaching name := by
  cases code with
  | nil => exact absurd some (Nat.lt_irrefl 0)
  | cons c rest =>
    obtain ⟨plainC, others⟩ := forall_mem_cons.mp plain
    have visited := spans_run allowed (stands_nodePlan plainC none parent i) outermost fits
    have spans := spans_run allowed (stands_blockPlan others none parent _) outermost visited.reach
    have frame := (spans.frame i (Option.some_ne_none i).symm
      (Or.inl (Nat.lt_add_of_pos_right (Nat.succ_pos _)))).1
    have same := (congrArg (Option.map StatementFacts.entry) frame).trans
      (entry_nodePlan allowed plainC parent fits)
    rw [blockPlan, Plan.run]
    refine Iff.trans ⟨.congr same.symm, .congr same⟩ ((Progress.reaches_enter fits).trans ?_)
    rw [eq_self, true_and]

/-- What is there when a block is entered has been there before, or is there where the block
begins. -/
theorem carries_blockPlan (own : Option (Nat × Node)) (fits : i ≤ p.facts.size)
    (carries : ((blockPlan (own.map Prod.fst) i code).run env p).Carries i (blockExtent code) name
      origin) : origin ∈ p.state.reaching name ∨ p.Carries i (blockExtent code) name origin := by
  rcases carries with ⟨some, reaches⟩ | ⟨⟨k, above, below, noted⟩, outside⟩
  · rcases (reaches_blockPlan allowed plain some (own.map Prod.fst) fits).mp reaches
      with before | now
    · exact Or.inr (Or.inl ⟨some, before⟩)
    · exact Or.inl now
  · have inside : ∀ k, i ≤ k → k < i + blockExtent code →
        (Fence.over p i (blockExtent code)).inside k := fun k above below => ⟨above, below⟩
    have confined := confined_blockPlan allowed plain own inside (Fence.confined_over fits _)
    rcases confined.notes k ⟨above, below⟩ name origin noted with
      now | before | ⟨j, aboveJ, belowJ, within⟩
    · exact Or.inl now
    · exact Or.inr (Or.inr ⟨before, outside⟩)
    · exact absurd within (outside j aboveJ belowJ)

end Blocks

/-! ### Parts of a plan -/

namespace Plan

/-- Carrying out a plan comes to a part of it, outside of the blocks of its statements. -/
inductive Comes (env : Env) : Plan → Progress → Plan → Progress → Prop where
  | refl {s : Plan} {p : Progress} : Comes env s p s p
  | first {first second t : Plan} {p q : Progress} :
      Comes env first p t q → Comes env (.seq first second) p t q
  | second {first second t : Plan} {p q : Progress} :
      Comes env second (first.run env p) t q → Comes env (.seq first second) p t q
  | body {body rescue after t : Plan} {p q : Progress} :
      Comes env body p t q → Comes env (.protect body rescue after) p t q
  | rescue {body rescue after t : Plan} {p q : Progress} :
      Comes env rescue ((body.run env p).resume (State.join (p.state :: body.stops env p))) t q →
      Comes env (.protect body rescue after) p t q
  | after {body rescue after t : Plan} {p q : Progress} :
      Comes env after ((rescue.run env ((body.run env p).resume
        (State.join (p.state :: body.stops env p)))).resume (body.run env p).state) t q →
      Comes env (.protect body rescue after) p t q

/-- The part stands between two indices, and apart from it nothing is recorded there. -/
structure Frames (env : Env) (own : Option Nat) (a b : Nat) (p r : Progress) (t : Plan)
    (q : Progress) (c d : Nat) : Prop where
  stands : t.Stands own c d
  above : a ≤ c
  below : d ≤ b
  reach : c ≤ q.facts.size
  settled : p.pending = [] → q.pending = []
  before : p.Alike c d q
  after : (t.run env q).Alike c d r

variable {env : Env} {own : Option Nat} {a b c d m : Nat} {p q r : Progress} {s t : Plan}

/-- Something is done in front of what the part belongs to. -/
theorem Frames.behind (spans : Spans own a m p q) (le : a ≤ m) {u : Progress}
    (frames : Frames env own m b q r t u c d) : Frames env own a b p r t u c d :=
  { frames with
    above := Nat.le_trans le frames.above
    settled := frames.settled ∘ spans.settled
    before := .trans (spans.alike (fun k same => Nat.lt_of_lt_of_le (spans.before k same)
      (Nat.le_trans le frames.above)) (Or.inr frames.above)) frames.before }

/-- Something is done behind what the part belongs to. -/
theorem Frames.ahead (frames : Frames env own a m p q t r c d) {u : Progress}
    (spans : Spans own m b q u) (before : ∀ k, own = some k → k < a) (le : m ≤ b) :
    Frames env own a b p u t r c d :=
  { frames with
    below := Nat.le_trans frames.below le
    after := frames.after.trans (spans.alike
      (fun k same => Nat.lt_of_lt_of_le (before k same) frames.above) (Or.inl frames.below)) }

theorem Frames.resume (frames : Frames env own a b p r t q c d) (u : State) :
    Frames env own a b p (r.resume u) t q c d :=
  { frames with }

theorem Comes.frames (allowed : 0 < env.passes) (comes : Comes env s p t q)
    (stands : s.Stands own a b) (before : ∀ k, own = some k → k < a) (fits : a ≤ p.facts.size) :
    ∃ c d, Frames env own a b p (s.run env p) t q c d := by
  have trivial := upheld_trivial env
  have within : ∀ {m}, a ≤ m → ∀ k, own = some k → k < m :=
    fun le k same => Nat.lt_of_lt_of_le (before k same) le
  induction comes generalizing a b with
  | refl =>
    exact ⟨a, b, stands, Nat.le_refl _, Nat.le_refl _, fits, id, fun _ _ _ => ⟨rfl, rfl⟩,
      fun _ _ _ => ⟨rfl, rfl⟩⟩
  | first _ ih =>
    cases stands with
    | seq one two =>
      obtain ⟨c, d, frames⟩ := ih one before fits within
      have spans := spans_run allowed one before fits
      exact ⟨c, d, frames.ahead (spans_run allowed two (within one.le) spans.reach) before two.le⟩
  | second _ ih =>
    cases stands with
    | seq one two =>
      have spans := spans_run allowed one before fits
      obtain ⟨c, d, frames⟩ := ih two (within one.le) spans.reach fun le => within
        (Nat.le_trans one.le le)
      exact ⟨c, d, frames.behind spans one.le⟩
  | @body body rescue _ _ p _ _ ih =>
    cases stands with
    | protect one two three =>
      obtain ⟨c, d, frames⟩ := ih one before fits within
      have spans := (spans_run allowed one before fits).resume trivial
        (State.join (p.state :: body.stops env p))
      have second := (spans_run allowed two (within one.le) spans.reach).resume trivial
        (body.run env p).state
      have third := spans_run allowed three (within (Nat.le_trans one.le two.le)) second.reach
      exact ⟨c, d, ((frames.ahead (second.of_resume trivial) before two.le).ahead third before
        three.le).resume _⟩
  | @rescue body rescue _ _ p _ _ ih =>
    cases stands with
    | protect one two three =>
      have spans := (spans_run allowed one before fits).resume trivial
        (State.join (p.state :: body.stops env p))
      obtain ⟨c, d, frames⟩ := ih two (within one.le) spans.reach fun le => within
        (Nat.le_trans one.le le)
      have second := (spans_run allowed two (within one.le) spans.reach).resume trivial
        (body.run env p).state
      have third := spans_run allowed three (within (Nat.le_trans one.le two.le)) second.reach
      exact ⟨c, d, ((frames.behind spans one.le).ahead (third.of_resume trivial) before
        three.le).resume _⟩
  | @after body rescue _ _ p _ _ ih =>
    cases stands with
    | protect one two three =>
      have spans := (spans_run allowed one before fits).resume trivial
        (State.join (p.state :: body.stops env p))
      have second := (spans_run allowed two (within one.le) spans.reach).resume trivial
        (body.run env p).state
      obtain ⟨c, d, frames⟩ := ih three (within (Nat.le_trans one.le two.le)) second.reach
        fun le => within (Nat.le_trans one.le (Nat.le_trans two.le le))
      exact ⟨c, d, ((frames.behind second two.le).behind spans one.le).resume _⟩

/-- Where the plan of a statement stands. -/
theorem Stands.node (stands : (nodePlan parent i n).Stands own c d) : c = i ∧ d = i + n.extent := by
  rcases nodePlan_cases parent i n with ⟨_, shape⟩ | ⟨_, shape⟩ | ⟨_, _, _, _, shape⟩
  · rw [Stands, shape] at stands
    cases stands with
    | flat _ single _ => exact ⟨rfl, by rw [single]⟩
  · rw [Stands, shape] at stands
    cases stands
    exact ⟨rfl, rfl⟩
  · rw [Stands, shape] at stands
    cases stands
    exact ⟨rfl, rfl⟩

theorem Stands.block (stands : (blockPlan parent i code).Stands own c d)
    (some : 0 < blockExtent code) : c = i ∧ d = i + blockExtent code := by
  induction code generalizing i c with
  | nil => exact absurd some (Nat.lt_irrefl 0)
  | cons n rest ih =>
    rw [Stands, blockPlan] at stands
    cases stands with
    | seq first second =>
      obtain ⟨rfl, rfl⟩ := Stands.node first
      rw [blockExtent_cons, ← Nat.add_assoc]
      cases rest with
      | nil =>
        rw [blockPlan] at second
        cases second
        exact ⟨rfl, rfl⟩
      | cons m others => exact ⟨rfl, (ih second (blockExtent_cons m others ▸ Nat.add_pos_left
          (Nat.succ_pos _) _)).2⟩

section Frames

variable {parent : Option Nat} {w : Progress}

theorem Frames.single (frames : Frames env own a b p w (nodePlan parent i n) q c d) :
    Frames env own a b p w (blockPlan parent i [n]) q c d :=
  { frames with stands := .seq frames.stands .skip }

/-- What the statement around does in front of the part leaves the records there alone. -/
theorem Frames.opened {actions : List Action}
    (frames : Frames env (some i) a b p w (.seq (.acts i actions) t) q c d) :
    Frames env (some i) a b p w t (q.acts env i actions) c d := by
  cases frames.stands with
  | seq first second =>
    cases first with
    | acts below _ =>
      have draws := (Progress.Draws.start i q).acts env actions
      have clean : q.pending = [] → (q.acts env i actions).pending = [] := fun settled =>
        (Progress.does_acts env i actions settled).settled
      exact ⟨second, frames.above, frames.below, draws.works.size.symm ▸ frames.reach,
        clean ∘ frames.settled, frames.before.trans ((draws.touches clean).alike below),
        frames.after⟩

variable (allowed : 0 < env.passes) (plain : ∀ c ∈ code, c.ModuleFree)
  (frames : Frames env own a b p w (blockPlan parent i code) q c d)

include allowed plain frames

/-- What is there when a block is entered has been there before, or is there where the block
begins. -/
theorem Frames.carries (carries : w.Carries i (blockExtent code) name origin) :
    origin ∈ q.state.reaching name ∨ p.Carries i (blockExtent code) name origin := by
  obtain ⟨rfl, rfl⟩ := frames.stands.block carries.pos
  obtain ⟨around, rfl⟩ := exists_around parent
  exact (carries_blockPlan allowed plain around frames.reach (carries.congr frames.after)).imp_right
    (·.congr frames.before)

/-- What is there where a block begins reaches its first statement. -/
theorem Frames.reaches (some : 0 < blockExtent code) (reaches : origin ∈ q.state.reaching name) :
    w.Reaches i name origin := by
  obtain ⟨rfl, rfl⟩ := frames.stands.block some
  have met := (reaches_blockPlan allowed plain some parent frames.reach).mpr (Or.inr reaches)
  exact met.congr (congrArg _ (frames.after _ (Nat.le_refl _) (Nat.lt_add_of_pos_right some)).1)

end Frames

/-! ### The parts of a `try` statement -/

theorem Comes.left {right : Plan} (comes : Comes env s p t q) : Comes env (fork s right) p t q := by
  refine .rescue ?_
  rwa [resume_skip]

theorem Comes.right {left : Plan} (comes : Comes env s ((left.run env p).resume p.state) t q) :
    Comes env (fork left s) p t q := by
  refine .after ?_
  rw [resume_skip]
  exact comes

theorem Comes.finished (always : Bool) (comes : Comes env s p t q) :
    Comes env (finished always s) p t q := by
  unfold Plan.finished
  split
  · exact .body comes
  · exact comes

theorem Comes.tried (bare : Bool) {rescue after : Plan} (comes : Comes env s p t q) :
    Comes env (tried bare s rescue after) p t q := by
  unfold Plan.tried
  split
  · exact .first comes
  · exact .body comes

theorem Comes.caught {bare : Bool} (some : bare = false) {body rescue after : Plan}
    (comes : Comes env rescue ((body.run env p).resume (State.join (p.state :: body.stops env p))) t
    q) : Comes env (Plan.tried bare body rescue after) p t q := by
  rw [some]
  exact .rescue comes

/-- UnderLeader the body it goes on from where the body ends. -/
theorem comes_after (bare : Bool) (body rescue after : Plan) (p : Progress) :
    ∃ q, q.state = (body.run env p).state ∧ Comes env (tried bare body rescue after) p after q := by
  unfold Plan.tried
  split
  · exact ⟨body.run env p, rfl, .second .refl⟩
  · exact ⟨(rescue.run env ((body.run env p).resume
      (State.join (p.state :: body.stops env p)))).resume (body.run env p).state, rfl, .after .refl⟩

variable {parent : Option Nat}

/-- In front of each statement of a block and behind it there is one of the states in which the
block stops. -/
theorem comes_eachPlan (parent : Option Nat) (i : Nat) (before : List Node) (n : Node)
    (rest : List Node) (p : Progress) : ∃ q,
      Comes env (eachPlan parent i (before ++ n :: rest)) p
        (nodePlan parent (i + blockExtent before) n) q ∧
      [q.state, ((nodePlan parent (i + blockExtent before) n).run env q).state] ⊆
        p.state :: (eachPlan parent i (before ++ n :: rest)).stops env p := by
  induction before generalizing i p with
  | nil =>
    refine ⟨p, .first .refl, ?_⟩
    rw [nil_append, eachPlan, stops, stops_nodePlan, stops, stops]
    exact cons_subset_cons _ (cons_subset_cons _ (nil_subset _))
  | cons m others ih =>
    obtain ⟨q, comes, among⟩ := ih (i + m.extent) ((nodePlan parent i m).run env p)
    rw [blockExtent_cons, ← Nat.add_assoc]
    refine ⟨q, .second (.second comes), ?_⟩
    rw [cons_append, eachPlan, stops, stops_nodePlan, stops, stops]
    exact List.Subset.trans among (subset_cons_self _ _)

/-- Where a block ends there is one of the states in which it stops. -/
theorem state_eachPlan (parent : Option Nat) (i : Nat) (code : List Node) (p : Progress) :
    ((eachPlan parent i code).run env p).state ∈ p.state ::
    (eachPlan parent i code).stops env p := by
  induction code generalizing i p with
  | nil => exact mem_cons_self ..
  | cons n rest ih =>
    refine mem_cons_of_mem _ ?_
    rw [eachPlan, stops, stops_nodePlan, stops, stops]
    exact ih _ _

/-- Each `except` clause begins with what the first one begins with. -/
theorem comes_handlerPlan (env : Env) (k i : Nat) (earlier : List (Handler Node)) (h : Handler Node)
    (later : List (Handler Node)) (p : Progress) : ∃ q, q.state = p.state ∧
      Comes env (handlerPlan k i (earlier ++ h :: later)) p
        (.seq (.acts k (catchActions h.header h.type h.name))
          (blockPlan (some k) (i + (Node.handlerStatements earlier).length) h.body)) q := by
  induction earlier generalizing i p with
  | nil =>
    refine ⟨p, rfl, ?_⟩
    rw [nil_append, handlerPlan]
    split
    · exact .refl
    · exact .left .refl
  | cons g others ih =>
    rw [cons_append, handlerPlan, if_neg (by simp), Node.handlerStatements, length_append,
      ← Nat.add_assoc]
    obtain ⟨q, state, comes⟩ := ih (i + blockExtent g.body)
      ((Plan.run env (.seq (.acts k (catchActions g.header g.type g.name))
        (blockPlan (some k) i g.body)) p).resume p.state)
    exact ⟨q, state, .right comes⟩

end Plan

/-- The names that the head of an `except` clause binds. -/
def headNames (h : Handler Node) : List String :=
  h.type.toList.flatMap Node.walruses ++ h.name.toList

/-- The index of the first statement behind the body and some `except` clauses of a `try`
statement. -/
def handlerIndex (i : Nat) (code : List Node) (earlier : List (Handler Node)) : Nat :=
  i + 1 + blockExtent code + (Node.handlerStatements earlier).length

/-- The index of the first statement of the `finally` clause of a `try` statement. -/
def finalIndex (i : Nat) (code : List Node) (handlers : List (Handler Node))
    (orelse : Option (Clause Node)) : Nat :=
  handlerIndex i code handlers + (Node.clauseStatements orelse).length

/-- Something holds of a step in front of the clauses of a `try` statement: of a statement of the
body, of the block of an `except` clause that does not bind the origin, or of the `else` clause. A
step is given by its first index and its length. A statement of the body counts also if it has no
blocks and binds the name itself. -/
def InFront (i : Nat) (code : List Node) (handlers : List (Handler Node))
    (orelse : Option (Clause Node)) (name : String) (origin : Origin) (holds : Nat → Nat → Prop)
    (known : Nat → Prop) : Prop :=
  (∃ before c after, code = before ++ c :: after ∧
    (holds (i + 1 + blockExtent before) c.extent ∨
      c.kind.isCompound = false ∧ name ∈ c.evaluatedParts.flatMap Node.walruses ++ c.boundNames ∧
        origin = .statement (i + 1 + blockExtent before) ∧ known (i + 1 + blockExtent before))) ∨
  (∃ earlier h later, handlers = earlier ++ h :: later ∧ origin ≠ .statement i ∧
    holds (handlerIndex i code earlier) (blockExtent h.body)) ∨
  holds (handlerIndex i code handlers) (Node.clauseStatements orelse).length

/-- Something holds of the first statement of each `except` clause whose head does not bind the
name, and of the first statement of the `finally` clause. -/
def AtClauses (i : Nat) (code : List Node) (handlers : List (Handler Node))
    (orelse final : Option (Clause Node)) (name : String) (holds : Nat → Prop) : Prop :=
  (∀ earlier h later, handlers = earlier ++ h :: later → h.body ≠ [] → name ∉ headNames h →
    holds (handlerIndex i code earlier)) ∧
  (Clause.statements final ≠ [] → holds (finalIndex i code handlers orelse))

theorem blockExtent_pos (present : code ≠ []) : 0 < blockExtent code := by
  cases code with
  | nil => exact absurd rfl present
  | cons c rest =>
    rw [blockExtent_cons]
    exact Nat.lt_of_lt_of_le (Nat.succ_pos _) (Nat.le_add_right _ _)

theorem handlerIndex_le (i : Nat) (code : List Node) (earlier : List (Handler Node))
    (h : Handler Node) (later : List (Handler Node)) :
    handlerIndex i code earlier + blockExtent h.body ≤ handlerIndex i code (earlier ++ h ::
      later) := by
  have length : (Node.handlerStatements (earlier ++ h :: later)).length =
      (Node.handlerStatements earlier).length +
        (blockExtent h.body + (Node.handlerStatements later).length) := by
    induction earlier with
    | nil =>
      rw [nil_append, Node.handlerStatements, Node.handlerStatements, length_append,
        length_nil, Nat.zero_add, blockExtent]
    | cons first rest ih =>
      rw [cons_append, Node.handlerStatements, Node.handlerStatements, length_append,
        length_append, ih, Nat.add_assoc]
  unfold handlerIndex
  omega

theorem clauseStatements_pos (present : Clause.statements clause ≠ []) :
    0 < (Node.clauseStatements clause).length := by
  cases clause with
  | none => exact absurd rfl present
  | some c => exact blockExtent_pos present

section Clauses

variable {handlers : List (Handler Node)} {orelse final : Option (Clause Node)}

/-- The steps stand behind the head of the `try` statement and in front of its `finally` clause. -/
theorem InFront.imp {holds holds' : Nat → Nat → Prop} {known known' : Nat → Prop}
    (front : InFront i code handlers orelse name origin holds known)
    (each : ∀ first length, i < first → first + length ≤ finalIndex i code handlers orelse →
      holds first length → holds' first length)
    (one : ∀ k, i < k → k < finalIndex i code handlers orelse → known k → known' k) :
    InFront i code handlers orelse name origin holds' known' := by
  have behind : i + 1 + blockExtent code ≤ handlerIndex i code handlers := Nat.le_add_right _ _
  have last : handlerIndex i code handlers ≤ finalIndex i code handlers orelse :=
    Nat.le_add_right _ _
  rcases front with ⟨before, c, after, rfl, step⟩ | ⟨earlier, h, later, rfl, other, step⟩ | step
  · rw [blockExtent_append, blockExtent_cons] at behind
    have some : 0 < c.extent := Nat.succ_pos _
    refine Or.inl ⟨before, c, after, rfl, step.imp (each _ _ (by omega) (by omega)) ?_⟩
    exact fun ⟨flat, member, same, held⟩ => ⟨flat, member, same, one _ (by omega) (by omega) held⟩
  · have within := handlerIndex_le i code earlier h later
    have first : i + 1 + blockExtent code ≤ handlerIndex i code earlier := Nat.le_add_right _ _
    exact Or.inr (Or.inl ⟨earlier, h, later, rfl, other, each _ _ (by omega) (by omega) step⟩)
  · exact Or.inr (Or.inr (each _ _ (by omega) (Nat.le_refl _) step))

theorem AtClauses.imp {holds holds' : Nat → Prop}
    (clauses : AtClauses i code handlers orelse final name holds)
    (each : ∀ k, i < k → k < finalIndex i code handlers orelse +
      (Node.clauseStatements final).length → holds k → holds' k) :
      AtClauses i code handlers orelse final name holds' := by
  have behind : i + 1 + blockExtent code ≤ handlerIndex i code handlers := Nat.le_add_right _ _
  have last : handlerIndex i code handlers ≤ finalIndex i code handlers orelse :=
    Nat.le_add_right _ _
  refine ⟨?_, fun present => each _ (by omega) ?_ (clauses.2 present)⟩
  · rintro earlier h later rfl present free
    have within := handlerIndex_le i code earlier h later
    have first : i + 1 + blockExtent code ≤ handlerIndex i code earlier := Nat.le_add_right _ _
    have some := blockExtent_pos present
    exact each _ (by omega) (by omega) (clauses.1 earlier h later rfl present free)
  · exact Nat.lt_add_of_pos_right (clauseStatements_pos present)

end Clauses

/-! ### Visits -/

/-- The plan for the blocks of a `try` statement. -/
def attemptPlan (i : Nat) (code : List Node) (handlers : List (Handler Node))
    (orelse final : Option (Clause Node)) : Plan :=
  .seq (.finished final.isSome (.tried handlers.isEmpty (eachPlan (some i) (i + 1) code)
      (handlerPlan i (i + 1 + blockExtent code) handlers)
      (clausePlan i (handlerIndex i code handlers) orelse)))
    (clausePlan i (finalIndex i code handlers orelse) final)

/-- What is there where an error may be raised in the body of a `try` statement. -/
def raised (env : Env) (i : Nat) (code : List Node) (p : Progress) : State :=
  State.join (p.state :: (eachPlan (some i) (i + 1) code).stops env p)

/-- From the first to the last the blocks of a `try` statement are visited, beginning with the
second. -/
def Tries (env : Env) (i : Nat) (code : List Node) (handlers : List (Handler Node))
    (orelse final : Option (Clause Node)) (p begun w : Progress) : Prop :=
  ∀ t q, (attemptPlan i code handlers orelse final).Comes env begun t q →
    ∃ a b c d, t.Frames env (some i) a b p w q c d

section Tries

variable {env : Env} {handlers : List (Handler Node)} {orelse final : Option (Clause Node)}
  {begun w : Progress}

theorem tries_nodePlan (allowed : 0 < env.passes) {loc header : Location}
    (plain : (Node.attempt loc header code handlers orelse final).ModuleFree) (parent : Option Nat)
    (fits : i ≤ p.facts.size) :
    Tries env i code handlers orelse final p
      (p.enter parent i (.attempt loc header code handlers orelse final))
      ((nodePlan parent i (.attempt loc header code handlers orelse final)).run env p) := by
  intro t q comes
  have stands := stands_nodePlan plain none parent i
  rw [nodePlan] at stands ⊢
  generalize i + Node.extent _ = b at stands ⊢
  cases stands with
  | compound _ _ _ _ stands =>
    obtain ⟨c, d, frames⟩ := comes.frames allowed stands
      (fun k same => Option.some.inj same ▸ Nat.lt_succ_self i) (le_size_enter parent _ fits)
    have entered :
        p.Alike c d (p.enter parent i (.attempt loc header code handlers orelse final)) := by
      intro k above _
      have apart : k ≠ i := Nat.ne_of_gt (Nat.lt_of_lt_of_le frames.above above)
      exact ⟨frame_enter _ _ fits apart, by rw [heads_enter]⟩
    refine ⟨_, _, c, d,
      { frames with settled := ?_, before := entered.trans frames.before, after := ?_ }⟩
    · exact fun settled => frames.settled ((pending_enter parent i _ p).trans settled)
    · exact frames.after.trans ((Progress.touches_leave i _ p.state _).alike frames.above)

variable (allowed : 0 < env.passes) (tries : Tries env i code handlers orelse final p begun w)

include tries

/-- A statement of the body that has no blocks and is not marked binds its names in front of where
an error may be raised. -/
theorem Tries.binds {before after : List Node} {c : Node} (split : code = before ++ c :: after)
    (flat : c.kind.isCompound = false)
    (member : name ∈ c.evaluatedParts.flatMap Node.walruses ++ c.boundNames) {f : StatementFacts}
    (found : w.facts[i + 1 + blockExtent before]? = some f) (known : f.dynamic = false)
    (settled : p.pending = []) :
    .statement (i + 1 + blockExtent before) ∈ (raised env i code begun).reaching name := by
  subst split
  obtain ⟨q, comes, among⟩ := Plan.comes_eachPlan (some i) (i + 1) before c after begun
  obtain ⟨_, _, _, _, frames⟩ := tries _ _ (.first ((comes.tried _).finished _))
  obtain ⟨rfl, rfl⟩ := frames.stands.node
  have same := (frames.after _ (Nat.le_refl _) (Nat.lt_add_of_pos_right (Nat.succ_pos _))).1
  have left := among (mem_cons_of_mem _ (mem_cons_self ..))
  rw [found] at same
  rw [nodePlan_flat flat] at same left
  exact State.below_join left _ _ (Progress.state_flat same.symm known
    (frames.settled settled) member)

include allowed

/-- What is there when a statement of the body is entered has been there before, or it is there
where an error may be raised. -/
theorem Tries.step (plain : ∀ c ∈ code, c.ModuleFree) {before after : List Node} {c : Node}
    (split : code = before ++ c :: after)
    (carries : w.Carries (i + 1 + blockExtent before) c.extent name origin) :
    origin ∈ (raised env i code begun).reaching name ∨
      p.Carries (i + 1 + blockExtent before) c.extent name origin := by
  subst split
  obtain ⟨q, comes, among⟩ := Plan.comes_eachPlan (some i) (i + 1) before c after begun
  obtain ⟨_, _, _, _, frames⟩ := tries _ _ (.first ((comes.tried _).finished _))
  have alone : blockExtent [c] = c.extent := blockExtent_cons c []
  rw [← alone] at carries ⊢
  refine (frames.single.carries allowed ?_ carries).imp_left
    (State.below_join (among (mem_cons_self ..)) _ _)
  exact forall_mem_singleton.mpr (plain c (mem_append_right _ (mem_cons_self ..)))

/-- The same holds of the `else` clause, which begins where the body ends. -/
theorem Tries.otherwise (plain : ∀ c ∈ Clause.statements orelse, c.ModuleFree)
    (carries : w.Carries (handlerIndex i code handlers) (Node.clauseStatements orelse).length name
    origin) : origin ∈ (raised env i code begun).reaching name ∨
      p.Carries (handlerIndex i code handlers) (Node.clauseStatements orelse).length name
      origin := by
  obtain ⟨q, state, comes⟩ := Plan.comes_after handlers.isEmpty (eachPlan (some i) (i + 1) code)
    (handlerPlan i (i + 1 + blockExtent code) handlers)
    (clausePlan i (handlerIndex i code handlers) orelse) begun
  obtain ⟨_, _, _, _, frames⟩ := tries _ _ (.first (comes.finished _))
  cases orelse with
  | none => exact absurd carries.pos (Nat.lt_irrefl 0)
  | some clause =>
    refine (frames.carries allowed plain carries).imp_left fun now => ?_
    rw [state] at now
    exact State.below_join (Plan.state_eachPlan (some i) (i + 1) code begun) _ _ now

/-- A clause at the end takes in what is there where an error may be raised. -/
theorem Tries.finally (plain : ∀ c ∈ Clause.statements final, c.ModuleFree)
    (present : Clause.statements final ≠ [])
    (reaches : origin ∈ (raised env i code begun).reaching name) :
    w.Reaches (finalIndex i code handlers orelse) name origin := by
  cases final with
  | none => exact absurd rfl present
  | some clause =>
    obtain ⟨_, _, _, _, frames⟩ := tries _ _ (.second .refl)
    refine frames.reaches allowed plain (blockExtent_pos present) ?_
    rw [Plan.finished, Option.isSome_some, if_pos rfl, Plan.run, stops_tried]
    exact State.below_merge_right _ _ name origin reaches

omit allowed in
/-- Each `except` clause begins with what is there where an error may be raised, and with its head
bound. -/
theorem Tries.caught (settled : p.pending = []) {earlier later : List (Handler Node)}
    {h : Handler Node} (split : handlers = earlier ++ h :: later) :
    ∃ q a b c d, (raised env i code begun).Binds i (headNames h) q.state ∧
      (raised env i code begun).Supplies i q.state ∧
      (blockPlan (some i) (handlerIndex i code earlier) h.body).Frames env (some i) a b p w q
      c d := by
  have comes := Plan.comes_handlerPlan env i (i + 1 + blockExtent code) earlier h later
    (((eachPlan (some i) (i + 1) code).run env begun).resume (raised env i code begun))
  rw [← split] at comes
  obtain ⟨q, state, comes⟩ := comes
  have state : q.state = raised env i code begun := state
  have some : handlers.isEmpty = false := by simp [split]
  obtain ⟨a, b, c, d, frames⟩ := tries _ _ (.first ((comes.caught some).finished _))
  have does := Progress.does_acts env i (catchActions h.header h.type h.name)
    (frames.settled settled)
  rw [parts_catchActions, kills_catchActions] at does
  refine ⟨_, a, b, c, d, ?_, ?_, frames.opened⟩
  · exact state ▸ does.binds
  · exact state ▸ ((Progress.Draws.start i q).acts env _).state

section Handlers

variable (others : ∀ h ∈ handlers, ∀ c ∈ h.body, c.ModuleFree) (settled : p.pending = [])
  {earlier later : List (Handler Node)} {h : Handler Node}
  (split : handlers = earlier ++ h :: later)

include others settled split

/-- What is there when the block of an `except` clause is entered and not bound by its head has been
there before, or it is there where an error may be raised. -/
theorem Tries.handler
    (carries : w.Carries (handlerIndex i code earlier) (blockExtent h.body) name origin)
    (other : origin ≠ .statement i) : origin ∈ (raised env i code begun).reaching name ∨
      p.Carries (handlerIndex i code earlier) (blockExtent h.body) name origin := by
  obtain ⟨q, _, _, _, _, _, supplies, frames⟩ := tries.caught settled split
  exact (frames.carries allowed (others h (by simp [split])) carries).imp_left fun now =>
    (supplies name origin now).resolve_right other

/-- What is there where an error may be raised reaches the block of an `except` clause. -/
theorem Tries.handled (present : h.body ≠ []) (free : name ∉ headNames h)
    (reaches : origin ∈ (raised env i code begun).reaching name) :
    w.Reaches (handlerIndex i code earlier) name origin := by
  obtain ⟨q, _, _, _, _, binds, _, frames⟩ := tries.caught settled split
  exact frames.reaches allowed (others h (by simp [split])) (blockExtent_pos present)
    ((binds name).2 free origin reaches)

end Handlers

end Tries

/-- What is there in front of the clauses of a `try` statement has been recorded to reach them. -/
def Caught (i : Nat) (code : List Node) (handlers : List (Handler Node))
    (orelse final : Option (Clause Node)) (p : Progress) : Prop :=
  ∀ name origin, InFront i code handlers orelse name origin
      (fun first length => p.Carries first length name origin)
      (fun k => ∃ f, p.facts[k]? = some f ∧ f.dynamic = false) →
    AtClauses i code handlers orelse final name fun k => p.Reaches k name origin

/-- Nothing has been recorded yet. -/
theorem Caught.start {handlers : List (Handler Node)} {orelse final : Option (Clause Node)}
    (s : State) : Caught i code handlers orelse final (.start s) := by
  intro name origin front
  have none : ∀ first length, ¬ (Progress.start s).Carries first length name origin := by
    rintro _ _ (⟨_, f, found, _⟩ | ⟨⟨k, _, _, ⟨f, found, _⟩ | ⟨head, found, _⟩⟩, _⟩)
    all_goals simp [Progress.start] at found
  rcases front with ⟨_, _, _, _, carries | ⟨_, _, _, f, found, _⟩⟩ | ⟨_, _, _, _, _,
    carries⟩ | carries
  · exact absurd carries (none _ _)
  · simp [Progress.start] at found
  · exact absurd carries (none _ _)
  · exact absurd carries (none _ _)

/-- Every visit of a `try` statement keeps that the clauses meet what is there in front of them. -/
theorem upheld_caught {env : Env} (allowed : 0 < env.passes) :
    Upheld env fun i n p => ∀ loc header code handlers orelse final,
      n = .attempt loc header code handlers orelse final →
      Caught i code handlers orelse final p where
  within {i n p q} alike _ caught loc header code handlers orelse final same := by
    subst same
    have ends : i + (Node.attempt loc header code handlers orelse final).extent =
        finalIndex i code handlers orelse + (Node.clauseStatements final).length := by
      rw [extent_attempt, finalIndex, handlerIndex]
      omega
    rw [ends] at alike
    intro name origin front
    refine (caught loc header code handlers orelse final rfl name origin (front.imp ?_ ?_)).imp ?_
    · exact fun first length above below =>
        .congr (alike.mono (Nat.le_of_lt above) (Nat.le_add_right_of_le below))
    · rintro k above below ⟨f, found, known⟩
      exact ⟨f, (alike k (Nat.le_of_lt above) (Nat.lt_add_right _ below)).1 ▸ found, known⟩
    · exact fun k above below => .congr (congrArg _ (alike k (Nat.le_of_lt above) below).1)
  visit plain parent i p fits settled caught loc header code handlers orelse final same := by
    subst same
    have caught := caught loc header code handlers orelse final rfl
    have tries := tries_nodePlan allowed plain parent fits
    have grows := (spans_run allowed (stands_nodePlan plain none parent i) outermost fits).persists
    obtain ⟨body, others, last, ends⟩ :=
        Node.forall_clauseBlocks_attempt.mp fun block among c member =>
      plain.inside among member
    intro name origin front
    -- What is there now reaches the clauses in this visit; what was there before has reached them.
    suffices origin ∈ (raised env i code (p.enter parent i _)).reaching name ∨
        InFront i code handlers orelse name origin
          (fun first length => p.Carries first length name origin) (fun _ => False) by
      rcases this with now | before
      · exact ⟨fun _ _ _ split present free => tries.handled allowed others settled split present
          free now, fun present => tries.finally allowed ends present now⟩
      · refine (caught name origin (before.imp (fun _ _ _ _ => id) fun _ _ _ => False.elim)).imp ?_
        rintro k _ _ ⟨f, found, reaches⟩
        obtain ⟨g, foundG, above⟩ := grows k f found
        exact ⟨g, foundG, above.entry name origin reaches⟩
    rcases front with ⟨before, c, after, split, carries | own⟩ | ⟨_, _, _, split, other,
      carries⟩ | carries
    · exact (tries.step allowed body split carries).imp_right fun earlier =>
        Or.inl ⟨before, c, after, split, Or.inl earlier⟩
    · obtain ⟨flat, member, rfl, f, found, known⟩ := own
      exact Or.inl (tries.binds split flat member found known settled)
    · exact (tries.handler allowed others settled split carries other).imp_right fun earlier =>
        Or.inr (Or.inl ⟨_, _, _, split, other, earlier⟩)
    · exact (tries.otherwise allowed last carries).imp_right fun earlier => Or.inr (Or.inr earlier)

namespace Result

/-- An origin reaches a name at the statement with an index. -/
def Reaches (r : Result) (k : Nat) (name : String) (origin : Origin) : Prop :=
  ∃ f, r.statements[k]? = some f ∧ origin ∈ f.reaching name

instance (r : Result) (k : Nat) (name : String) (origin : Origin) :
    Decidable (r.Reaches k name origin) :=
  decidable_of_iff (∃ f ∈ r.statements[k]?, origin ∈ f.reaching name) Iff.rfl

/-- An origin reaches a name at some statement of a stretch and is there when the stretch is
entered: the statement is the first one, or the origin does not stand in the stretch. -/
def Enters (r : Result) (first length : Nat) (name : String) (origin : Origin) : Prop :=
  ∃ k, first ≤ k ∧ k < first + length ∧ r.Reaches k name origin ∧
    (k = first ∨ ∀ j, first ≤ j → j < first + length → origin ≠ .statement j)

theorem Enters.carries {r : Result} (facts : p.facts = r.statements)
    (enters : r.Enters first length name origin) : p.Carries first length name origin := by
  obtain ⟨k, above, below, reaches, entry⟩ := enters
  rw [Reaches, ← facts] at reaches
  rcases entry with rfl | outside
  · exact Or.inl ⟨by omega, reaches⟩
  · exact Or.inr ⟨⟨k, above, below, Or.inl reaches⟩, outside⟩

end Result

/-- **Errors may leave the body of a `try` statement between any two of its statements.** Whatever
reaches a name at a statement of the body, or at one in its blocks, and is there when the statement
of the body is entered, reaches the name at the first statement of each `except` clause whose head
does not bind it, and of the `finally` clause. So does what a statement of the body without blocks
binds itself, unless it runs unknown code; what is there when the block of an `except` clause is
entered, unless the head of the clause binds it; and what is there when the `else` clause is
entered. -/
theorem reaches_clauses {settings : Settings} {writes : GlobalWrites} {tree : Node} {r : Result}
    (analyzed : analyze settings writes tree = .ok r) {i : Nat} {f : StatementFacts}
    (found : r.statements[i]? = some f) {loc header : Location} {code : List Node}
    {handlers : List (Handler Node)} {orelse final : Option (Clause Node)}
    (tried : f.node = .attempt loc header code handlers orelse final) (name : String)
    (origin : Origin) (front : InFront i code handlers orelse name origin
      (fun first length => r.Enters first length name origin)
      (fun k => ∃ g, r.statements[k]? = some g ∧ g.dynamic = false)) :
    AtClauses i code handlers orelse final name fun k => r.Reaches k name origin := by
  obtain ⟨p, facts, caught⟩ := upheld_analyze analyzed (upheld_caught (passLimit_pos _ _ _))
    fun _ _ _ _ _ _ _ _ _ => .start ∅
  have caught := caught f (Array.mem_of_getElem? found) loc header code handlers orelse final tried
  rw [(regular_analyze analyzed).index i f found] at caught
  have told : ∀ {k}, p.Reaches k name origin → r.Reaches k name origin := by
    intro k reaches
    rw [Progress.Reaches, facts] at reaches
    exact reaches
  refine (caught name origin (front.imp (fun _ _ _ _ => Result.Enters.carries facts) ?_)).imp
    fun _ _ _ => told
  rw [facts]
  exact fun _ _ _ => id

/-- `x = k`. -/
def assignsX : Node :=
  .assign default [.name default "x"] (some (.name default "k")) none none false

/-- `x`. -/
def usesX : Node :=
  .expression default (.name default "x")

/-- In a `while` loop, `try:` with `x = k` and then `if c:` with `x` and `x = k` inside, `except E:`
with `x`, and `finally:` with `x`. -/
def triedLoop : Node :=
  .module default
    [.whileLoop default default (.name default "c")
      [.attempt default default
        [assignsX, .branch default default (.name default "c") [usesX, assignsX] [] none]
        [⟨default, [usesX], some (.name default "E"), none⟩] none (some ⟨default, [usesX]⟩)] none]

/-- What the body assigns in front of an `if` statement reaches both clauses, although the `if`
statement may replace it. -/
theorem reaches_clauses_tried_loop :
    ∃ r f, analyze ⟨∅, ∅⟩ ∅ triedLoop = .ok r ∧ r.statements[1]? = some f ∧
      r.Enters 3 3 "x" (.statement 2) ∧ r.Reaches 6 "x" (.statement 2) ∧
      r.Reaches 7 "x" (.statement 2) := by
  have analyzed : analyze ⟨∅, ∅⟩ ∅ triedLoop = .ok (analyzeBlock ⟨∅, ∅⟩ ∅ triedLoop.code) := rfl
  have enters : (analyzeBlock ⟨∅, ∅⟩ ∅ triedLoop.code).Enters 3 3 "x" (.statement 2) := by
    refine ⟨4, by decide, by decide, by decide +kernel, Or.inr fun j above _ same => ?_⟩
    obtain rfl := Origin.statement.inj same
    exact absurd above (by decide)
  have plain : ∀ c ∈ triedLoop.code, c.ModuleFree := Node.plain_of_blockFault (by decide)
  obtain ⟨f, found, held⟩ := held_analyzeBlock ⟨∅, ∅⟩ ∅ plain (i := 1) rfl
  obtain ⟨meets, ends⟩ := reaches_clauses analyzed found held.node "x" (.statement 2)
    (Or.inl ⟨[assignsX], _, [], rfl, Or.inl enters⟩)
  refine ⟨_, f, analyzed, found, enters, ?_, ?_⟩
  · exact meets [] _ [] rfl (by decide) (by decide)
  · exact ends (by decide)

/-- `try:` with `if c:` around `x = k`, `x` and `x = k`, and `except E:` with `x`. -/
def nestedBody : Node :=
  .module default
    [.attempt default default
      [.branch default default (.name default "c") [assignsX, usesX, assignsX] [] none]
      [⟨default, [usesX], some (.name default "E"), none⟩] none none]

/-- `try:` with `x`, a further clause with `x = k`, `x` and `x = k`, and `finally:` with `x`. -/
def lastClause (handlers : List (Handler Node)) (orelse : Option (Clause Node)) : Node :=
  .module default [.attempt default default [usesX] handlers orelse (some ⟨default, [usesX]⟩)]

/-- An assignment that a block inside the body, an `except` clause or an `else` clause replaces
again is seen by no clause behind it, though an error may be raised while it holds. -/
theorem replaced_assignment_missed :
    (∃ r, analyze ⟨∅, ∅⟩ ∅ nestedBody = .ok r ∧ r.Reaches 3 "x" (.statement 2) ∧
      ¬ r.Reaches 5 "x" (.statement 2)) ∧
    (∃ r, analyze ⟨∅, ∅⟩ ∅
        (lastClause [⟨default, [assignsX, usesX, assignsX], none, none⟩] none) = .ok r ∧
      r.Reaches 3 "x" (.statement 2) ∧ ¬ r.Reaches 5 "x" (.statement 2)) ∧
    (∃ r, analyze ⟨∅, ∅⟩ ∅ (lastClause [] (some ⟨default, [assignsX, usesX, assignsX]⟩)) = .ok r ∧
      r.Reaches 3 "x" (.statement 2) ∧ ¬ r.Reaches 5 "x" (.statement 2)) := by
  refine ⟨⟨_, rfl, ?_⟩, ⟨_, rfl, ?_⟩, ⟨_, rfl, ?_⟩⟩
  all_goals decide +kernel

end Lineage.Flow
