import Lineage.Proofs.Flow.Confine
import Lineage.Proofs.Flow.Regular

/-!
What every visit of a statement keeps holds in the end. A property of a statement may speak of what
is recorded about the statement and those in its blocks. Nothing but a visit of the statement
touches these records, so if each visit of the statement keeps the property, it holds of all
statements of a block however often they are visited.
-/

namespace Lineage.Flow

variable {a b : Nat} {p q : Progress} {s : State} {n : Node}

/-- The same is recorded about the statements between two indices. -/
def Progress.Alike (a b : Nat) (p q : Progress) : Prop :=
  ∀ k, a ≤ k → k < b → q.facts[k]? = p.facts[k]? ∧ q.heads[k]? = p.heads[k]?

theorem Progress.Alike.trans {r : Progress} (first : p.Alike a b q) (second : q.Alike a b r) :
    p.Alike a b r := by
  intro k above below
  obtain ⟨facts, heads⟩ := first k above below
  obtain ⟨factsR, headsR⟩ := second k above below
  exact ⟨factsR.trans facts, headsR.trans heads⟩

theorem Progress.Alike.mono {c d : Nat} (alike : p.Alike a b q) (least : a ≤ c) (most : d ≤ b) :
    p.Alike c d q :=
  fun k above below => alike k (Nat.le_trans least above) (Nat.lt_of_lt_of_le below most)

/-- What is recorded stays recorded. -/
def Progress.Persists (p q : Progress) : Prop :=
  ∀ (k : Nat) (f : StatementFacts), p.facts[k]? = some f → ∃ g, q.facts[k]? = some g ∧ f.Grows g

theorem Progress.Persists.trans {r : Progress} (first : p.Persists q) (second : q.Persists r) :
    p.Persists r := by
  intro k f found
  obtain ⟨g, foundG, grows⟩ := first k f found
  obtain ⟨h, foundH, more⟩ := second k g foundG
  exact ⟨h, foundH, grows.trans more⟩

theorem Progress.Persists.refl (p : Progress) : p.Persists p :=
  fun _ f found => ⟨f, found, .refl f⟩

theorem persists_enter (parent : Option Nat) (i : Nat) (n : Node) (p : Progress) :
    p.Persists (p.enter parent i n) :=
  fun _ _ found => grows_enter parent i n p found

/-- A property of a statement with its index that is kept. It depends on nothing but what is
recorded about the statement and those inside it, and on which statements other facts are of; and
every visit of the statement keeps it. -/
structure Upheld (env : Env) (good : Nat → Node → Progress → Prop) : Prop where
  within : ∀ {i n p q}, p.Alike i (i + n.extent) q → p.Persists q → good i n p → good i n q
  visit : ∀ {n}, n.ModuleFree → ∀ parent i p, i ≤ p.facts.size → p.pending = [] →
    good i n p → good i n ((nodePlan parent i n).run env p)

theorem Upheld.resume {env : Env} {good : Nat → Node → Progress → Prop} (upheld : Upheld env good)
    {i : Nat} (s : State) (held : good i n p) : good i n (p.resume s) :=
  upheld.within (p := p) (q := p.resume s) (fun _ _ _ => ⟨rfl, rfl⟩) (.refl p) held

theorem upheld_trivial (env : Env) : Upheld env fun _ _ _ => True :=
  ⟨fun _ _ _ => trivial, fun _ _ _ _ _ _ _ => trivial⟩

/-- From the first to the second the statements between two indices are visited, in the statement
`own`. Apart from them nothing is recorded but about that statement, and not even there what reaches
it. None of the statements that are listed between the indices reaches beyond them, and what holds
of these is kept. -/
structure Minds (good : Nat → Node → Progress → Prop) (nodes : Nat → Option Node) (own : Option Nat)
    (a b : Nat) (p q : Progress) : Prop where
  before : ∀ k, own = some k → k < a
  reach : b ≤ q.facts.size
  persists : p.Persists q
  settled : p.pending = [] → q.pending = []
  frame : ∀ k, own ≠ some k → (k < a ∨ b ≤ k) → q.facts[k]? = p.facts[k]? ∧
    q.heads[k]? = p.heads[k]?
  entries : ∀ k, own = some k → q.facts[k]?.map StatementFacts.entry =
    p.facts[k]?.map StatementFacts.entry
  whole : ∀ k n, nodes k = some n → a ≤ k → k < b → k + n.extent ≤ b
  keeps : p.pending = [] → ∀ k n, nodes k = some n → a ≤ k → k < b → good k n p → good k n q

/-- From the first to the second nothing is recorded but about the statement that is at work, and
nothing about what reaches it. -/
structure Progress.Touches (i : Nat) (p q : Progress) : Prop where
  size : q.facts.size = p.facts.size
  persists : p.Persists q
  settled : p.pending = [] → q.pending = []
  entry : q.facts[i]?.map StatementFacts.entry = p.facts[i]?.map StatementFacts.entry
  frame : ∀ k, k ≠ i → q.facts[k]? = p.facts[k]? ∧ q.heads[k]? = p.heads[k]?

namespace Progress

variable {i : Nat} {p q r : Progress}

/-- The state and the jumps are no records. -/
theorem touches_of_eq (i : Nat) (p q : Progress) (facts : q.facts = p.facts)
    (heads : q.heads = p.heads) (pending : q.pending = p.pending) : Touches i p q where
  size := by rw [facts]
  persists k f found := ⟨f, by rwa [facts], .refl f⟩
  settled := by
    rw [pending]
    exact id
  entry := by rw [facts]
  frame k _ := by
    rw [facts, heads]
    exact ⟨rfl, rfl⟩

theorem Works.persists (works : Works i p q) : p.Persists q := by
  intro k f found
  by_cases same : k = i
  · subst same
    exact works.own f found
  · exact ⟨f, (works.frame k same).trans found, .refl f⟩

theorem Draws.entry (draws : Draws s i p q) :
    q.facts[i]?.map StatementFacts.entry = p.facts[i]?.map StatementFacts.entry := by
  cases found : p.facts[i]? with
  | none =>
    have outside := Array.getElem?_eq_none_iff.mp found
    rw [← draws.works.size] at outside
    rw [Array.getElem?_eq_none outside]
  | some f =>
    obtain ⟨g, foundG, _⟩ := draws.works.own f found
    rw [foundG, Option.map_some, Option.map_some, (draws.own f g found foundG).1]

theorem Draws.touches (draws : Draws s i p q) (settled : p.pending = [] → q.pending = []) :
    Touches i p q where
  size := draws.works.size
  persists := draws.works.persists
  settled := settled
  entry := draws.entry
  frame k other := ⟨draws.works.frame k other, by rw [draws.heads]⟩

theorem touches_leave (i : Nat) (n : Node) (entry : State) (q : Progress) :
    Touches i q (q.leave i n entry) := by
  have draws :=
    (Draws.refl i (State.supplies_of_below (State.below_merge_left q.state entry))).leave n
    (State.supplies_of_below (State.below_merge_right q.state entry))
  exact draws.touches fun settled => (pending_leave i n entry q).trans settled

theorem Touches.alike (touches : Touches i p q) {least most : Nat} (above : i < least) :
    p.Alike least most q :=
  fun k _ _ => touches.frame k (by omega)

theorem Touches.trans (first : Touches i p q) (second : Touches i q r) : Touches i p r where
  size := second.size.trans first.size
  persists := first.persists.trans second.persists
  settled := second.settled ∘ first.settled
  entry := second.entry.trans first.entry
  frame k other := by
    obtain ⟨facts, heads⟩ := first.frame k other
    obtain ⟨factsR, headsR⟩ := second.frame k other
    exact ⟨factsR.trans facts, headsR.trans heads⟩

end Progress

namespace Minds

variable {env : Env} {good : Nat → Node → Progress → Prop} {nodes : Nat → Option Node}
  {own : Option Nat} {a b c i : Nat} {p q r : Progress}

/-- What is recorded about statements elsewhere stays the same. -/
theorem alike (minds : Minds good nodes own a b p q) {least most : Nat}
    (above : ∀ k, own = some k → k < least) (apart : most ≤ a ∨ b ≤ least) :
    p.Alike least most q := by
  intro k least most
  refine minds.frame k (fun same => ?_) (by omega)
  have := above k same
  omega

theorem refl (before : ∀ k, own = some k → k < a) (fits : a ≤ p.facts.size) :
    Minds good nodes own a a p p where
  before := before
  reach := fits
  persists := .refl p
  settled := id
  frame _ _ _ := ⟨rfl, rfl⟩
  entries _ _ := rfl
  whole _ _ _ above below := absurd above (Nat.not_le.mpr below)
  keeps _ _ _ _ above below := absurd above (Nat.not_le.mpr below)

theorem again (first : Minds good nodes own a b p q) (second : Minds good nodes own a b q r) :
    Minds good nodes own a b p r :=
  { second with
    frame := fun k other outside => by
      obtain ⟨facts, heads⟩ := first.frame k other outside
      obtain ⟨factsR, headsR⟩ := second.frame k other outside
      exact ⟨factsR.trans facts, headsR.trans heads⟩
    persists := first.persists.trans second.persists
    settled := second.settled ∘ first.settled
    entries := fun k working => (second.entries k working).trans (first.entries k working)
    keeps := fun settled k n here above below held =>
      second.keeps (first.settled settled) k n here above below
        (first.keeps settled k n here above below held) }

/-- Visits of statements one behind the other. -/
theorem append (upheld : Upheld env good) (first : Minds good nodes own a b p q)
    (second : Minds good nodes own b c q r) (le : a ≤ b) (more : b ≤ c) :
    Minds good nodes own a c p r where
  before := first.before
  reach := second.reach
  persists := first.persists.trans second.persists
  settled := second.settled ∘ first.settled
  entries k working := (second.entries k working).trans (first.entries k working)
  frame k other outside := by
    obtain ⟨facts, heads⟩ := first.frame k other (by omega)
    obtain ⟨factsR, headsR⟩ := second.frame k other (by omega)
    exact ⟨factsR.trans facts, headsR.trans heads⟩
  whole k n here above below := by
    by_cases early : k < b
    · exact Nat.le_trans (first.whole k n here above early) more
    · exact second.whole k n here (Nat.le_of_not_lt early) below
  keeps settled k n here above below held := by
    have before := fun j same => Nat.lt_of_lt_of_le (first.before j same) above
    by_cases early : k < b
    · exact upheld.within (second.alike before (Or.inl (first.whole k n here above early)))
        second.persists (first.keeps settled k n here above early held)
    · refine second.keeps (first.settled settled) k n here (Nat.le_of_not_lt early) below ?_
      exact upheld.within (first.alike before (Or.inr (Nat.le_of_not_lt early))) first.persists held

theorem of_touches (good : Nat → Node → Progress → Prop) (nodes : Nat → Option Node) (below : i < a)
    (touches : p.Touches i q) (fits : a ≤ p.facts.size) : Minds good nodes (some i) a a p q where
  before _ same := Option.some.inj same ▸ below
  reach := touches.size ▸ fits
  persists := touches.persists
  settled := touches.settled
  frame k other _ := touches.frame k fun same => other (congrArg some same.symm)
  entries _ same := Option.some.inj same ▸ touches.entry
  whole _ _ _ above below := absurd above (Nat.not_le.mpr below)
  keeps _ _ _ _ above below := absurd above (Nat.not_le.mpr below)

section

variable (upheld : Upheld env good)

include upheld

theorem then_touches (minds : Minds good nodes (some i) a b p q) (touches : q.Touches i r)
    (le : a ≤ b) : Minds good nodes (some i) a b p r :=
  minds.append upheld (of_touches good nodes (Nat.lt_of_lt_of_le (minds.before i rfl) le) touches
    minds.reach) le (Nat.le_refl b)

theorem after_touches (touches : p.Touches i q) (minds : Minds good nodes (some i) a b q r)
    (fits : a ≤ p.facts.size) (le : a ≤ b) : Minds good nodes (some i) a b p r :=
  (of_touches good nodes (minds.before i rfl) touches fits).append upheld minds (Nat.le_refl a) le

theorem resume (minds : Minds good nodes own a b p q) (s : State) :
    Minds good nodes own a b p (q.resume s) :=
  { minds with
    keeps := fun settled k n here above below held => upheld.resume s
      (minds.keeps settled k n here above below held) }

theorem of_resume (minds : Minds good nodes own a b (p.resume s) q) :
    Minds good nodes own a b p q :=
  { minds with
    keeps := fun settled k n here above below held => minds.keeps settled k n here above below
      (upheld.resume s held) }

/-- A statement is entered, and then its blocks are visited. -/
theorem enclose (plain : n.ModuleFree) (here : ∀ m, nodes i = some m → m = n)
    (before : ∀ k, own = some k → k < i) {parent : Option Nat} (fits : i ≤ p.facts.size)
    (inner : Minds good nodes (some i) (i + 1) b (p.enter parent i n) q)
    (run : (nodePlan parent i n).run env p = q) (ends : b = i + n.extent) :
    Minds good nodes own i b p q := by
  subst ends
  have entered := persists_enter parent i n p
  have some : 0 < n.extent := Nat.succ_pos _
  have frame : ∀ k, k < i ∨ i + n.extent ≤ k → q.facts[k]? = p.facts[k]? ∧
      q.heads[k]? = p.heads[k]? := by
    intro k outside
    have other : k ≠ i := by omega
    obtain ⟨facts, heads⟩ := inner.frame k (fun same => other (Option.some.inj same).symm)
      (by omega)
    rw [heads_enter] at heads
    exact ⟨facts.trans (frame_enter _ n fits other), heads⟩
  refine ⟨before, inner.reach, entered.trans inner.persists, fun settled => ?_, fun k _ => frame k,
    fun k own => ?_, fun k m found above below => ?_, fun settled k m found above below held => ?_⟩
  · exact inner.settled ((pending_enter parent i n p).trans settled)
  · rw [(frame k (Or.inl (before k own))).1]
  · by_cases same : k = i
    · subst same
      exact Nat.le_of_eq (by rw [here m found])
    · exact inner.whole k m found (by omega) below
  · by_cases same : k = i
    · subst same
      rw [here m found] at held ⊢
      exact run ▸ upheld.visit plain parent k p fits settled held
    · refine inner.keeps ((pending_enter parent i n p).trans settled) k m found (by omega) below ?_
      refine upheld.within (fun j above _ => ?_) entered held
      rw [heads_enter]
      exact ⟨frame_enter _ n fits (by omega), rfl⟩

end

end Minds

/-! ### Visits -/

/-- What holds of statements is kept, and what is recorded elsewhere stays as it is. -/
def PlanInvariant.minds (good : Nat → Node → Progress → Prop) (nodes : Nat → Option Node) :
    PlanInvariant where
  ready own a _ p := a ≤ p.facts.size ∧ ∀ k, own = some k → k < a
  fits _ _ := True
  leads own a b _ p q := a ≤ b ∧ Minds good nodes own a b p q

section Visits

variable {env : Env} {good : Nat → Node → Progress → Prop} (upheld : Upheld env good)
  {nodes : Nat → Option Node}

include upheld

theorem PlanInvariant.kept_minds {fine : Action → Prop} : (PlanInvariant.minds good nodes).Kept env
    (fun _ i n => (∀ m, nodes i = some m → m = n) ∧ n.ModuleFree) fine where
  merge _ _ := trivial
  state _ := trivial
  head _ _ := trivial
  jumps _ _ _ _ := trivial
  ends _ := trivial
  mono _ _ := trivial
  less ready _ := ready
  next leads _ ready := ⟨leads.2.reach, fun k same => Nat.lt_of_lt_of_le (ready.2 k same) leads.1⟩
  again leads le ready := ⟨Nat.le_trans le leads.2.reach, ready.2⟩
  resume ready _ := ready
  aside ready := ready
  nothing ready := ⟨Nat.le_refl _, .refl ready.2 ready.1⟩
  append first second le more := ⟨Nat.le_trans le more, first.2.append upheld second.2 le more⟩
  twice first second := ⟨first.1, first.2.again second.2⟩
  resumed leads _ := ⟨leads.1, leads.2.resume upheld _⟩
  of_resume leads := ⟨leads.1, leads.2.of_resume upheld⟩
  settled {i _ _ _ p q head} ready leads _ := by
    have aside := Progress.touches_of_eq i p { p with breaks := [], continues := [] } rfl rfl rfl
    have noted : q.Touches i (settledAt p i head q) := by
      refine ⟨rfl, .refl q, id, rfl, fun k other => ⟨rfl, ?_⟩⟩
      simp only [settledAt, Std.ExtTreeMap.getElem?_insert, Std.LawfulEqOrd.compare_eq_iff_eq,
        if_neg other.symm]
    exact ⟨leads.1, (leads.2.after_touches upheld aside ready.1 leads.1).then_touches upheld noted
      leads.1⟩
  act _ ready := ⟨Nat.le_refl _, .of_touches good nodes (ready.2 _ rfl)
    ((Progress.draws_act ..).touches fun settled => Progress.pending_act settled ..) ready.1⟩
  enter {_ _ _ n _ _} _ _ _ ready :=
    ⟨le_size_enter _ n ready.1, fun _ same => Option.some.inj same ▸ Nat.lt_succ_self _⟩
  leave {_ _ _ n p _ _} here _ ready leads run :=
    ⟨Nat.le_add_right _ _, .enclose upheld here.2 here.1 ready.2 ready.1
      (leads.2.then_touches upheld (Progress.touches_leave _ n p.state _) leads.1) run rfl⟩
  flat {_ parent i n p} here simple single ready := by
    have performed := ((Progress.Draws.start i (p.enter parent i n)).perform env n).touches
      fun settled => (Progress.does_perform env i n settled).settled
    have inner := Minds.of_touches good nodes (Nat.lt_succ_self i)
      (performed.trans (Progress.touches_leave i n p.state _)) (le_size_enter parent n ready.1)
    exact ⟨Nat.le_succ i, inner.enclose upheld here.2 here.1 ready.2 ready.1
      (by rw [nodePlan_flat simple, Plan.run]) (by rw [single])⟩

/-- What holds while nothing is recorded, and what every visit keeps, holds of all statements of a
block in the end. -/
theorem upheld_visitBlock (allowed : 0 < env.passes) {code : List Node}
    (plain : ∀ c ∈ code, c.ModuleFree) (fresh : ∀ i n, good i n (.start s)) {k : Nat}
    (here : statementAt code k = some n) : good k n (visitBlock env none 0 code (.start s)) := by
  have all : Goods (fun _ i n => (∀ m, statementAt code i = some m → m = n) ∧ n.ModuleFree)
      (blockPlaces none 0 code) := by
    intro place among
    have stated := stated_blockPlaces ∅ [] among
    exact ⟨fun m found => Option.some.inj (found.symm.trans stated.here),
      Node.throughout_block plain (mem_blockPlaces among).2.2⟩
  have lies : (blockPlan none 0 code).Lies _ (fun _ => True) none 0 (0 + blockExtent code) :=
    standing_blockPlan
      (fun c member => standing (fun _ _ _ _ _ _ => trivial) c (plain c member)) all
  have minds := ((PlanInvariant.kept_minds upheld).run (p := .start s) allowed lies
    ⟨Nat.zero_le _, nofun⟩).1.2
  rw [visitBlock_eq_plan]
  refine minds.keeps rfl k n here (Nat.zero_le k) ?_ (fresh k n)
  rw [Nat.zero_add]
  exact (List.getElem?_eq_some_iff.mp here).1

end Visits

/-! ### What a visit leaves alone -/

/-- From the first to the second the statements between two indices are visited, in the statement
`own`. -/
abbrev Spans (own : Option Nat) (a b : Nat) (p q : Progress) : Prop :=
  Minds (fun _ _ _ => True) (fun _ => none) own a b p q

/-- No statement is around. -/
theorem outermost : ∀ k, (none : Option Nat) = some k → k < a :=
  fun _ same => absurd same.symm (Option.some_ne_none _)

section Spans

variable {env : Env} (allowed : 0 < env.passes) {own : Option Nat} {i k : Nat} {n : Node}
  {code : List Node} {p : Progress}

/-- A plan without modules stands between two indices. It does nothing for the statement around it
but to evaluate and bind. -/
abbrev Plan.Stands (s : Plan) (own : Option Nat) (a b : Nat) : Prop :=
  s.Lies (fun _ _ m => (∀ m', (none : Option Node) = some m' → m' = m) ∧ m.ModuleFree)
    (Action.Binds fun _ => True) own a b

theorem stands_nodePlan (plain : n.ModuleFree) (own parent : Option Nat) (i : Nat) :
    (nodePlan parent i n).Stands own i (i + n.extent) := by
  obtain ⟨around, rfl⟩ := exists_around parent
  refine standing (fun _ _ n _ a member => (binds_headActions n a member).mono fun _ _ => trivial) n
    plain own around i fun place member => ?_
  refine ⟨fun _ found => absurd found.symm (Option.some_ne_none _), ?_⟩
  rcases List.mem_cons.mp member with rfl | inside
  · exact plain
  · exact plain.below (mem_innerPlaces inside).2.2

theorem stands_blockPlan (plain : ∀ c ∈ code, c.ModuleFree) (own parent : Option Nat) (i : Nat) :
    (blockPlan parent i code).Stands own i (i + blockExtent code) := by
  induction code generalizing i with
  | nil =>
    rw [blockPlan]
    exact .skip
  | cons c rest ih =>
    obtain ⟨first, others⟩ := List.forall_mem_cons.mp plain
    rw [blockPlan, blockExtent_cons, ← Nat.add_assoc]
    exact .seq (stands_nodePlan first own parent i) (ih others _)

include allowed

theorem spans_run {s : Plan} (stands : s.Stands own a b) (before : ∀ k, own = some k → k < a)
    (fits : a ≤ p.facts.size) : Spans own a b p (s.run env p) :=
  ((PlanInvariant.kept_minds (upheld_trivial env)).run allowed stands ⟨fits, before⟩).1.2

/-- What reaches a statement is noted when it is entered. -/
theorem entry_nodePlan (plain : n.ModuleFree) (parent : Option Nat) (fits : i ≤ p.facts.size) :
    ((nodePlan parent i n).run env p).facts[i]?.map StatementFacts.entry =
      (p.enter parent i n).facts[i]?.map StatementFacts.entry := by
  by_cases compound : n.kind.isCompound = true
  · obtain ⟨_, q, _, leads, run⟩ := (PlanInvariant.kept_minds (upheld_trivial env)).node allowed
      compound (stands_nodePlan plain none parent i) ⟨fits, outermost⟩
    rw [run]
    exact (Progress.touches_leave i n p.state q).entry.trans (leads.2.entries i rfl)
  · have performed := (Progress.Draws.start i (p.enter parent i n)).perform env n
    rw [nodePlan_flat (Bool.eq_false_iff.mpr compound), Plan.run]
    exact (Progress.touches_leave i n p.state _).entry.trans performed.entry

end Spans

/-- What holds while nothing is recorded, and what every visit keeps, holds of all statements in the
end. -/
theorem upheld_analyze {settings : Settings} {writes : GlobalWrites} {tree : Node} {r : Result}
    (analyzed : analyze settings writes tree = .ok r) {good : Nat → Node → Progress → Prop}
    (upheld : Upheld (.ofModule settings writes tree.code) good)
    (fresh : ∀ i n, good i n (.start ∅)) : ∃ p : Progress, p.facts = r.statements ∧
    ∀ f ∈ r.statements, good f.index f.node p := by
  obtain ⟨faultless, rfl⟩ := analyze_eq_ok analyzed
  have plain := Node.plain_of_blockFault faultless
  refine ⟨_, rfl, fun f member => ?_⟩
  obtain ⟨k, found⟩ := Array.mem_iff_getElem?.mp member
  obtain ⟨place, spot, held⟩ := exists_place settings writes plain found
  have stated := stated_blockPlaces ∅ [] (List.mem_of_getElem? spot)
  rw [held.index, held.node]
  exact upheld_visitBlock upheld (passLimit_pos _ _ _) plain fresh stated.here

end Lineage.Flow
