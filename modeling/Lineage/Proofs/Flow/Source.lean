import Lineage.Proofs.Flow.Upheld
import Lineage.Proofs.Flow.Parts

/-!
Where the data that a statement depends on comes from. Most of what a statement evaluates it
evaluates where it is entered, so what it depends on reaches it. A few expressions are evaluated
later, in states that are recorded nowhere: the test of a `while` loop and the target of a `for`
loop, whenever the loop comes round, and what an `except` clause catches. The data that only these
ask for may come from statements that do not reach the statement.
-/

namespace Lineage

open List

/-- The expressions of a statement that are evaluated elsewhere than where it is entered. -/
def Node.lateParts : Node → List Node
  | .whileLoop _ _ test _ _ => [test]
  | .forLoop _ _ target _ _ _ _ => target.targetParts
  | .attempt _ _ _ handlers _ _ => handlers.flatMap fun h => h.type.toList
  | _ => []

/-- The names that expressions read; `pure` tells which callees leave the objects they are given
alone. -/
def Node.readNames (pure : Node → Bool) (es : List Node) : List String :=
  es.flatMap fun e => (e.reads pure .bare).map Read.id

namespace Flow

variable {edge : Edge} {env : Env} {j : Nat} {p q : Progress} {f : StatementFacts}

/-- The edge is by one of some names, or all names are among them. -/
def Edge.Asked (edge : Edge) (names : List String) : Prop :=
  edge.kind = .data ∧ ∃ name, edge.name = some name ∧ (name ∈ names ∨ allNames ∈ names)

namespace StatementFacts

theorem inbound_dependOn {kind : EdgeKind} {source : StatementFacts} {name : Option String}
    (member : edge ∈ (f.dependOn kind source name).inbound) :
    edge ∈ f.inbound ∨ edge.kind = kind ∧ edge.name = name := by
  unfold dependOn at member
  split at member
  · exact Or.inl member
  · rcases eq_or_mem_of_mem_addNew member with rfl | before
    · exact Or.inr ⟨rfl, rfl⟩
    · exact Or.inl before

theorem inbound_useOrigin {all : Array StatementFacts} {name : String} {origin : Origin}
    (member : edge ∈ (f.useOrigin all name origin).inbound) :
    edge ∈ f.inbound ∨ edge.kind = .data ∧ edge.name = some name := by
  cases origin with
  | parameter => exact Or.inl member
  | entry => exact Or.inl member
  | statement k =>
    rw [useOrigin] at member
    split at member
    · exact Or.inl member
    · exact inbound_dependOn member

theorem inbound_use {all : Array StatementFacts} {s : State} {u : Use}
    (member : edge ∈ (f.use all s u).inbound) : edge ∈ f.inbound ∨ edge.Asked [u.name] := by
  unfold use at member
  split at member
  · rename_i everything
    rcases (gets_useEverything all s f).inbound edge member with before | ⟨name, _, _, kind,
      named, _⟩
    · exact Or.inl before
    · exact Or.inr ⟨kind, name, named, Or.inr (List.mem_singleton.mpr everything.symm)⟩
  · have folded : ∀ (origins : List Origin) (g : StatementFacts),
        edge ∈ (origins.foldl (fun f origin => f.useOrigin all u.name origin) g).inbound →
          edge ∈ g.inbound ∨ edge.kind = .data ∧ edge.name = some u.name := by
      intro origins
      induction origins with
      | nil => exact fun g => Or.inl
      | cons origin rest ih =>
        intro g member
        rcases ih _ member with before | asked
        · exact inbound_useOrigin before
        · exact Or.inr asked
    rcases folded _ _ member with before | ⟨kind, named⟩
    · exact Or.inl before
    · exact Or.inr ⟨kind, u.name, named, Or.inl (mem_singleton_self _)⟩

end StatementFacts

namespace Progress

/-- From the first to the second a statement works by itself and asks for data by some names. -/
structure Asks (names : List String) (i : Nat) (p q : Progress) : Prop where
  works : Works i p q
  edges : ∀ f g, p.facts[i]? = some f → q.facts[i]? = some g →
    ∀ edge ∈ g.inbound, edge ∈ f.inbound ∨ edge.Asked names

namespace Asks

variable {names : List String} {i : Nat} {p q : Progress}

theorem refl (names : List String) (i : Nat) (p : Progress) : Asks names i p p where
  works := .refl i p
  edges f g found same edge member := by
    obtain rfl := Option.some.inj (found.symm.trans same)
    exact Or.inl member

section

variable (asks : Asks names i p q)

include asks

theorem revise {change : StatementFacts → StatementFacts}
    (grows : ∀ g : StatementFacts, g.Grows (change g))
    (edges : ∀ (g : StatementFacts), ∀ edge ∈ (change g).inbound, edge ∈ g.inbound ∨
    edge.Asked names) : Asks names i p (q.revise i change) where
  works := asks.works.trans (q.works_revise i grows)
  edges f h found foundH edge member := by
    obtain ⟨g, foundG, _⟩ := asks.works.own f found
    rw [Progress.revise, Array.getElem?_modify, if_pos rfl, foundG] at foundH
    obtain rfl := Option.some.inj foundH
    rcases edges g edge member with before | asked
    · exact asks.edges f g found foundG edge before
    · exact Or.inr asked

theorem with_state (s : State) (ds : List Definition) :
    Asks names i p { q with state := s, pending := ds } :=
  { asks with works := asks.works.with_state s ds }

theorem use {u : Use} (among : u.name ∈ names) : Asks names i p (q.use i u) := by
  refine asks.revise (fun g => g.grows_use _ _ u) fun g edge member => ?_
  rcases StatementFacts.inbound_use member with before | ⟨kind, name, named, own | all⟩
  · exact Or.inl before
  · exact Or.inr ⟨kind, name, named, Or.inl (List.mem_singleton.mp own ▸ among)⟩
  · exact Or.inr ⟨kind, name, named, Or.inr (List.mem_singleton.mp all ▸ among)⟩

theorem uses {us : List Use} (among : ∀ u ∈ us, u.name ∈ names) :
    Asks names i p (us.foldl (fun q u => q.use i u) q) := by
  induction us generalizing q with
  | nil => exact asks
  | cons u rest ih =>
    obtain ⟨own, others⟩ := forall_mem_cons.mp among
    exact ih (asks.use own) others

theorem defineAll (ds : List Definition) : Asks names i p (q.defineAll i ds) := by
  induction ds generalizing q with
  | nil => exact asks
  | cons d rest ih =>
    refine ih (Asks.with_state
      (asks.revise (fun g => g.grows_define d) fun g edge member => ?_) _ _)
    exact Or.inl member

theorem read {e : Node} (among : ∀ r ∈ e.reads env.isPure .bare, r.id ∈ names) :
    Asks names i p (q.read env i e) := by
  unfold Progress.read
  refine Asks.with_state (uses ?_ ?_) _ _
  · split
    · refine asks.revise (fun _ => ⟨rfl, rfl, rfl, .refl _, fun _ h => h, fun _ => rfl, rfl⟩)
        fun g edge member => ?_
      exact Or.inl member
    · exact asks
  · intro u member
    obtain ⟨r, reads, rfl⟩ := mem_map.mp member
    exact among r reads

theorem evaluate {es : List Node} (among : Node.readNames env.isPure es ⊆ names) :
    Asks names i p (q.evaluate env i es) := by
  have readAll : Asks names i p (q.readAll env i es) := by
    induction es generalizing q with
    | nil => exact asks
    | cons e rest ih =>
      refine ih (asks.read fun r reads => among ?_) fun name member => among ?_
      · exact mem_append_left _ (mem_map_of_mem reads)
      · exact mem_append_right _ member
  exact (readAll.with_state _ []).defineAll _

/-- What compound statements do at their heads asks for the names that they read there. -/
theorem acts {actions : List Action} (binds : ∀ a ∈ actions, a.Binds fun _ => True)
    (among : Node.readNames env.isPure (actions.flatMap Action.parts) ⊆ names) :
    Asks names i p (q.acts env i actions) := by
  induction actions generalizing q with
  | nil => exact asks
  | cons a rest ih =>
    obtain ⟨first, others⟩ := forall_mem_cons.mp binds
    rw [flatMap_cons, Node.readNames, flatMap_append] at among
    obtain ⟨own, later⟩ := append_subset.mp among
    refine ih ?_ others later
    cases a with
    | evaluate es => exact asks.evaluate own
    | define d => exact asks.defineAll [d]
    | _ => exact first.elim

end

end Asks

end Progress

/-- The edge is by one of the late names, or it comes from a statement that reaches the name that is
read, or may have bound any name. -/
def Edge.From (edge : Edge) (late : List String) (s : State) (p : Progress) : Prop :=
  ∃ name, edge.name = some name ∧ (name ∈ late ∨ allNames ∈ late ∨
    ∃ k source, p.facts[k]? = some source ∧ edge.source = source.location ∧
      (.statement k ∈ s.reaching name ∨ .statement k ∈ s.reaching allNames))

theorem Edge.From.mono {late : List String} {s t : State} (comes : edge.From late s p)
    (below : s.Below t) (persists : p.Persists q) : edge.From late t q := by
  obtain ⟨name, named, late | late | ⟨k, source, found, place, reaches⟩⟩ := comes
  · exact ⟨name, named, Or.inl late⟩
  · exact ⟨name, named, Or.inr (Or.inl late)⟩
  · obtain ⟨g, foundG, grows⟩ := persists k source found
    refine ⟨name, named, Or.inr (Or.inr ⟨k, g, foundG, ?_, ?_⟩)⟩
    · rw [place, StatementFacts.location, StatementFacts.location, grows.node]
    · exact reaches.imp (below name _) (below allNames _)

namespace Progress

/-- From the first to the second the edges on data that a statement gains are by late names or come
from what the state offers. What reaches the statement stays the same. -/
structure Gains (late : List String) (s : State) (i : Nat) (p q : Progress) : Prop where
  persists : p.Persists q
  entry : q.facts[i]?.map StatementFacts.entry = p.facts[i]?.map StatementFacts.entry
  edges : ∀ f g, p.facts[i]? = some f → q.facts[i]? = some g →
    ∀ edge ∈ g.inbound, edge.kind = .data → edge ∈ f.inbound ∨ edge.From late s q

namespace Gains

variable {late : List String} {s : State} {i : Nat} {p q r : Progress}

theorem trans (first : Gains late s i p q) (second : Gains late s i q r) : Gains late s i p r where
  persists := first.persists.trans second.persists
  entry := second.entry.trans first.entry
  edges f h found foundH edge member kind := by
    obtain ⟨g, foundG, _⟩ := first.persists i f found
    rcases second.edges g h foundG foundH edge member kind with before | comes
    · exact (first.edges f g found foundG edge before kind).imp_right
        (·.mono (.refl s) second.persists)
    · exact Or.inr comes

/-- Nothing is recorded about the statement. -/
theorem of_eq (persists : p.Persists q) (same : q.facts[i]? = p.facts[i]?) :
    Gains late s i p q where
  persists := persists
  entry := by rw [same]
  edges f g found foundG edge member _ := by
    rw [same, found] at foundG
    obtain rfl := Option.some.inj foundG
    exact Or.inl member

theorem refl (p : Progress) : Gains late s i p p :=
  .of_eq (.refl p) rfl

theorem of_draws (draws : Draws s i p q) : Gains late s i p q where
  persists := draws.works.persists
  entry := draws.entry
  edges f g found foundG edge member _ := by
    rcases (draws.own f g found foundG).2 edge member with before | ⟨name, k, source, _, named, _,
      foundK, place, reaches⟩
    · exact Or.inl before
    · have comes : edge.From late s p :=
        ⟨name, named, Or.inr (Or.inr ⟨k, source, foundK, place, reaches⟩)⟩
      exact Or.inr (comes.mono (.refl s) draws.works.persists)

theorem of_asks {t : State} (draws : Draws t i p q) (asks : Asks late i p q) :
    Gains late s i p q where
  persists := draws.works.persists
  entry := draws.entry
  edges f g found foundG edge member _ := by
    rcases asks.edges f g found foundG edge member with before | ⟨_, name, named, among⟩
    · exact Or.inl before
    · exact Or.inr ⟨name, named, among.imp_right Or.inl⟩

/-- Only the facts matter. -/
theorem congr (gains : Gains late s i p q) (facts : r.facts = q.facts) : Gains late s i p r := by
  cases q
  cases r
  dsimp only at facts
  subst facts
  exact ⟨gains.persists, gains.entry, gains.edges⟩

theorem resume (gains : Gains late s i p q) (t : State) : Gains late s i p (q.resume t) :=
  gains.congr rfl

/-- The visit of a block behind the statement. -/
theorem of_spans {a b : Nat} (below : i < a) (spans : Spans none a b p q) : Gains late s i p q :=
  of_eq spans.persists (spans.frame i (Option.some_ne_none i).symm (Or.inl below)).1

/-- What a statement uses when it is left is there where it was entered. -/
theorem leave (gains : Gains late s i p q) (n : Node) : Gains late s i p (q.leave i n s) := by
  have draws : Draws s i (q.resume s) ((q.resume s).leave i n s) :=
    (Draws.start i (q.resume s)).leave n (State.supplies_of_below (.refl s))
  have same : ((q.resume s).leave i n s).facts = (q.leave i n s).facts := by
    unfold Progress.leave Progress.resume
    split
    · dsimp only
      split <;> rfl
    · rfl
  exact ((gains.resume s).trans (.of_draws draws)).congr same.symm

end Gains

end Progress

section Visits

variable {env : Env} (allowed : 0 < env.passes) {late : List String} {s : State} {a b i : Nat}
  {plan : Plan}

include allowed

/-- What a plan evaluates for the statement around it, it asks for by the names that are read
there. -/
theorem gains_run (stands : plan.Stands (some i) a b) (below : i < a) (fits : a ≤ p.facts.size)
    (among : Node.readNames env.isPure plan.asks ⊆ late) : p.Gains late s i (plan.run env p) := by
  obtain ⟨own, same, lies⟩ : ∃ own, some i = own ∧ plan.Stands own a b := ⟨_, rfl, stands⟩
  clear stands
  have before : ∀ {c}, a ≤ c → ∀ k, own = some k → k < c := by
    rintro c above k rfl
    exact Option.some.inj same ▸ Nat.lt_of_lt_of_le below above
  induction lies generalizing p with
  | skip => exact .refl p
  | stop => exact .refl p
  | acts _ binds =>
    obtain rfl := Option.some.inj same
    exact .of_asks ((Progress.Draws.start i p).acts env _)
      ((Progress.Asks.refl late i p).acts binds among)
  | flat simple single here => exact .of_spans below (spans_run allowed (.flat simple single here)
      outermost fits)
  | compound compound here shape parts lies =>
    exact .of_spans below (spans_run allowed
        (.compound compound here shape parts lies) outermost fits)
  | cycle compound here shape all parts noBody noElse body orelse =>
    exact .of_spans below
      (spans_run allowed (.cycle compound here shape all parts noBody noElse body
        orelse) outermost fits)
  | seq first second ihFirst ihSecond =>
    rw [Plan.asks, Node.readNames, flatMap_append] at among
    obtain ⟨own, later⟩ := append_subset.mp among
    have spans := spans_run allowed first (before (Nat.le_refl _)) fits
    rw [Plan.run]
    exact (ihFirst below fits own same before).trans (ihSecond
        (Nat.lt_of_lt_of_le below first.le) spans.reach later same
      fun above => before (Nat.le_trans first.le above))
  | protect first second third ihBody ihRescue ihAfter =>
    rw [Plan.asks, Node.readNames, flatMap_append, flatMap_append] at among
    obtain ⟨both, last⟩ := append_subset.mp among
    obtain ⟨own, later⟩ := append_subset.mp both
    have spans := spans_run allowed first (before (Nat.le_refl _)) fits
    have behind := Nat.lt_of_lt_of_le below first.le
    rw [Plan.run]
    generalize State.join _ = raised
    have rescued := ihRescue (p := (Plan.run env _ p).resume raised) behind spans.reach later same
      fun above => before (Nat.le_trans first.le above)
    have reach := (spans_run (p := (Plan.run env _ p).resume raised) allowed
        second (before first.le) spans.reach).reach
    exact (((((ihBody below fits own same before).resume raised).trans rescued).resume (Plan.run
        env _ p).state).trans (ihAfter
      (Nat.lt_of_lt_of_le behind second.le) reach last same
      fun above => before (Nat.le_trans first.le (Nat.le_trans second.le above)))).resume _

/-- Each test is evaluated in what the test before it leaves. -/
theorem gains_elifPlan {elifs : List (Elif Node)} {last : Plan} (none : last.asks = [])
    (lies : (elifPlan i j last elifs).Stands (some i) a b) (below : i < a) (fits : a ≤ p.facts.size)
    (supplies : s.Supplies i p.state) : p.Gains late s i ((elifPlan i j last elifs).run env p) := by
  induction elifs generalizing j a p with
  | nil =>
    rw [elifPlan] at lies ⊢
    exact gains_run allowed lies below fits (none ▸ nil_subset _)
  | cons e rest ih =>
    rw [elifPlan] at lies ⊢
    obtain ⟨c, left, right⟩ : ∃ c, (blockPlan (some i) j e.body).Stands (some i) a c ∧
        (elifPlan i _ last rest).Stands (some i) c b := by
      cases lies with
      | seq first second =>
        cases first
        cases second with
        | protect none left right =>
          cases none
          exact ⟨_, left, right⟩
    have tested := (Progress.Draws.refl i supplies).acts env [.evaluate [e.test]]
    rw [← tested.works.size] at fits
    have visited : Progress.Gains late s i _ _ := gains_run allowed left below fits (by
      rw [asks_blockPlan]
      exact nil_subset _)
    have before : ∀ k, some i = some k → k < a := fun k same => Option.some.inj same ▸ below
    have later := ih (p := Progress.resume _ (p.acts env i [.evaluate [e.test]]).state) right
      (Nat.lt_of_lt_of_le below left.le) (spans_run allowed left before fits).reach tested.state
    rw [Plan.run, Plan.run_fork, Plan.run]
    exact ((((Progress.Gains.of_draws tested).trans visited).resume _).trans later).resume _

omit allowed in
theorem gains_settle {body : Progress → Progress} (later : a ≤ b)
    (pass : ∀ p, a ≤ p.facts.size → b ≤ (body p).facts.size ∧ p.Gains late s i (body p))
    {passes : Nat} (some : 0 < passes) (head : State) (fits : a ≤ p.facts.size) :
    b ≤ (Progress.settle body passes head p).2.facts.size ∧
    p.Gains late s i (Progress.settle body passes head p).2 := by
  induction passes generalizing head p with
  | zero => exact absurd some (Nat.lt_irrefl 0)
  | succ passes ih =>
    obtain ⟨reach, gains⟩ := pass (p.resume head) fits
    have first := ((Progress.Gains.refl p).resume head).trans gains
    rw [Progress.settle]
    split
    · exact ⟨reach, first⟩
    · cases passes with
      | zero => exact ⟨reach, first⟩
      | succ passes =>
        obtain ⟨reaches, more⟩ := ih (Nat.succ_pos passes) _ (Nat.le_trans later reach)
        exact ⟨reaches, first.trans more⟩

/-- A loop asks late for what it reads whenever it comes round. -/
theorem gains_cycle {c : Nat} {again : List Action} {body orelse : Plan}
    (binds : ∀ a ∈ again, a.Binds fun _ => True)
    (among : Node.readNames env.isPure (again.flatMap Action.parts) ⊆ late)
    (noBody : body.asks = []) (noElse : orelse.asks = []) (inner : body.Stands (some i) a b)
    (last : orelse.Stands (some i) b c) (below : i < a) (fits : a ≤ p.facts.size) :
    p.Gains late s i (p.loop env i (fun q => body.run env (q.acts env i again))
      fun q => orelse.run env q) := by
  have before : ∀ k, some i = some k → k < a := fun k same => Option.some.inj same ▸ below
  have pass : ∀ q : Progress, a ≤ q.facts.size →
      b ≤ (body.run env (q.acts env i again)).facts.size ∧
      q.Gains late s i (body.run env (q.acts env i again)) := by
    intro q held
    have draws := (Progress.Draws.start i q).acts env again
    rw [← draws.works.size] at held
    exact ⟨(spans_run allowed inner before held).reach, (Progress.Gains.of_asks draws
      ((Progress.Asks.refl late i q).acts binds among)).trans
        (gains_run allowed inner below held (noBody ▸ nil_subset _))⟩
  obtain ⟨reach, settled⟩ := gains_settle (p := { p with breaks := [], continues := [] }) inner.le
    pass allowed (loopStart env i p) fits
  have aside : p.Gains late s i { p with breaks := [], continues := [] } :=
    (Progress.Gains.refl p).congr rfl
  generalize found : Progress.settle _ _ _ _ = result at reach settled
  rw [loop_eq i _ _ found]
  have restored : p.Gains late s i (settledAt p i result.1 result.2) :=
    (aside.trans settled).congr rfl
  refine (restored.trans (gains_run allowed last (Nat.lt_of_lt_of_le below inner.le) reach
    ?_)).resume _
  rw [noElse]
  exact nil_subset _

/-- What a statement asks for between being entered and being left. -/
theorem gains_nodePlan {n : Node} (plain : n.ModuleFree) (parent : Option Nat)
    (fits : i ≤ p.facts.size) : (p.enter parent i n).Gains (Node.readNames env.isPure n.lateParts)
    p.state i ((nodePlan parent i n).run env p) := by
  have lies := stands_nodePlan plain none parent i
  have reach := le_size_enter parent n fits
  have below := Nat.lt_succ_self i
  have start : Progress.Draws p.state i (p.enter parent i n) (p.enter parent i n) := by
    refine .refl i (State.supplies_of_below ?_)
    rw [state_enter]
    exact .refl _
  generalize i + n.extent = b at lies
  cases n
  case branch loc header test code elifs orelse =>
    cases lies with
    | compound _ _ _ _ inner =>
      have tests : (elifPlan i (i + 1) _ (⟨header, test, code⟩ :: elifs)).Stands (some i)
        (i + 1) _ := inner
      exact (gains_elifPlan allowed (asks_clausePlan ..) tests below reach start.state).leave _
  case whileLoop loc header test code orelse =>
    cases lies with
    | cycle _ _ _ binds _ noBody noElse inner last =>
      have tested := start.acts env [.evaluate [test]]
      rw [← tested.works.size] at reach
      exact ((Progress.Gains.of_draws tested).trans
        (gains_cycle allowed (forall_mem_append.mp binds).2 (List.Subset.refl _) noBody noElse inner
          last below reach)).leave _
  case forLoop loc header target iter code orelse isAsync =>
    cases lies with
    | cycle _ _ _ binds _ noBody noElse inner last =>
      have started := start.acts env [.evaluate [iter]]
      rw [← started.works.size] at reach
      refine ((Progress.Gains.of_draws started).trans
        (gains_cycle allowed (forall_mem_append.mp binds).2 ?_ noBody noElse inner last below
          reach)).leave _
      rw [parts_targetActions]
      exact List.Subset.refl _
  case attempt loc header code handlers orelse final =>
    cases lies with
    | compound _ _ _ parts inner =>
      refine (gains_run allowed inner below reach fun name member => ?_).leave _
      obtain ⟨e, among, read⟩ := mem_flatMap.mp member
      obtain ⟨a, acts, part⟩ := mem_flatMap.mp ((parts e).mp among)
      obtain ⟨h, listed, acts⟩ := mem_flatMap.mp acts
      have caught := mem_flatMap.mpr ⟨a, acts, part⟩
      rw [parts_catchActions] at caught
      exact mem_flatMap.mpr ⟨e, mem_flatMap.mpr ⟨h, listed, caught⟩, read⟩
  case context loc header items code isAsync =>
    cases lies with
    | compound _ _ _ _ inner =>
      generalize i + Node.extent _ = b at inner
      cases inner with
      | seq first second =>
        cases first
        have opened := start.acts env (contextActions items)
        rw [← opened.works.size] at reach
        refine ((Progress.Gains.of_draws opened).trans
          (gains_run allowed second below reach ?_)).leave _
        rw [asks_blockPlan]
        exact nil_subset _
  all_goals
    rw [nodePlan_flat rfl, Plan.run]
    exact (Progress.Gains.of_draws (start.perform env _)).leave _

end Visits

/-- The data that a statement depends on is asked for late or comes from what reaches the
statement. -/
def Prompt (pure : Node → Bool) (i : Nat) (n : Node) (p : Progress) : Prop :=
  ∀ f, p.facts[i]? = some f → ∀ edge ∈ f.inbound, edge.kind = .data →
    edge.From (Node.readNames pure n.lateParts) f.entry p

/-- Entering a statement records no edge on data. -/
theorem inbound_enter {parent : Option Nat} {i : Nat} {n : Node} (fits : i ≤ p.facts.size)
    (found : (p.enter parent i n).facts[i]? = some f) (member : edge ∈ f.inbound)
    (kind : edge.kind = .data) : ∃ g, p.facts[i]? = some g ∧ edge ∈ g.inbound := by
  rcases Nat.lt_or_eq_of_le fits with again | rfl
  · rw [Progress.enter, if_pos again, Progress.revise, Array.getElem?_modify, if_pos rfl] at found
    obtain ⟨g, foundG, rfl⟩ := Option.map_eq_some_iff.mp found
    exact ⟨g, foundG, member⟩
  · rw [Progress.enter, if_neg (Nat.lt_irrefl _), Array.getElem?_push_size] at found
    obtain rfl := Option.some.inj found
    split at member
    · exact absurd member not_mem_nil
    · rcases StatementFacts.inbound_dependOn member with before | ⟨control, _⟩
      · exact absurd before not_mem_nil
      · exact absurd (kind.symm.trans control) (by decide)

theorem upheld_prompt (some : 0 < env.passes) : Upheld env (Prompt env.isPure) where
  within {i n p q} alike persists prompt f found edge member kind := by
    rw [(alike i (Nat.le_refl i) (by unfold Node.extent; omega)).1] at found
    exact (prompt f found edge member kind).mono (.refl _) persists
  visit {n} plain parent i p fits _ prompt f found edge member kind := by
    have gains := gains_nodePlan some plain parent fits
    obtain ⟨g, foundG⟩ : ∃ g, (p.enter parent i n).facts[i]? = Option.some g :=
      ⟨_, Array.getElem?_eq_getElem (le_size_enter parent n fits)⟩
    have entry : f.entry = g.entry := by
      have same := gains.entry
      rw [found, foundG] at same
      exact Option.some.inj same
    have noted : ∀ {name origin}, (p.enter parent i n).Reaches i name origin →
        origin ∈ f.entry.reaching name := by
      rintro name origin ⟨h, foundH, reaches⟩
      obtain rfl := Option.some.inj (foundG.symm.trans foundH)
      rwa [entry]
    rcases gains.edges g f foundG found edge member kind with before | comes
    · obtain ⟨h, foundH, member⟩ := inbound_enter fits foundG before kind
      refine (prompt h foundH edge member kind).mono ?_
        ((persists_enter parent i n p).trans gains.persists)
      exact fun name origin reaches =>
        noted ((Progress.reaches_enter fits).mpr (Or.inl ⟨h, foundH, reaches⟩))
    · refine comes.mono ?_ (.refl _)
      exact fun name origin reaches => noted
        ((Progress.reaches_enter fits).mpr (Or.inr ⟨rfl, reaches⟩))

/-- The names that a statement reads elsewhere than where it is entered. -/
def Settings.lateNames (settings : Settings) (n : Node) : List String :=
  Node.readNames (fun callee => settings.effects.isPure callee.dottedPath callee.memberName)
    n.lateParts

/-- The data that a statement depends on comes from what reaches it, unless the name, or every name,
is read late. -/
theorem source_reaches {settings : Settings} {writes : GlobalWrites} {tree : Node} {r : Result}
    (analyzed : analyze settings writes tree = .ok r) (recorded : f ∈ r.statements)
    (member : edge ∈ f.inbound) (kind : edge.kind = .data) :
    ∃ name, edge.name = some name ∧
      (name ∈ settings.lateNames f.node ∨ allNames ∈ settings.lateNames f.node ∨
        ∃ k source, r.statements[k]? = some source ∧ edge.source = source.location ∧
          (.statement k ∈ f.reaching name ∨ .statement k ∈ f.reaching allNames)) := by
  obtain ⟨p, facts, prompt⟩ := upheld_analyze analyzed (upheld_prompt (passLimit_pos _ _ _))
    fun _ _ _ found => nomatch found
  obtain ⟨k, found⟩ := Array.mem_iff_getElem?.mp recorded
  have same := (regular_analyze analyzed).index k f found
  have comes := prompt f recorded f (by rw [same, facts, found]) edge member kind
  rw [Edge.From, facts] at comes
  exact comes

end Flow

end Lineage
