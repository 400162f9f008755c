import Lineage.Proofs.Flow.Plan

/-!
What carrying out a plan keeps. An invariant of plans says when the statements from an index on may
be visited, from which states, and what comes of visiting them. If it is kept by each of the things
that plans are made of, it is kept by every plan, however the statements are nested.
-/

namespace Lineage.Flow

open List

/-- An invariant of plans. `ready` tells when the statements from an index on may be visited in the
statement `own`, with expressions yet to be evaluated there, and `fits` from which states next to
which facts. `leads` tells what comes of visiting those between two indices and evaluating the
expressions. -/
structure PlanInvariant where
  ready : (own : Option Nat) → (a : Nat) → (asks : List Node) → Progress → Prop
  fits : Array StatementFacts → State → Prop
  leads : (own : Option Nat) → (a b : Nat) → (asks : List Node) → Progress → Progress → Prop

/-- An invariant is kept by each of the things that plans are made of. -/
structure PlanInvariant.Kept (t : PlanInvariant) (env : Env) (good : Option Nat → Nat → Node → Prop)
    (fine : Action → Prop) : Prop where
  merge : ∀ {facts s u}, t.fits facts s → t.fits facts u → t.fits facts (s.merge u)
  state : ∀ {own a asks p}, t.ready own a asks p → t.fits p.facts p.state
  head : ∀ {i a asks p s}, t.ready (some i) a asks p → p.heads[i]? = some s → t.fits p.facts s
  jumps : ∀ {own a b asks p q}, t.leads own a b asks p q →
    (∀ s ∈ p.breaks ++ p.continues, t.fits p.facts s) →
    ∀ s ∈ q.breaks ++ q.continues, t.fits q.facts s
  ends : ∀ {own a b asks p q}, t.leads own a b asks p q → t.fits q.facts q.state
  mono : ∀ {own a b asks p q s}, t.leads own a b asks p q → t.fits p.facts s → t.fits q.facts s
  less : ∀ {own a asks parts p}, t.ready own a asks p → parts ⊆ asks → t.ready own a parts p
  next : ∀ {own a b asks parts p q}, t.leads own a b asks p q → a ≤ b → t.ready own a parts p →
    t.ready own b parts q
  again : ∀ {own a b asks p q}, t.leads own a b asks p q → a ≤ b → t.ready own a asks p →
    t.ready own a asks q
  resume : ∀ {own a asks p s}, t.ready own a asks p → t.fits p.facts s →
    t.ready own a asks (p.resume s)
  aside : ∀ {own a asks p}, t.ready own a asks p →
      t.ready own a asks { p with breaks := [], continues := [] }
  nothing : ∀ {own a p}, t.ready own a [] p → t.leads own a a [] p p
  append : ∀ {own a b c asks parts p q r}, t.leads own a b asks p q → t.leads own b c parts q r →
    a ≤ b → b ≤ c → t.leads own a c (asks ++ parts) p r
  twice : ∀ {own a b asks p q r}, t.leads own a b asks p q → t.leads own a b asks q r →
    t.leads own a b asks p r
  resumed : ∀ {own a b asks p q s}, t.leads own a b asks p q → t.fits q.facts s →
    t.leads own a b asks p (q.resume s)
  of_resume : ∀ {own a b asks p q s}, t.leads own a b asks (p.resume s) q → t.leads own a b asks p q
  settled : ∀ {i a b asks p q head}, t.ready (some i) a asks p →
    t.leads (some i) a b asks { p with breaks := [], continues := [] } q → t.fits q.facts head →
    t.leads (some i) a b asks p (settledAt p i head q)
  act : ∀ {i a p action}, fine action → t.ready (some i) a action.parts p →
    t.leads (some i) a a action.parts p (p.act env i action)
  enter : ∀ {own parent i n p asks}, good parent i n → n.kind.isCompound = true →
    (∀ e ∈ asks, e ∈ n.headParts) → t.ready own i [] p →
    t.ready (some i) (i + 1) asks (p.enter parent i n)
  leave : ∀ {own parent i n p q asks}, good parent i n → n.kind.isCompound = true →
    t.ready own i [] p → t.leads (some i) (i + 1) (i + n.extent) asks (p.enter parent i n) q →
    (nodePlan parent i n).run env p = q.leave i n p.state →
    t.leads own i (i + n.extent) [] p (q.leave i n p.state)
  flat : ∀ {own parent i n p}, good parent i n → n.kind.isCompound = false → n.extent = 1 →
    t.ready own i [] p → t.leads own i (i + 1) [] p
    (((p.enter parent i n).perform env i n).leave i n p.state)

namespace PlanInvariant.Kept

variable {t : PlanInvariant} {env : Env} {good : Option Nat → Nat → Node → Prop}
  {fine : Action → Prop} (kept : t.Kept env good fine) {own : Option Nat} {a b c i : Nat}
  {asks : List Node} {p : Progress}

include kept

theorem join {facts : Array StatementFacts} {s : State} {rest : List State} (first : t.fits facts s)
    (others : ∀ u ∈ rest, t.fits facts u) : t.fits facts (State.join (s :: rest)) := by
  induction rest generalizing s with
  | nil => rwa [State.join_singleton]
  | cons u rest ih =>
    obtain ⟨next, others⟩ := forall_mem_cons.mp others
    rw [State.join_cons (cons_ne_nil u rest)]
    exact kept.merge first (ih next others)

/-- What a compound statement does at its head. -/
theorem acts {actions : List Action} (all : ∀ action ∈ actions, fine action)
    (ready : t.ready (some i) a (actions.flatMap Action.parts) p) :
    t.leads (some i) a a (actions.flatMap Action.parts) p (p.acts env i actions) := by
  induction actions generalizing p with
  | nil => exact kept.nothing ready
  | cons action rest ih =>
    obtain ⟨first, others⟩ := forall_mem_cons.mp all
    rw [flatMap_cons] at ready ⊢
    have acted := kept.act first (kept.less ready (subset_append_left _ _))
    exact kept.append acted
      (ih others (kept.next acted (Nat.le_refl a) (kept.less ready (subset_append_right _ _))))
      (Nat.le_refl a) (Nat.le_refl a)

/-- A pass over a loop: what the loop does whenever it comes round, and then its body. -/
theorem pass {again : List Action} (all : ∀ action ∈ again, fine action)
    {body : Progress → Progress} (le : a ≤ b) (leads : ∀ q, t.ready (some i) a [] q →
    t.leads (some i) a b [] q (body q)) (q : Progress)
    (ready : t.ready (some i) a (again.flatMap Action.parts) q) :
    t.leads (some i) a b (again.flatMap Action.parts) q (body (q.acts env i again)) := by
  have acted := kept.acts all ready
  have both :=
    kept.append acted (leads _ (kept.next acted (Nat.le_refl a) (kept.less ready (nil_subset _))))
    (Nat.le_refl a) le
  rwa [append_nil] at both

theorem start (ready : t.ready (some i) a asks p) : t.fits p.facts (loopStart env i p) := by
  unfold loopStart
  split
  · cases found : p.heads[i]? with
    | none => exact kept.state ready
    | some before => exact kept.merge (kept.head ready found) (kept.state ready)
  · exact kept.state ready

/-- Every pass over a loop leads on, and the head is taken from what comes back. -/
theorem settles {body : Progress → Progress} (le : a ≤ b)
    (pass : ∀ q, t.ready (some i) a asks q → t.leads (some i) a b asks q (body q)) {passes : Nat}
    (allowed : 0 < passes) {head : State} (fits : t.fits p.facts head)
    (ready : t.ready (some i) a asks p) (jumps : ∀ s ∈ p.breaks ++ p.continues, t.fits p.facts s) :
    t.fits (Progress.settle body passes head p).2.facts (Progress.settle body passes head p).1 ∧
      t.leads (some i) a b asks p (Progress.settle body passes head p).2 := by
  induction passes generalizing head p with
  | zero => exact absurd allowed (Nat.lt_irrefl 0)
  | succ passes ih =>
    have ready' := kept.resume ready fits
    have passed := pass _ ready'
    have jumped := kept.jumps passed jumps
    have merged := kept.join (kept.mono passed fits)
      (forall_mem_cons.mpr ⟨kept.ends passed, (forall_mem_append.mp jumped).2⟩)
    rw [Progress.settle]
    split
    · exact ⟨kept.mono passed fits, kept.of_resume passed⟩
    · cases passes with
      | zero => exact ⟨merged, kept.of_resume passed⟩
      | succ passes =>
        obtain ⟨found, rest⟩ := ih (Nat.succ_pos passes) merged (kept.again passed le ready') jumped
        exact ⟨found, kept.twice (kept.of_resume passed) rest⟩

section

variable (allowed : 0 < env.passes)

include allowed

/-- A loop settles, notes its head, and goes on behind it or from where it was left. -/
theorem loops {body orelse : Progress → Progress} (le : a ≤ b) (more : b ≤ c)
    (pass : ∀ q, t.ready (some i) a asks q → t.leads (some i) a b asks q (body q))
    (ends : ∀ q, t.ready (some i) b [] q → t.leads (some i) b c [] q (orelse q))
    (ready : t.ready (some i) a asks p) :
    t.leads (some i) a c asks p (p.loop env i body orelse) := by
  have begun : t.fits p.facts (loopStart env i p) := kept.start ready
  obtain ⟨fits, settled⟩ := kept.settles (p := { p with breaks := [], continues := [] }) le pass
    allowed begun (kept.aside ready) (forall_mem_nil _)
  generalize found : Progress.settle body env.passes (loopStart env i p)
      { p with breaks := [], continues := [] } =
    s at fits settled
  obtain ⟨head, q⟩ := s
  rw [loop_eq i body orelse found]
  have jumps := forall_mem_append.mp (kept.jumps settled (forall_mem_nil _))
  have restored := kept.settled ready settled fits
  have ended := ends _ (kept.next restored le (kept.less ready (nil_subset _)))
  have whole := kept.append restored ended le more
  rw [append_nil] at whole
  exact kept.resumed whole (kept.join (kept.ends ended) fun s member => kept.mono ended
    (jumps.1 s member))

/-- A loop with what it does in front of it. -/
theorem cycles {before : List Action} {again : List Action} {body orelse : Progress → Progress}
    (le : a ≤ b) (more : b ≤ c) (all : ∀ action ∈ before, fine action)
    (pass : ∀ q, t.ready (some i) a (again.flatMap Action.parts) q →
      t.leads (some i) a b (again.flatMap Action.parts) q (body q))
    (ends : ∀ q, t.ready (some i) b [] q → t.leads (some i) b c [] q (orelse q))
    (ready : t.ready (some i) a ((before ++ again).flatMap Action.parts) p) :
    t.leads (some i) a c ((before ++ again).flatMap Action.parts) p
        ((p.acts env i before).loop env i body orelse) := by
  rw [flatMap_append] at ready ⊢
  have fronted := kept.acts all (kept.less ready (subset_append_left _ _))
  exact kept.append fronted (kept.loops allowed le more pass ends (kept.next fronted (Nat.le_refl _)
    (kept.less ready (subset_append_right _ _)))) (Nat.le_refl _) (Nat.le_trans le more)

/-- What each part of a plan keeps the plan keeps, and where it stops the states fit. -/
theorem run {s : Plan} (lies : s.Lies good fine own a b) (ready : t.ready own a s.asks p) :
    t.leads own a b s.asks p (s.run env p) ∧ ∀ u ∈ s.stops env p, t.fits (s.run env p).facts u := by
  induction lies generalizing p with
  | skip =>
    simp only [Plan.run, Plan.stops, Plan.asks] at ready ⊢
    exact ⟨kept.nothing ready, forall_mem_nil _⟩
  | stop =>
    simp only [Plan.run, Plan.stops, Plan.asks] at ready ⊢
    exact ⟨kept.nothing ready, forall_mem_singleton.mpr (kept.state ready)⟩
  | acts _ all =>
    simp only [Plan.run, Plan.stops, Plan.asks] at ready ⊢
    exact ⟨kept.acts all ready, forall_mem_nil _⟩
  | flat simple single here =>
    simp only [Plan.run, Plan.stops, Plan.asks] at ready ⊢
    exact ⟨kept.flat here simple single ready, forall_mem_nil _⟩
  | @compound own parent i n inner compound here shape parts lies ih =>
    have same := congrArg (Plan.run env · p) shape
    simp only [Plan.run, Plan.stops, Plan.asks] at ready same ⊢
    have inside := (ih (kept.enter here compound (fun e => (parts e).mp) ready)).1
    exact ⟨kept.leave here compound ready inside same, forall_mem_nil _⟩
  | @cycle own parent i b n before again body orelse compound here shape all parts noBody noElse
      first second ihBody ihElse =>
    have same := congrArg (Plan.run env · p) shape
    simp only [Plan.run, Plan.stops, Plan.asks] at ready same ⊢
    obtain ⟨fineBefore, fineAgain⟩ := forall_mem_append.mp all
    have cycled := kept.cycles allowed first.le second.le fineBefore
        (kept.pass fineAgain first.le fun q held => by
        rw [← noBody] at held ⊢
        exact (ihBody held).1) (fun q held => by
        rw [← noElse] at held ⊢
        exact (ihElse held).1) (kept.enter here compound (fun e => (parts e).mp) ready)
    exact ⟨kept.leave here compound ready cycled same, forall_mem_nil _⟩
  | seq first second ihFirst ihSecond =>
    simp only [Plan.run, Plan.stops, Plan.asks] at ready ⊢
    obtain ⟨led, stops⟩ := ihFirst (kept.less ready (subset_append_left _ _))
    obtain ⟨more, others⟩ :=
      ihSecond (kept.next led first.le (kept.less ready (subset_append_right _ _)))
    exact ⟨kept.append led more first.le second.le,
      forall_mem_append.mpr ⟨fun u member => kept.mono more (stops u member), others⟩⟩
  | protect first second third ihBody ihRescue ihAfter =>
    simp only [Plan.run, Plan.stops, Plan.asks] at ready ⊢
    rw [append_assoc] at ready ⊢
    obtain ⟨body, stops⟩ := ihBody (kept.less ready (subset_append_left _ _))
    have rest := kept.next body first.le (kept.less ready (subset_append_right _ _))
    have rescue := kept.of_resume (ihRescue (kept.resume (kept.less rest (subset_append_left _ _))
      (kept.join (kept.mono body (kept.state ready)) stops))).1
    have next := kept.next rescue second.le (kept.less rest (subset_append_right _ _))
    have after := kept.of_resume (ihAfter (kept.resume next (kept.mono rescue (kept.ends body)))).1
    have stopped := fun u member => kept.mono after (kept.mono rescue (stops u member))
    exact ⟨kept.resumed (kept.append body (kept.append rescue after second.le third.le) first.le
      (Nat.le_trans second.le third.le)) (kept.merge (kept.ends after)
        (kept.mono after (kept.ends rescue))), stopped⟩

/-- A plan that evaluates nothing for the statement around. -/
theorem quiet {s : Plan} (lies : s.Lies good fine own a b) (none : s.asks = []) (q : Progress)
    (ready : t.ready own a [] q) : t.leads own a b [] q (s.run env q) := by
  rw [← none] at ready ⊢
  exact (kept.run allowed lies ready).1

/-- A compound statement is entered and left again, and what is done in between is kept. -/
theorem node {parent : Option Nat} {n : Node} (compound : n.kind.isCompound = true)
    (lies : (nodePlan parent i n).Lies good fine own a b) (ready : t.ready own i [] p) :
    ∃ asks q, (∀ e, e ∈ asks ↔ e ∈ n.headParts) ∧ t.leads (some i) (i + 1) (i + n.extent) asks
      (p.enter parent i n) q ∧ (nodePlan parent i n).run env p = q.leave i n p.state := by
  rcases nodePlan_cases parent i n with ⟨flat, _⟩ | ⟨inner, shape⟩ | ⟨before, again, body,
    orelse, shape⟩
  · exact absurd (flat.symm.trans compound) Bool.false_ne_true
  · rw [shape] at lies ⊢
    cases lies with
    | compound _ here _ parts inside =>
      refine ⟨_, _, parts, (kept.run allowed inside
        (kept.enter here compound (fun e => (parts e).mp) ready)).1, ?_⟩
      rw [Plan.run]
  · rw [shape] at lies ⊢
    cases lies with
    | cycle _ here _ all parts noBody noElse first second =>
      obtain ⟨fineBefore, fineAgain⟩ := forall_mem_append.mp all
      refine ⟨_, _, parts, kept.cycles allowed first.le second.le fineBefore
        (kept.pass fineAgain first.le (kept.quiet allowed first noBody))
        (kept.quiet allowed second noElse)
        (kept.enter here compound (fun e => (parts e).mp) ready), ?_⟩
      rw [Plan.run]

end

end PlanInvariant.Kept

end Lineage.Flow
