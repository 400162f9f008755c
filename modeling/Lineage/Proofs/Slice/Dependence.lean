import Lineage.Proofs.Slice.Live

/-!
What a statement of a history depends on, said by rules over the list of executions: the statements
that its edges come from, the live definitions of the names that it reads from outside, and, for a
function or class that may run at some point, what the names that its body reads may hold there.
Following goals finds the least sets closed under these rules, in whichever order it goes.
-/

namespace Lineage

open List Std Flow

namespace Log

/-- What reaches a point of a history. -/
inductive Sees (l : Log) : Timestamp → State → Prop where
  | statement {t : Timestamp} {f : StatementFacts} : l.Holds t f → Sees l t f.entry
  | exit {e : Execution} : e ∈ l.executions → Sees l (Slice.Scene.exitSite e) e.exit

/-- The statements that a name may come from when it is read at a point: those that reach the point
and, where the value may be from before, those that define the name in earlier executions. All names
are looked up in both ways. -/
inductive Resolves (l : Log) (p : Timestamp) : String → Timestamp → Prop where
  | here {state : State} {name other : String} {k : Nat} : l.Sees p state →
      .statement k ∈ state.reaching other → other = name ∨ other = Flow.allNames ∨
      name = Flow.allNames → Resolves l p name ⟨p.ordinal, k⟩
  | before {state : State} {name : String} {u : Timestamp} : l.Sees p state →
      .entry ∈ state.reaching name ∨ name = Flow.allNames → l.Defines p.ordinal name u →
      Resolves l p name u

/-- The point at which the body of a function or class is taken to run: where it is used, if calls
are followed and that is known, and else the end of the execution that defines it. -/
def RunsAt (l : Log) (atCall : Bool) (t : Timestamp) (site : Option Timestamp) (p : Timestamp) :
    Prop :=
  (atCall = true ∧ site = some p) ∨
    ((atCall = false ∨ site = none) ∧ ∃ e ∈ l.executions, e.ordinal = t.ordinal ∧
      p = Slice.Scene.exitSite e)

/-- The statements that some statements need, each with the point where it is used if that is
known. -/
inductive Needs (l : Log) (atCall : Bool) (seeds : List (Timestamp × Option Timestamp)) :
    Timestamp → Option Timestamp → Prop where
  | seed {t : Timestamp} {site : Option Timestamp} : (t, site) ∈ seeds → Needs l atCall seeds t site
  | control {t u : Timestamp} {site : Option Timestamp} {f g : StatementFacts} {edge : Edge} :
      Needs l atCall seeds t site → l.Holds t f → edge ∈ f.inbound → edge.kind = .control →
      l.Holds u g → u.ordinal = t.ordinal → g.location = edge.source → Needs l atCall seeds u none
  | data {t u : Timestamp} {site : Option Timestamp} {f g : StatementFacts} {edge : Edge} :
      Needs l atCall seeds t site → l.Holds t f → edge ∈ f.inbound → edge.kind = .data →
      l.Holds u g → u.ordinal = t.ordinal → g.location = edge.source →
      Needs l atCall seeds u (some t)
  | external {t u : Timestamp} {site : Option Timestamp} {f : StatementFacts} {name : String} :
      Needs l atCall seeds t site → l.Holds t f → name ∈ f.external → l.Defines t.ordinal name u →
      Needs l atCall seeds u (some t)
  | body {t u p : Timestamp} {site : Option Timestamp} {f : StatementFacts} {name : String} :
      Needs l atCall seeds t site → l.Holds t f → name ∈ f.free → l.RunsAt atCall t site p →
      l.Resolves p name u → Needs l atCall seeds u (some p)

/-- The names that some statements need and that nothing defines. -/
inductive Lacks (l : Log) (atCall : Bool) (seeds : List (Timestamp × Option Timestamp)) :
    String → Prop where
  | external {t : Timestamp} {site : Option Timestamp} {f : StatementFacts} {name : String} :
      l.Needs atCall seeds t site → l.Holds t f → name ∈ f.external → l.Undefined t.ordinal name →
      Lacks l atCall seeds name
  | body {t p : Timestamp} {site : Option Timestamp} {f : StatementFacts} {state : State}
      {name : String} : l.Needs atCall seeds t site → l.Holds t f → name ∈ f.free →
      l.RunsAt atCall t site p → l.Sees p state → .entry ∈ state.reaching name →
      l.Undefined p.ordinal name → Lacks l atCall seeds name

/-- The statements of each execution stand at different places. -/
def Distinct (l : Log) : Prop :=
  ∀ e ∈ l.executions, (e.statements.map StatementFacts.location).Nodup

instance (l : Log) : Decidable l.Distinct :=
  inferInstanceAs (Decidable (∀ e ∈ l.executions, (e.statements.map StatementFacts.location).Nodup))

end Log

namespace Slice.Scene

variable {f : StatementFacts} {site : Option Timestamp} {name : String} {p t u : Timestamp}

variable {s : Scene} (sound : s.log.Sound)

include sound

/-! ### What reaches a point -/

theorem stateAt_eq {state : State} (sees : s.log.Sees p state) : s.stateAt p = state := by
  cases sees with
  | statement holds => rw [stateAt, (statement?_eq_some sound).mpr holds]
  | @exit e member =>
    have none : s.statement? (exitSite e) = none := by
      cases found : s.statement? (exitSite e) with
      | none => rfl
      | some f =>
        obtain ⟨other, amongOther, own, k, index, holds⟩ := (statement?_eq_some sound).mp found
        obtain rfl := sound.eq_of_ordinal amongOther member own
        have inside : k < other.statements.length := (List.getElem?_eq_some_iff.mp holds).1
        simp only [exitSite] at index
        omega
    rw [stateAt, none]
    simp only [exitSite]
    rw [sound.at?_ordinal member]
    rfl

omit sound in
theorem exists_sees (point : s.log.Point p) : ∃ state, s.log.Sees p state := by
  obtain ⟨e, member, own, k, index, inside⟩ := point
  rcases Nat.lt_or_eq_of_le inside with below | last
  · exact ⟨_, .statement ⟨e, member, own, k, index, getElem?_eq_getElem below⟩⟩
  · obtain rfl : p = exitSite e := by
      obtain ⟨ordinal, position⟩ := p
      simp only at own index
      rw [exitSite, own, index, last]
    exact ⟨_, .exit member⟩

theorem mem_resolved {state : State} (sees : s.log.Sees p state) :
    u ∈ s.resolved p name ↔ s.log.Resolves p name u := by
  have only : ∀ {other : State}, s.log.Sees p other → other = state := fun also =>
    (stateAt_eq sound also).symm.trans (stateAt_eq sound sees)
  -- A statement that reaches the point under some name.
  have stamp : ∀ {k : Nat}, u.ordinal = p.ordinal → u.index = k → u = ⟨p.ordinal, k⟩ := by
    intro k own index
    obtain ⟨ordinal, position⟩ := u
    simp only at own index
    rw [own, index]
  unfold resolved
  rw [stateAt_eq sound sees]
  dsimp only
  split
  · rename_i all
    subst all
    simp only [mem_append, mem_flatMap, mem_stampsOf, Prod.exists, mem_found sound,
      ExtTreeMap.mem_toList_iff_getElem?_eq_some]
    constructor
    · rintro (⟨other, origins, held, own, k, index, reaches⟩ | defines)
      · rw [stamp own index]
        rw [← State.reaching_of_getElem? held] at reaches
        exact .here sees reaches (Or.inr (Or.inr rfl))
      · exact .before sees (Or.inr rfl) defines
    · intro resolves
      cases resolves with
      | @here _ _ other k also reaches =>
        obtain rfl := only also
        have held := State.mem_of_statement reaches
        refine Or.inl ⟨other, _, ExtTreeMap.getElem?_eq_some_getElem held, rfl, k, rfl, ?_⟩
        rwa [State.reaching_of_getElem? (ExtTreeMap.getElem?_eq_some_getElem held)] at reaches
      | before _ _ defines => exact Or.inr defines
  · rename_i different
    have entry : (StatementFacts.origins state name).contains .entry = true ↔
    .entry ∈ state.reaching name := by
      rw [ExtTreeSet.contains_iff_mem, StatementFacts.entry_mem_origins]
    simp only [mem_append, mem_stampsOf, StatementFacts.statement_mem_origins]
    constructor
    · rintro (⟨own, k, index, reaches | reaches⟩ | defines)
      · rw [stamp own index]
        exact .here sees reaches (Or.inl rfl)
      · rw [stamp own index]
        exact .here sees reaches (Or.inr (Or.inl rfl))
      · split at defines
        · rename_i opens
          exact .before sees (Or.inl (entry.mp opens)) ((mem_found sound).mp defines)
        · exact absurd defines not_mem_nil
    · intro resolves
      cases resolves with
      | @here _ _ other k also reaches under =>
        obtain rfl := only also
        refine Or.inl ⟨rfl, k, rfl, ?_⟩
        rcases under with rfl | rfl | all
        · exact Or.inl reaches
        · exact Or.inr reaches
        · exact absurd all different
      | before also opens defines =>
        obtain rfl := only also
        rw [if_pos (entry.mpr (opens.resolve_right different))]
        exact Or.inr ((mem_found sound).mpr defines)

theorem unresolved_resolve {lacking : String} :
    lacking ∈ (s.resolve p name).unresolved ↔
      lacking = name ∧ .entry ∈ (s.stateAt p).reaching name ∧ s.log.Undefined p.ordinal name := by
  unfold resolve
  dsimp only
  split
  · rename_i all
    rw [unresolved_append, nil_append, unresolved_lookUp sound]
    exact and_congr_right fun _ => ⟨fun lacks => absurd all lacks.1, fun lacks => lacks.2⟩
  · have entry : (StatementFacts.origins (s.stateAt p) name).contains .entry = true ↔
        .entry ∈ (s.stateAt p).reaching name := by
      rw [ExtTreeSet.contains_iff_mem, StatementFacts.entry_mem_origins]
    split
    · rename_i opens
      rw [unresolved_append, nil_append, unresolved_lookUp sound]
      simp [entry.mp opens]
    · rename_i settled
      rw [entry] at settled
      simp [settled]

/-! ### The sources of edges -/

/-- Where the statements of an execution stand at different places, the place of an edge's source
tells the source. -/
theorem mem_sources (distinct : s.log.Distinct) (holds : s.log.Holds t f) {edge : Edge} :
      u ∈ s.sources t edge ↔ ∃ g, s.log.Holds u g ∧ u.ordinal = t.ordinal ∧
      g.location = edge.source := by
  obtain ⟨e, member, own, k, index, found⟩ := holds
  obtain ⟨r, facts⟩ := Execution.exists_facts (mem_of_getElem? found)
  have apart := distinct e member
  rw [Execution.statements_eq facts] at apart
  unfold sources
  rw [← own, sound.at?_ordinal member]
  simp only [Option.bind_some, facts, mem_map, Option.mem_toList, Result.at?_eq_some apart,
    ← Execution.mem_statements facts]
  constructor
  · rintro ⟨g, ⟨listed, place⟩, rfl⟩
    exact ⟨g, sound.holds_of_mem member listed, rfl, place⟩
  · rintro ⟨g, holds, same, place⟩
    obtain ⟨listed, rfl⟩ := sound.mem_of_holds member holds same
    exact ⟨g, ⟨listed, place⟩, rfl⟩

theorem mem_unresolved_statement :
    name ∈ (s.follow (.statement t)).unresolved ↔
      ∃ f, s.log.Holds t f ∧ name ∈ f.external ∧ s.log.Undefined t.ordinal name := by
  rw [follow]
  simp only [← statement?_eq_some sound]
  cases s.statement? t with
  | none => simp [Leads.none]
  | some f =>
    dsimp only
    rw [unresolved_append, nil_append]
    simp only [Leads.all, mem_flatMap, ExtTreeSet.mem_toList, unresolved_lookUp sound,
      Option.some.injEq, exists_eq_left']
    constructor
    · rintro ⟨_, uses, rfl, undefined⟩
      exact ⟨uses, undefined⟩
    · rintro ⟨uses, undefined⟩
      exact ⟨name, uses, rfl, undefined⟩

theorem mem_unresolved_call {c : Call} :
    name ∈ (s.follow (.call c)).unresolved ↔ ∃ f, s.log.Holds c.target f ∧ name ∈ f.free ∧
      .entry ∈ (s.stateAt c.site).reaching name ∧ s.log.Undefined c.site.ordinal name := by
  rw [follow]
  simp only [← statement?_eq_some sound]
  cases s.statement? c.target with
  | none => simp [Leads.none]
  | some f =>
    simp only [Leads.all, mem_flatMap, ExtTreeSet.mem_toList, unresolved_resolve sound,
      Option.some.injEq, exists_eq_left']
    constructor
    · rintro ⟨_, reads, rfl, opens, undefined⟩
      exact ⟨reads, opens, undefined⟩
    · rintro ⟨reads, opens, undefined⟩
      exact ⟨name, reads, rfl, opens, undefined⟩

/-! ### Needed statements are statements of the history -/

theorem holds_of_live {bound : Int} (live : s.log.Live bound name u) : ∃ f, s.log.Holds u f := by
  obtain ⟨e, member, own, _, ⟨k, index, reaches | reaches⟩, _⟩ := live
  · exact holds_of_mayDefine sound member ⟨own.symm, k, index, reaches⟩
  · exact holds_of_mayDefine sound member ⟨own.symm, k, index, reaches⟩

theorem holds_of_defines {bound : Int} (defines : s.log.Defines bound name u) :
    ∃ f, s.log.Holds u f := by
  cases defines with
  | one _ live => exact holds_of_live sound live
  | known _ _ _ _ live => exact holds_of_live sound live
  | @any e k member _ reaches => exact holds_of_mayDefine sound member ⟨rfl, k, rfl, reaches⟩

theorem holds_of_resolves (resolves : s.log.Resolves p name u) : ∃ f, s.log.Holds u f := by
  cases resolves with
  | before _ _ defines => exact holds_of_defines sound defines
  | @here state _ other k sees reaches =>
    cases sees with
    | exit member => exact holds_of_mayDefine sound member ⟨rfl, k, rfl, reaches⟩
    | @statement _ f holds =>
      obtain ⟨e, member, own, j, _, found⟩ := holds
      have listed := mem_of_getElem? found
      obtain ⟨r, facts⟩ := Execution.exists_facts listed
      have inside := (sound.regular member facts).entries f
        ((Execution.mem_statements facts).mp listed) other k reaches
      refine ⟨r.statements[k], e, member, own, k, rfl, ?_⟩
      rw [Execution.statements_eq facts, Array.getElem?_toList, Array.getElem?_eq_getElem inside]

theorem runsAt_iff (holds : s.log.Holds t f) : s.log.RunsAt s.atCall t site p ↔
    p = s.callSite site t := by
  obtain ⟨e, member, own, _⟩ := holds
  have ends : (∃ e ∈ s.log.executions, e.ordinal = t.ordinal ∧ p = exitSite e) ↔
      p = exitSite e := by
    constructor
    · rintro ⟨other, among, same, rfl⟩
      rw [sound.eq_of_ordinal among member (same.trans own.symm)]
    · exact fun same => ⟨e, member, own, same⟩
  rw [Log.RunsAt, callSite_eq sound site member own, ends]
  cases s.atCall <;> cases site <;> simp [eq_comm]

/-- A function or class whose body reads a name is called where it is taken to run. -/
theorem call_mem_need (holds : s.log.Holds t f) (reads : name ∈ f.free)
    (runs : s.log.RunsAt s.atCall t site p) : .call ⟨t, p⟩ ∈ s.need site t := by
  have nonempty : f.free.isEmpty = false := by
    refine Bool.eq_false_iff.mpr fun none => ?_
    rw [ExtTreeSet.isEmpty_iff.mp none] at reads
    exact ExtTreeSet.not_mem_empty reads
  rw [(runsAt_iff sound holds).mp runs]
  exact mem_need.mpr ⟨f, (statement?_eq_some sound).mpr holds, Or.inr ⟨nonempty, rfl⟩⟩

section Needs

variable {seeds : List (Timestamp × Option Timestamp)}
  (valid : ∀ seed ∈ seeds, (∃ f, s.log.Holds seed.1 f) ∧ ∀ p ∈ seed.2, s.log.Point p)

include valid

theorem valid_of_needs (needs : s.log.Needs s.atCall seeds t site) :
    (∃ f, s.log.Holds t f) ∧ ∀ p ∈ site, s.log.Point p := by
  have here : ∀ {t : Timestamp} {f : StatementFacts}, s.log.Holds t f →
      ∀ p ∈ some t, s.log.Point p := by
    intro t f holds p same
    obtain rfl := Option.mem_some.mp same
    exact holds.point
  induction needs with
  | seed member => exact valid _ member
  | control _ _ _ _ source => exact ⟨⟨_, source⟩, nofun⟩
  | data _ holds _ _ source => exact ⟨⟨_, source⟩, here holds⟩
  | external _ holds _ defines => exact ⟨holds_of_defines sound defines, here holds⟩
  | body _ holds _ runs resolves ih =>
    refine ⟨holds_of_resolves sound resolves, fun p same => ?_⟩
    obtain rfl := Option.mem_some.mp same
    rw [(runsAt_iff sound holds).mp runs]
    exact callSite_point sound ih.2 holds

omit valid

/-- The goals that needing some statements comes to. -/
def seedGoals (s : Scene) (seeds : List (Timestamp × Option Timestamp)) : List Goal :=
  seeds.flatMap fun (t, site) => s.need site t

/-- All goals of a needed statement come up. -/
theorem reached_of_needs (distinct : s.log.Distinct) (needs : s.log.Needs s.atCall seeds t site) :
    ∀ g ∈ s.need site t, Reached s (s.seedGoals seeds) g := by
  have statement : ∀ {t : Timestamp} {site : Option Timestamp} {f : StatementFacts},
      s.log.Holds t f → .statement t ∈ s.need site t :=
    fun holds => mem_need.mpr ⟨_, (statement?_eq_some sound).mpr holds, Or.inl rfl⟩
  induction needs with
  | seed member => exact fun g need => .seed (mem_flatMap.mpr ⟨_, member, need⟩)
  | control _ holds among kind source own place ih =>
    intro g need
    refine .follow (ih _ (statement holds))
      (mem_goals_statement.mpr ⟨_, (statement?_eq_some sound).mpr holds, Or.inl ?_⟩)
    exact ⟨_, among, _, (mem_sources sound distinct holds).mpr
      ⟨_, source, own, place⟩, by simpa [kind] using need⟩
  | data _ holds among kind source own place ih =>
    intro g need
    refine .follow (ih _ (statement holds))
      (mem_goals_statement.mpr ⟨_, (statement?_eq_some sound).mpr holds, Or.inl ?_⟩)
    exact ⟨_, among, _, (mem_sources sound distinct holds).mpr
      ⟨_, source, own, place⟩, by simpa [kind] using need⟩
  | external _ holds uses defines ih =>
    intro g need
    refine .follow (ih _ (statement holds))
      (mem_goals_statement.mpr ⟨_, (statement?_eq_some sound).mpr holds, Or.inr ?_⟩)
    exact ⟨_, uses, _, (mem_found sound).mpr defines, need⟩
  | @body t u p site f name _ holds reads runs resolves ih =>
    intro g need
    have call := call_mem_need sound holds reads runs
    have sees : ∃ state, s.log.Sees p state := by
      cases resolves with
      | here sees => exact ⟨_, sees⟩
      | before sees => exact ⟨_, sees⟩
    obtain ⟨state, sees⟩ := sees
    refine .follow (ih _ call) (mem_goals_call.mpr ⟨f, (statement?_eq_some sound).mpr holds, name,
      reads, u, ?_, need⟩)
    exact (mem_resolved sound sees).mpr resolves

/-- What a goal that comes up means. -/
def Meant (s : Scene) (seeds : List (Timestamp × Option Timestamp)) : Goal → Prop
  | .statement t => ∃ site, s.log.Needs s.atCall seeds t site
  | .call c => ∃ site, s.log.Needs s.atCall seeds c.target site ∧
      s.log.RunsAt s.atCall c.target site c.site

theorem meant_of_need (needs : s.log.Needs s.atCall seeds t site) {g : Goal}
    (need : g ∈ s.need site t) : s.Meant seeds g := by
  obtain ⟨f, held, rfl | ⟨_, rfl⟩⟩ := mem_need.mp need
  · exact ⟨site, needs⟩
  · exact ⟨site, needs, (runsAt_iff sound ((statement?_eq_some sound).mp held)).mpr rfl⟩

include valid

/-- Goals come up for needed statements only. -/
theorem meant_of_reached (distinct : s.log.Distinct) {g : Goal}
    (reached : Reached s (s.seedGoals seeds) g) : s.Meant seeds g := by
  induction reached with
  | seed member =>
    obtain ⟨⟨t, site⟩, among, need⟩ := mem_flatMap.mp member
    exact meant_of_need sound (.seed among) need
  | @follow g h _ lead ih =>
    cases g with
    | statement t =>
      obtain ⟨site, needs⟩ := ih
      obtain ⟨f, held, ⟨edge, among, u, source, need⟩ | ⟨name, uses, u, found, need⟩⟩ :=
        mem_goals_statement.mp lead
      · have holds := (statement?_eq_some sound).mp held
        obtain ⟨source, holdsU, own, place⟩ := (mem_sources sound distinct holds).mp source
        cases kind : edge.kind with
        | control =>
          rw [kind] at need
          exact meant_of_need sound (.control needs holds among kind holdsU own place) need
        | data =>
          rw [kind] at need
          exact meant_of_need sound (.data needs holds among kind holdsU own place) need
      · have holds := (statement?_eq_some sound).mp held
        exact meant_of_need sound (.external needs holds uses ((mem_found sound).mp found)) need
    | call c =>
      obtain ⟨site, needs, runs⟩ := ih
      obtain ⟨f, held, name, reads, u, resolved, need⟩ := mem_goals_call.mp lead
      have holds := (statement?_eq_some sound).mp held
      have point : s.log.Point c.site := by
        rw [(runsAt_iff sound holds).mp runs]
        exact callSite_point sound (valid_of_needs sound valid needs).2 holds
      obtain ⟨state, sees⟩ := exists_sees point
      exact meant_of_need sound (.body needs holds reads runs
        ((mem_resolved sound sees).mp resolved)) need

theorem reached_statement_iff (distinct : s.log.Distinct) :
    Reached s (s.seedGoals seeds) (.statement t) ↔ ∃ site, s.log.Needs s.atCall seeds t site := by
  constructor
  · exact meant_of_reached sound valid distinct
  · rintro ⟨site, needs⟩
    obtain ⟨⟨f, holds⟩, _⟩ := valid_of_needs sound valid needs
    refine reached_of_needs sound distinct needs _ (mem_need.mpr ⟨f, ?_, Or.inl rfl⟩)
    exact (statement?_eq_some sound).mpr holds

theorem unresolved_iff_lacks (distinct : s.log.Distinct) :
    (∃ g, Reached s (s.seedGoals seeds) g ∧ name ∈ (s.follow g).unresolved) ↔
    s.log.Lacks s.atCall seeds name := by
  constructor
  · rintro ⟨g, reached, lacks⟩
    have meant := meant_of_reached sound valid distinct reached
    cases g with
    | statement t =>
      obtain ⟨site, needs⟩ := meant
      obtain ⟨f, holds, uses, undefined⟩ := (mem_unresolved_statement sound).mp lacks
      exact .external needs holds uses undefined
    | call c =>
      obtain ⟨site, needs, runs⟩ := meant
      obtain ⟨⟨f, holds⟩, points⟩ := valid_of_needs sound valid needs
      have point : s.log.Point c.site := by
        rw [(runsAt_iff sound holds).mp runs]
        exact callSite_point sound points holds
      obtain ⟨state, sees⟩ := exists_sees point
      obtain ⟨g, holdsG, reads, opens, undefined⟩ := (mem_unresolved_call sound).mp lacks
      rw [stateAt_eq sound sees] at opens
      exact .body needs holdsG reads runs sees opens undefined
  · intro lacks
    cases lacks with
    | external needs holds uses undefined =>
      exact ⟨_, (reached_statement_iff sound valid distinct).mpr ⟨_, needs⟩,
        (mem_unresolved_statement sound).mpr ⟨_, holds, uses, undefined⟩⟩
    | @body t p site f state _ needs holds reads runs sees opens undefined =>
      refine ⟨.call ⟨t, p⟩, reached_of_needs sound distinct needs _
        (call_mem_need sound holds reads runs), ?_⟩
      exact (mem_unresolved_call sound).mpr
        ⟨f, holds, reads, by rwa [stateAt_eq sound sees], undefined⟩

end Needs

/-- Each round of requirements follows all that is needed for it and for the rounds before. -/
theorem underway_rounds (rounds : List (Option Timestamp × List Timestamp))
    (points : ∀ round ∈ rounds, ∀ p ∈ round.1, s.log.Point p) {before : List Goal} {c : Closure}
    (underway : Underway s before [] c) :
    Underway s (before ++ rounds.flatMap fun round => round.2.flatMap (s.need round.1)) []
      (rounds.foldl (fun c round => c.require s round.1 round.2) c) := by
  induction rounds generalizing before c with
  | nil =>
    rw [flatMap_nil, append_nil]
    exact underway
  | cons round rest ih =>
    obtain ⟨own, others⟩ := forall_mem_cons.mp points
    rw [flatMap_cons, ← append_assoc, foldl_cons]
    exact ih others (underway_require sound own round.2 underway)

end Slice.Scene

/-- The statements that rounds of requirements ask for, each with the point where it is used. -/
def Slice.seedsOf (rounds : List (Option Timestamp × List Timestamp)) :
    List (Timestamp × Option Timestamp) :=
  rounds.flatMap fun round => round.2.map fun t => (t, round.1)

open Slice in
/-- **The dependence closure is a least fixpoint and does not depend on the order.** In a history
whose executions have their statements at different places, whatever is required in whatever rounds,
the statements included are those needed for it, and the names left unresolved are those lacking.
Any way of exploring what the required statements lead to that leaves nothing out ends in the same
closure. -/
theorem Log.closure_eq_least {l : Log} (reachable : l.Reachable) (distinct : l.Distinct)
    (atCall : Bool) (rounds : List (Option Timestamp × List Timestamp))
    (valid : ∀ round ∈ rounds, (∀ p ∈ round.1, l.Point p) ∧ ∀ t ∈ round.2, ∃ f, l.Holds t f) :
    let s : Scene := ⟨l, atCall⟩
    let c := rounds.foldl (fun c round => c.require s round.1 round.2) Closure.empty
    (∀ t, t ∈ c.included ↔ ∃ site, l.Needs atCall (seedsOf rounds) t site) ∧
      (∀ name, name ∈ c.unresolved ↔ l.Lacks atCall (seedsOf rounds) name) ∧
      ∀ d, Explored s (s.seedGoals (seedsOf rounds)) d →
      Exhausted s (s.seedGoals (seedsOf rounds)) d → d = c := by
  intro s c
  have sound : s.log.Sound := reachable.sound
  have goals : s.seedGoals (seedsOf rounds) = [] ++ rounds.flatMap fun round => round.2.flatMap
      (s.need round.1) := by
    simp only [Scene.seedGoals, seedsOf, flatMap_assoc, flatMap_map, nil_append]
  have underway : Underway s (s.seedGoals (seedsOf rounds)) [] c := by
    rw [goals]
    exact Scene.underway_rounds sound rounds (fun round member => (valid round member).1)
      (underway_empty s [])
  have validSeeds : ∀ seed ∈ seedsOf rounds, (∃ f, s.log.Holds seed.1 f) ∧
      ∀ p ∈ seed.2, s.log.Point p := by
    intro seed member
    obtain ⟨round, among, member⟩ := mem_flatMap.mp member
    obtain ⟨t, asked, rfl⟩ := mem_map.mp member
    exact ⟨(valid round among).2 t asked, (valid round among).1⟩
  refine ⟨fun t => ?_, fun name => ?_, fun d explored exhausted => ?_⟩
  · rw [← Scene.reached_statement_iff sound validSeeds distinct, ← underway.has_iff]
    exact ExtTreeSet.contains_iff_mem.symm
  · rw [← Scene.unresolved_iff_lacks sound validSeeds distinct, underway.mem_unresolved_iff]
  · exact (explored.underway exhausted).unique underway fun _ => Iff.rfl

/-- A session in which a function reads a name that is given another value before the function is
called. -/
def Log.rebinding : Log :=
  (Log.empty ⟨∅, ∅⟩ id ⟨0, 0⟩).runAll
    [⟨"a", "x = 1", none, []⟩, ⟨"b", "def f():\n    return x", none, []⟩, ⟨"a", "x = 2", none, []⟩,
      ⟨"c", "y = f()", none, []⟩]

/-- The call needs the value that the name has when the function is called, not the one before. -/
theorem Log.closure_eq_least_rebinding :
    let rounds : List (Option Timestamp × List Timestamp) := [(some ⟨4, 1⟩, [⟨4, 0⟩])]
    rebinding.Reachable ∧ rebinding.Distinct ∧
      (∀ round ∈ rounds, (∀ p ∈ round.1, rebinding.Point p) ∧
      ∀ t ∈ round.2, ∃ f, rebinding.Holds t f) ∧
      (∃ site, rebinding.Needs true (Slice.seedsOf rounds) ⟨3, 0⟩ site) ∧
      ¬ ∃ site, rebinding.Needs true (Slice.seedsOf rounds) ⟨1, 0⟩ site := by
  intro rounds
  have reachable : rebinding.Reachable := (Reachable.start _ _ _).runAll _
  have distinct : rebinding.Distinct := by decide +kernel
  have last : ∃ e ∈ rebinding.executions, e.ordinal = 4 ∧
    e.statements.length = 1 := by decide +kernel
  have valid : ∀ round ∈ rounds, (∀ p ∈ round.1, rebinding.Point p) ∧
      ∀ t ∈ round.2, ∃ f, rebinding.Holds t f := by
    obtain ⟨e, member, ordinal, length⟩ := last
    simp only [rounds, forall_mem_singleton, Option.mem_some, forall_eq']
    exact ⟨⟨e, member, ordinal, 1, rfl, by omega⟩,
      e.statements[0], e, member, ordinal, 0, rfl, getElem?_eq_getElem (by omega)⟩
  obtain ⟨included, _⟩ := closure_eq_least reachable distinct true rounds valid
  refine ⟨reachable, distinct, valid, (included _).mp ?_, (included _).not.mp ?_⟩
  · decide +kernel
  · decide +kernel

end Lineage
