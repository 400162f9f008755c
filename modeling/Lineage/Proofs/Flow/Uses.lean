import Lineage.Proofs.Flow.Founded

/-!
Exact dependences. A statement that does nothing but evaluate expressions is visited once or more
often, each time in another state; what reaches it in the end is what reached it in any of the
visits. So what it is known to depend on is exactly what the names that it reads have there.
-/

namespace Lineage

open List

/-- The names that evaluating an expression reads from the scope around it. -/
def Node.freeIds (e : Node) : List String :=
  (e.reads (fun _ => false) .bare).map Read.id

/-- A statement that evaluates expressions and does nothing else: an expression, `assert`, `return`
or `raise`. -/
def Node.evaluatesOnly : Node → Bool
  | .expression .. | .assertion .. | .returning .. | .raising .. => true
  | _ => false

/-- The names that a statement reads from the scope around it. -/
def Node.partIds (n : Node) : List String :=
  n.evaluatedParts.flatMap Node.freeIds

namespace Flow

namespace Progress

variable {i : Nat} {p : Progress} {f : StatementFacts}

/-- Uses ask the state at hand. They add to what is known of the statement itself only, on which it
does not depend. -/
theorem facts_uses (us : List Use) (found : p.facts[i]? = some f) (index : f.index = i) :
    ∃ g, (us.foldl (fun q u => q.use i u) p).facts[i]? = some g ∧
      f.Notes p.facts (fun name origin => ∃ u ∈ us, p.state.Asked u.name name origin) g := by
  induction us generalizing p f with
  | nil => exact ⟨f, found, StatementFacts.notes_nothing _ _ fun name origin => by simp⟩
  | cons u rest ih =>
    have first := f.notes_use p.facts p.state u
    have there : (p.use i u).facts[i]? = some (f.use p.facts p.state u) := by
      rw [use, revise, Array.getElem?_modify, if_pos rfl, found]
      rfl
    obtain ⟨g, foundG, notes⟩ := ih there (first.index.trans index)
    have others : f.use p.facts p.state u |>.Notes p.facts
        (fun name origin => ∃ u ∈ rest, p.state.Asked u.name name origin) g := by
      refine { notes with inbound := fun edge => (notes.inbound edge).trans (or_congr_right ?_) }
      refine exists_congr fun name => exists_congr fun k => ?_
      by_cases same : k = i
      · subst same
        constructor
        · rintro ⟨source, _, foundS, apart, _⟩
          rw [there] at foundS
          exact absurd (congrArg StatementFacts.index (Option.some.inj foundS)).symm apart
        · rintro ⟨source, _, foundS, apart, _⟩
          rw [found] at foundS
          exact absurd ((congrArg StatementFacts.index (Option.some.inj foundS)).symm.trans
            first.index.symm) apart
      · rw [(p.works_use i u).frame k same]
        rfl
    refine ⟨g, foundG, (first.trans others).congr fun name origin => ?_⟩
    simp

theorem facts_defineAll (ds : List Definition) (found : p.facts[i]? = some f) :
    ∃ known, (p.defineAll i ds).facts[i]? = some { f with definitions := known } := by
  induction ds generalizing p f with
  | nil => exact ⟨f.definitions, found⟩
  | cons d rest ih =>
    refine ih (p := p.define i d) (f := f.define d) ?_
    rw [define, revise, Array.getElem?_modify, if_pos rfl, found]
    rfl

/-- What evaluating known expressions adds to what is known of the statement, what it binds
apart. -/
theorem facts_evaluate (env : Env) {es : List Node}
    (known : ∀ e ∈ es, e.runsUnknown env.settings = false) (found : p.facts[i]? = some f)
      (index : f.index = i) : ∃ g ds, (p.evaluate env i es).facts[i]? = some g ∧
        { f with definitions := ds }.Notes p.facts
        (fun name origin => ∃ id ∈ es.flatMap Node.freeIds, p.state.Asked id name origin) g := by
  obtain ⟨g, foundG, notes⟩ := facts_uses
    (es.flatMap fun e => (e.reads env.isPure .bare).map useOfRead) found index
  have read : (p.readAll env i es).facts[i]? = some g := by
    rw [readAll_eq env i known]
    exact foundG
  obtain ⟨ds, bound⟩ := facts_defineAll (p := { p.readAll env i es with pending := [] })
    (p.readAll env i es).pending read
  have same : ∀ name origin, (∃ u ∈ es.flatMap fun e => (e.reads env.isPure .bare).map useOfRead,
      p.state.Asked u.name name origin) ↔ ∃ id ∈ es.flatMap Node.freeIds, p.state.Asked id name
      origin := ?_
  have noted := notes.congr same
  · exact ⟨_, ds, bound, noted.index, noted.node, rfl, noted.entry, noted.free, noted.globalWrites,
      noted.dynamic, noted.external, noted.inbound⟩
  intro name origin
  simp only [mem_flatMap, Node.freeIds, Node.ids_reads (fun _ => false) env.isPure .bare .bare,
    mem_map]
  constructor
  · rintro ⟨_, ⟨e, part, r, read, rfl⟩, asked⟩
    exact ⟨r.id, ⟨e, part, r, read, rfl⟩, asked⟩
  · rintro ⟨_, ⟨e, part, r, read, rfl⟩, asked⟩
    exact ⟨useOfRead r, ⟨e, part, r, read, rfl⟩, asked⟩

end Progress

theorem perform_eq_evaluate (env : Env) (i : Nat) {n : Node} (only : n.evaluatesOnly = true)
    (p : Progress) : p.perform env i n = p.evaluate env i n.evaluatedParts := by
  cases n <;> first | rfl | exact nomatch only

/-- The statement depends on exactly the data that the names get from where they are told to, itself
apart. -/
structure StatementFacts.Exact (nodes : Nat → Option Node) (names : List String)
    (reaches : String → Origin → Prop) (f : StatementFacts) : Prop where
  data : ∀ edge : Edge, edge ∈ f.inbound ∧ edge.kind = .data ↔ ∃ name ∈ names, ∃ k n, k ≠ f.index ∧
    (reaches name (.statement k) ∨ reaches allNames (.statement k)) ∧ nodes k = some n ∧
    edge = ⟨.data, n.loc, f.location, some name⟩
  external : ∀ name, name ∈ f.external ↔ name ∈ names ∧ reaches name .entry

/-- Asking a state for names other than the one for all names. -/
theorem exists_asked_iff {names : List String} (star : allNames ∉ names) {s : State} {name : String}
    {origin : Origin} : (∃ id ∈ names, s.Asked id name origin) ↔
      name ∈ names ∧ (origin ∈ s.reaching name ∨ origin ≠ .entry ∧
        origin ∈ s.reaching allNames) := by
  constructor
  · rintro ⟨id, member, asked⟩
    rw [State.Asked, if_neg fun same : id = allNames => star (same ▸ member)] at asked
    exact ⟨asked.1 ▸ member, asked.2⟩
  · rintro ⟨member, reaches⟩
    refine ⟨name, member, ?_⟩
    rw [State.Asked, if_neg fun same : name = allNames => star (same ▸ member)]
    exact ⟨rfl, reaches⟩

namespace StatementFacts

variable {env : Env} {scope : Scope} {nodes : Nat → Option Node} {names : List String}
  {reaches : String → Origin → Prop} {f g : StatementFacts} {p : Progress}

theorem Exact.congr {others : String → Origin → Prop} (exact : f.Exact nodes names reaches)
    (same : ∀ name origin, reaches name origin ↔ others name origin) :
    f.Exact nodes names others := by
  refine ⟨fun edge => (exact.data edge).trans ?_, fun name => (exact.external name).trans ?_⟩ <;>
    simp only [same]

/-- A statement that has only been entered. -/
theorem exact_entered (external : f.external = ∅)
    (control : ∀ edge ∈ f.inbound, edge.kind = .control) :
    f.Exact nodes names fun _ _ => False where
  data edge := by
    constructor
    · rintro ⟨member, kind⟩
      exact nomatch (control edge member).symm.trans kind
    · rintro ⟨_, _, _, _, _, reaches, _⟩
      exact reaches.elim False.elim False.elim
  external name := by simp [external]

/-- What asking a sound state adds is exact for this state. -/
theorem Exact.noted (exact : f.Exact nodes names reaches) (kept : p.Kept env scope nodes)
    (star : allNames ∉ names) (notes : f.Notes p.facts
    (fun name origin => ∃ id ∈ names, p.state.Asked id name origin) g) :
    g.Exact nodes names fun name origin => reaches name origin ∨
    origin ∈ p.state.reaching name := by
  have place : g.location = f.location := congrArg Node.loc notes.node
  refine ⟨fun edge => ?_, fun name => ?_⟩
  · rw [notes.inbound, notes.index, place]
    simp only [exists_asked_iff star, ne_eq, reduceCtorEq, not_false_eq_true, true_and]
    constructor
    · rintro ⟨old | ⟨name, k, source, ⟨member, now⟩, found, apart, rfl⟩, kind⟩
      · obtain ⟨name, member, k, n, apart, before, rest⟩ := (exact.data edge).mp ⟨old, kind⟩
        exact ⟨name, member, k, n, apart, before.imp Or.inl Or.inl, rest⟩
      · have fitting := Progress.Kept.fitting kept found
        exact ⟨name, member, k, source.node, fitting.index ▸ apart, now.imp Or.inr Or.inr,
          fitting.node, rfl⟩
    · rintro ⟨name, member, k, n, apart, reached, here, rfl⟩
      refine ⟨?_, rfl⟩
      by_cases now : .statement k ∈ p.state.reaching name ∨ .statement k ∈ p.state.reaching allNames
      · have founded : ∃ source, p.facts[k]? = some source :=
          now.elim (fun own => (kept.state.founded name k own).imp fun _ => And.left)
            fun anything => (kept.state.founded allNames k anything).imp fun _ => And.left
        obtain ⟨source, found⟩ := founded
        have fitting := Progress.Kept.fitting kept found
        obtain rfl := Option.some.inj (fitting.node.symm.trans here)
        exact Or.inr ⟨name, k, source, ⟨member, now⟩, found, fitting.index.symm ▸ apart, rfl⟩
      · have before : reaches name (.statement k) ∨ reaches allNames (.statement k) := by
          rcases reached with (own | own) | (own | own)
          · exact Or.inl own
          · exact absurd (Or.inl own) now
          · exact Or.inr own
          · exact absurd (Or.inr own) now
        exact Or.inl ((exact.data _).mpr ⟨name, member, k, n, apart, before, here, rfl⟩).1
  · rw [notes.external, exact.external, exists_asked_iff star]
    simp only [ne_eq, not_true_eq_false, false_and, or_false, and_or_left]

end StatementFacts

theorem flat_of_evaluatesOnly {n : Node} (only : n.evaluatesOnly = true) :
    n.kind.isCompound = false := by
  cases n <;> first | rfl | exact nomatch only

/-- The names that a statement reads stand in it. -/
theorem partIds_subset {n : Node} (only : n.evaluatesOnly = true) : n.partIds ⊆ n.identifiers := by
  intro id member
  obtain ⟨e, part, read⟩ := mem_flatMap.mp member
  obtain ⟨r, among, rfl⟩ := mem_map.mp read
  have child : e ∈ n.children := by
    cases n <;> first | exact part | exact nomatch only
  exact Node.identifiers_subset_of_child child (Node.reads_subset among)

/-- The facts of a statement that only evaluates known expressions are exact. -/
def StatementFacts.ExactReads (nodes : Nat → Option Node) (f : StatementFacts) : Prop :=
  f.node.evaluatesOnly = true → f.dynamic = false →
    f.Exact nodes f.node.partIds fun name origin => origin ∈ f.reaching name

/-- Each visit of a statement that only evaluates known expressions leaves its facts exact. -/
theorem exactReads_visit {env : Env} {scope : Scope} {nodes : Nat → Option Node} {i : Nat}
    {n : Node} {p : Progress} (kept : p.Kept env scope nodes)
    (told : ∀ f, p.facts[i]? = some f → f.ExactReads nodes) (parent : Option Nat)
    (stated : Stated scope nodes i n) (fits : i ≤ p.facts.size) (star : allNames ∉ n.identifiers)
    {g : StatementFacts}
    (found : (((p.enter parent i n).perform env i n).leave i n p.state).facts[i]? = some g) :
    g.ExactReads nodes := by
  have entered := Progress.Kept.enter kept parent stated.here stated.below fits
  obtain ⟨f, foundF, reached⟩ := Progress.facts_enter parent n fits
  have node : f.node = n := Option.some.inj ((entered.fitting foundF).node.symm.trans stated.here)
  have works := (Progress.works_perform env i n (p.enter parent i n)).trans
    (Progress.works_leave i n p.state _)
  obtain ⟨_, found', grows⟩ := works.own f foundF
  obtain rfl := Option.some.inj (found.symm.trans found')
  intro only settled
  rw [grows.node, node] at only
  -- The statement is known not to run unknown code only if it does not.
  obtain ⟨_, found'', flag⟩ := ((Progress.does_perform env i n entered.settled).flags.trans
    (Progress.flags_leave i n p.state _)) f foundF
  obtain rfl := Option.some.inj (found.symm.trans found'')
  rw [Bool.or_false, settled, Eq.comm, Bool.or_eq_false_iff] at flag
  obtain ⟨quiet, clear⟩ := flag
  have known : ∀ e ∈ n.evaluatedParts, e.runsUnknown env.settings = false := fun e part =>
    Bool.eq_false_iff.mpr (any_eq_false.mp (Bool.or_eq_false_iff.mp clear).2 e part)
  have names : allNames ∉ n.partIds := fun among => star (partIds_subset only among)
  obtain ⟨h, ds, foundH, notes⟩ := Progress.facts_evaluate env known foundF
    (entered.fitting foundF).index
  have same : g = h := by
    rw [perform_eq_evaluate env i only, Progress.leave, foundH] at found
    simp only [Option.map_some, Option.getD_some, notes.dynamic, quiet, Bool.false_eq_true,
      if_false] at found
    exact Option.some.inj (found.symm.trans foundH)
  subst same
  have partIds : g.node.partIds = n.partIds := by rw [grows.node, node]
  rw [partIds]
  have entry : g.entry = f.entry := notes.entry
  have state : (p.enter parent i n).state = p.state := state_enter ..
  rcases reached with ⟨e, foundE, rfl⟩ | ⟨_, _, _, first, external, _, _, _, _, control⟩
  · have before := told e foundE (node ▸ only) quiet
    rw [show e.node.partIds = n.partIds from congrArg Node.partIds node] at before
    have exact : StatementFacts.Exact nodes n.partIds (fun name origin => origin ∈ e.reaching name)
        { e with entry := e.entry.merge p.state, definitions := ds } :=
        ⟨before.data, before.external⟩
    refine (exact.noted entered names notes).congr fun name origin => ?_
    show _ ↔ origin ∈ g.entry.reaching name
    rw [entry, State.mem_reaching_merge, state]
    rfl
  · have exact : StatementFacts.Exact nodes n.partIds (fun _ _ => False)
        { f with definitions := ds } :=
      StatementFacts.exact_entered external control
    refine (exact.noted entered names notes).congr fun name origin => ?_
    rw [false_or, StatementFacts.reaching, entry, first, state]

theorem steady_exactReads (settings : Settings) (writes : GlobalWrites) {tree : Node}
    (star : allNames ∉ tree.identifiers) :
      ((Trait.sound (.ofModule settings writes tree.code) (.ofBlock writes [] tree.code)
      (statementAt tree.code)).flats (StatementFacts.ExactReads (statementAt tree.code))).Steady
      (.ofModule settings writes tree.code)
      (Stated (.ofBlock writes [] tree.code) (statementAt tree.code))
      (Action.Plain (vocabulary writes [] tree.code)) := by
  have sound := Trait.steady_module settings writes tree.code
  refine sound.flats fun {i n p} parent stated flat fits held g found => ?_
  refine exactReads_visit held.of_flats (fun f before => ?_) parent stated fits
    (absent_of_statementAt star stated.here) found
  exact held.facts.2 i f before (sound.here held.facts.1 stated before ▸ flat)

/-- The data that a statement depends on, if it only evaluates known expressions: it depends, by a
name that it reads, on every other statement that reaches the name or may have bound any name, and
on nothing else. It needs a name from before the module exactly if it reads it and it may still have
its value from there. -/
theorem dependences_exact {settings : Settings} {writes : GlobalWrites} {tree : Node} {r : Result}
    (analyzed : analyze settings writes tree = .ok r) (star : allNames ∉ tree.identifiers)
    {f : StatementFacts} (recorded : f ∈ r.statements) (only : f.node.evaluatesOnly = true)
    (clear : f.dynamic = false) : (∀ edge : Edge, edge ∈ f.inbound ∧ edge.kind = .data ↔
      ∃ name ∈ f.node.partIds, ∃ k source, k ≠ f.index ∧
      (.statement k ∈ f.reaching name ∨ .statement k ∈ f.reaching allNames) ∧
      r.statements[k]? = some source ∧ edge = ⟨.data, source.location, f.location, some name⟩) ∧
      ∀ name, name ∈ f.external ↔ name ∈ f.node.partIds ∧ .entry ∈ f.reaching name := by
  obtain ⟨known, _, told⟩ := Trait.flats_analyze analyzed (steady_exactReads settings writes star)
  obtain ⟨data, external⟩ := told f recorded (flat_of_evaluatesOnly only) only clear
  refine ⟨fun edge => (data edge).trans ?_, external⟩
  obtain ⟨j, foundF⟩ := Array.mem_iff_getElem?.mp recorded
  have entry := (known j f foundF).2.2.entry
  constructor
  · rintro ⟨name, member, k, n, apart, reaches, here, rfl⟩
    have founded : ∃ source, r.statements[k]? = some source :=
      reaches.elim (fun own => (entry.founded name k own).imp fun _ => And.left)
        fun anything => (entry.founded allNames k anything).imp fun _ => And.left
    obtain ⟨source, found⟩ := founded
    obtain rfl := Option.some.inj ((known k source found).1.node.symm.trans here)
    exact ⟨name, member, k, source, apart, reaches, found, rfl⟩
  · rintro ⟨name, member, k, source, apart, reaches, found, rfl⟩
    exact ⟨name, member, k, source.node, apart, reaches, (known k source found).1.node, rfl⟩

/-- `from m import *`, then `x = k`, then `while c:` with `assert x, y` and `x = z`. -/
def assertedInLoop : Node :=
  .module default
    [.importsFrom ⟨1, 0, 1, 15⟩ "m" 0 [⟨"*", none⟩],
      .assign ⟨2, 0, 2, 5⟩ [.name default "x"] (some (.name default "k")) none none false,
      .whileLoop ⟨3, 0, 5, 9⟩ default (.name default "c")
        [.assertion ⟨4, 4, 4, 15⟩ (.name default "x") (some (.name default "y")),
          .assign ⟨5, 4, 5, 9⟩ [.name default "x"] (some (.name default "z")) none none false] none]

/-- The assertion depends on the assignment behind it, which reaches it in the second pass, and on
the import for the name that only the import may have bound. -/
theorem dependences_exact_asserted :
    allNames ∉ assertedInLoop.identifiers ∧ ∃ r f, analyze ⟨∅, ∅⟩ ∅ assertedInLoop = .ok r ∧
      f ∈ r.statements ∧ f.node.evaluatesOnly = true ∧ f.dynamic = false ∧
      ⟨.data, ⟨5, 4, 5, 9⟩, ⟨4, 4, 4, 15⟩, some "x"⟩ ∈ f.inbound ∧
      ⟨.data, ⟨1, 0, 1, 15⟩, ⟨4, 4, 4, 15⟩, some "y"⟩ ∈ f.inbound ∧ "y" ∈ f.external ∧
      "x" ∉ f.external := by
  have star : allNames ∉ assertedInLoop.identifiers := by decide
  obtain ⟨r, analyzed⟩ : ∃ r, analyze ⟨∅, ∅⟩ ∅ assertedInLoop = .ok r := ⟨_, rfl⟩
  have statements : r.statements.size = 5 := by
    obtain rfl := (analyze_eq_ok analyzed).2
    decide +kernel
  have found : ∀ k, (below : k < 5) → ∃ f, r.statements[k]? = some f :=
    fun k below => ⟨_, Array.getElem?_eq_getElem (statements.symm ▸ below)⟩
  obtain ⟨f, foundF⟩ := found 3 (by decide)
  obtain ⟨import_, foundI⟩ := found 0 (by decide)
  obtain ⟨assign, foundA⟩ := found 4 (by decide)
  have known : (f.node.evaluatesOnly = true ∧ f.dynamic = false ∧ f.index = 3 ∧
      f.location = ⟨4, 4, 4, 15⟩ ∧ f.node.partIds = ["x", "y"] ∧ .statement 4 ∈ f.reaching "x" ∧
      .statement 0 ∈ f.reaching allNames ∧ .entry ∈ f.reaching "y" ∧ .entry ∉ f.reaching "x") ∧
      import_.location = ⟨1, 0, 1, 15⟩ ∧ assign.location = ⟨5, 4, 5, 9⟩ := by
    obtain rfl := (analyze_eq_ok analyzed).2
    obtain rfl := Option.some.inj foundF
    obtain rfl := Option.some.inj foundI
    obtain rfl := Option.some.inj foundA
    decide +kernel
  obtain ⟨⟨only, clear, index, place, names, again, anything, before, bound⟩, imported, assigned⟩ :=
    known
  have recorded := Array.mem_of_getElem? foundF
  obtain ⟨data, external⟩ := dependences_exact analyzed star recorded only clear
  rw [index, place, names] at data
  rw [names] at external
  refine ⟨star, r, f, analyzed, recorded, only, clear, ?_, ?_, ?_, ?_⟩
  · refine ((data _).mpr ⟨"x", by decide, 4, assign, by decide, Or.inl again, foundA, ?_⟩).1
    rw [assigned]
  · refine ((data _).mpr ⟨"y", by decide, 0, import_, by decide, Or.inr anything, foundI, ?_⟩).1
    rw [imported]
  · exact (external "y").mpr ⟨by decide, before⟩
  · exact fun member => bound ((external "x").mp member).2

end Flow

end Lineage
