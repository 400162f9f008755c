import Lineage.Proofs.Flow.Nesting

/-!
What the result of an analysis tells is founded. Every state that it records gives each of its names
some statement, and each such statement defines the name; every dependence on data is on a statement
that defines what is read. A trait that is steady in a module belongs to the result of its analysis.
-/

namespace Lineage.Flow

open List

variable {writes : GlobalWrites} {tree : Node} {r : Result} {settings : Settings}

/-- The trait, and a property of the facts of statements without blocks. -/
def Trait.flats (t : Trait) (known : StatementFacts → Prop) : Trait where
  facts all := t.facts all ∧
    ∀ (k : Nat) (f : StatementFacts), all[k]? = some f → f.node.kind.isCompound = false → known f
  state := t.state

namespace Trait

variable {t : Trait} {env : Env} {good : Nat → Node → Prop} {fine : Action → Prop}
  {known : StatementFacts → Prop}

theorem Held.of_flats {p : Progress} (held : (t.flats known).Held p) : t.Held p :=
  { held with facts := held.facts.1 }

/-- What every visit of a statement without blocks finds is kept, since nothing else touches what is
known of it. -/
theorem Steady.flats (steady : t.Steady env good fine)
    (visit : ∀ {i : Nat} {n : Node} {p : Progress} (parent : Option Nat), good i n →
      n.kind.isCompound = false →
      i ≤ p.facts.size → (t.flats known).Held p → ∀ g,
      (((p.enter parent i n).perform env i n).leave i n p.state).facts[i]? = some g → known g) :
    (t.flats known).Steady env good fine := by
  -- A compound statement may change, of the others nothing does.
  have aside : ∀ {p q : Progress} {i : Nat}, (t.flats known).Held p → t.facts q.facts →
      (∀ k, k ≠ i → q.facts[k]? = p.facts[k]?) →
      (∀ g, q.facts[i]? = some g → g.node.kind.isCompound = false → known g) →
        (t.flats known).facts q.facts := by
    intro p q i held facts frame own
    refine ⟨facts, fun k f found flat => ?_⟩
    by_cases same : k = i
    · subst same
      exact own f found flat
    · exact held.facts.2 k f ((frame k same).symm.trans found) flat
  have works : ∀ {p q : Progress} {i : Nat} {f : StatementFacts}, p.facts[i]? = some f →
      f.node.kind.isCompound = true →
      (t.flats known).Held p → p.Works i q → t.facts q.facts → (t.flats known).facts q.facts := by
    intro p q i f found compound held works facts
    refine aside held facts works.frame fun g foundG flat => ?_
    obtain ⟨g', foundG', grows⟩ := works.own f found
    obtain rfl := Option.some.inj (foundG.symm.trans foundG')
    rw [grows.node, compound] at flat
    exact nomatch flat
  refine ⟨steady.mono, steady.merge, fun facts => steady.here facts.1, ?_, ?_, ?_, ?_⟩
  · intro i n p parent here compound fits held
    have entered := steady.enter parent here compound fits held.of_flats
    refine aside held entered (fun k other => frame_enter parent n fits other)
      fun g found flat => ?_
    rw [steady.here entered here found, compound] at flat
    exact nomatch flat
  · intro i p f action found compound plain parts held
    have acted := steady.act found compound plain parts held.of_flats
    exact { acted with
      facts := works found compound held (p.draws_act env i action).works acted.facts }
  · intro i p f s found compound held before
    exact works found compound held (p.works_revise i
      fun f : StatementFacts => f.grows_useEverything p.facts s)
      (steady.leave found compound held.of_flats before)
  · intro i n p parent here flat fits held
    obtain ⟨done, under⟩ := steady.flat parent here flat fits held.of_flats
    have others : ∀ k, k ≠ i →
        (((p.enter parent i n).perform env i n).leave i n p.state).facts[k]? = p.facts[k]? := by
      intro k other
      rw [(Progress.works_leave i n p.state _).frame k other,
          (Progress.works_perform env i n _).frame k other]
      exact frame_enter parent n fits other
    have facts := aside held done.facts others fun g found _ => visit parent here flat fits
        held g found
    exact ⟨{ done with facts := facts }, under⟩

/-- The result of analysing a module has every trait that is steady in it. -/
theorem Steady.analyze (analyzed : analyze settings writes tree = .ok r)
    (steady : t.Steady (.ofModule settings writes tree.code)
      (Stated (.ofBlock writes [] tree.code) (statementAt tree.code))
      (Action.Plain (vocabulary writes [] tree.code)))
    (start : t.Held (.start ∅)) : ∃ p, t.Held p ∧ p.facts = r.statements ∧ p.state = r.exit := by
  obtain ⟨faultless, rfl⟩ := analyze_eq_ok analyzed
  have leads := steady.visitBlock (Nat.succ_pos _) (Node.plain_of_blockFault faultless) start
  exact ⟨_, leads.kept, rfl, rfl⟩

/-- What is known while a module is analysed stays sound. -/
theorem steady_module (settings : Settings) (writes : GlobalWrites) (code : List Node) :
    (sound (.ofModule settings writes code) (.ofBlock writes [] code) (statementAt code)).Steady
      (.ofModule settings writes code) (Stated (.ofBlock writes [] code) (statementAt code))
      (Action.Plain (vocabulary writes [] code)) :=
  steady_sound _ (known_vocabulary writes [] code rfl)

theorem sound_start (settings : Settings) (writes : GlobalWrites) (code : List Node) :
    (sound (.ofModule settings writes code) (.ofBlock writes [] code) (statementAt code)).Held
    (.start ∅) :=
  Progress.Kept.start (State.within_empty _)
    fun name k => by simp [State.reaching_empty, State.mem_untouched]

/-- What visits of statements without blocks find is known of the result of analysing a module, and
all of it is sound. -/
theorem flats_analyze (analyzed : analyze settings writes tree = .ok r)
    (steady : ((sound (.ofModule settings writes tree.code) (.ofBlock writes [] tree.code)
      (statementAt tree.code)).flats known).Steady (.ofModule settings writes tree.code)
      (Stated (.ofBlock writes [] tree.code) (statementAt tree.code))
      (Action.Plain (vocabulary writes [] tree.code))) :
    (sound (.ofModule settings writes tree.code) (.ofBlock writes [] tree.code)
        (statementAt tree.code)).facts r.statements ∧
      r.exit.Sound (.ofModule settings writes tree.code)
        (.ofBlock writes [] tree.code) r.statements ∧
      ∀ f ∈ r.statements, f.node.kind.isCompound = false → known f := by
  have start := sound_start settings writes tree.code
  obtain ⟨p, held, facts, exit⟩ := steady.analyze analyzed
    { start with facts := ⟨start.facts, fun k f found => by simp [Progress.start] at found⟩ }
  have ending := held.state
  rw [facts, exit] at ending
  refine ⟨facts ▸ held.facts.1, ending, fun f recorded => ?_⟩
  obtain ⟨k, found⟩ := Array.mem_iff_getElem?.mp recorded
  exact held.facts.2 k f (facts ▸ found)

end Trait

/-- Every edge comes from a statement that has been recorded. -/
def Rooted (facts : Array StatementFacts) : Prop :=
  ∀ f ∈ facts, ∀ edge ∈ f.inbound, ∃ g ∈ facts, g.location = edge.source

theorem rooted_analyze (analyzed : analyze settings writes tree = .ok r) : Rooted r.statements := by
  obtain ⟨p, held, facts, _⟩ := (Trait.steady_module settings writes tree.code).analyze analyzed
    (Trait.sound_start settings writes tree.code)
  intro f recorded edge inbound
  obtain ⟨k, found⟩ := Array.mem_iff_getElem?.mp recorded
  cases kind : edge.kind with
  | data =>
    have known := held.facts k f (facts ▸ found)
    obtain ⟨name, j, source, d, _, foundS, comes, _⟩ := known.2.2.data edge inbound kind
    exact ⟨source, Array.mem_of_getElem? (facts ▸ foundS), comes.symm⟩
  | control =>
    -- A statement depends on the one around it, which has been recorded too.
    obtain ⟨faultless, rfl⟩ := analyze_eq_ok analyzed
    have plain := Node.plain_of_blockFault faultless
    obtain ⟨place, foundPlace, standing⟩ := exists_place settings writes plain found
    have control : edge ∈ f.controls := mem_filter.mpr ⟨inbound, by simp [kind]⟩
    rw [standing.controls] at control
    cases nested_blockPlaces none 0 tree.code place (mem_of_getElem? foundPlace) with
    | top around =>
      rw [around] at control
      exact absurd control not_mem_nil
    | @inside outer among around =>
      rw [around] at control
      obtain rfl := List.mem_singleton.mp control
      obtain ⟨j, foundOuter⟩ := mem_iff_getElem?.mp among
      obtain ⟨g, foundG, heldG⟩ := held_analyzeBlock settings writes plain foundOuter
      exact ⟨g, Array.mem_of_getElem? foundG, congrArg Node.loc heldG.node⟩

/-- What stands nowhere in a module stands in none of its statements. -/
theorem absent_of_statementAt {name : String} (absent : name ∉ tree.identifiers) {i : Nat}
    {n : Node} (here : statementAt tree.code i = some n) : name ∉ n.identifiers := by
  obtain ⟨c, among, inside⟩ := Node.mem_nodes_of_blockStatements (mem_of_getElem? here)
  exact fun own => absent (Node.identifiers_subset (code_subset_nodes tree among)
    (Node.identifiers_subset inside own))

/-- The facts of a statement that runs unknown code and neither has blocks nor defines anything. -/
def StatementFacts.BindsAnyName (f : StatementFacts) : Prop :=
  f.node.kind.isCompound = false ∧ f.node.kind.isDefinition = false ∧ f.dynamic = true

/-- A statement that is left knows of one definition only if it may bind anything. -/
theorem definitions_leave {i : Nat} {p : Progress} {n : Node} {entry : State} {g : StatementFacts}
    (found : (p.leave i n entry).facts[i]? = some g) (here : g.node = n) (loose : g.BindsAnyName) :
    g.definitions = [⟨allNames, allNames, .unknown, g.location⟩] := by
  obtain ⟨inside, _⟩ := Array.getElem?_eq_some_iff.mp found
  rw [(Progress.works_leave i n entry p).size] at inside
  obtain ⟨g', found', notes⟩ := Progress.facts_leave (Array.getElem?_eq_getElem inside) n entry
  obtain rfl := Option.some.inj (found.symm.trans found')
  obtain ⟨flat, plain, dynamic⟩ := loose
  rw [here] at flat plain
  rw [notes.dynamic] at dynamic
  rw [notes.definitions, dynamic, flat, plain, StatementFacts.location, here]
  rfl

/-- Only the name for all names is known to be bound by a statement that may bind anything. -/
theorem steady_bindsAnyName (settings : Settings) (writes : GlobalWrites) (code : List Node) :
    ((Trait.sound (.ofModule settings writes code) (.ofBlock writes [] code)
      (statementAt code)).flats fun f =>
      f.BindsAnyName → f.definitions = [⟨allNames, allNames, .unknown, f.location⟩]).Steady
        (.ofModule settings writes code)
      (Stated (.ofBlock writes [] code) (statementAt code))
          (Action.Plain (vocabulary writes [] code)) := by
  have sound := Trait.steady_module settings writes code
  refine sound.flats fun parent stated flat fits held g found loose => ?_
  obtain ⟨done, _⟩ := sound.flat parent stated flat fits held.of_flats
  exact definitions_leave found (sound.here done.facts stated found) loose

namespace Result

/-- What an analysis tells to reach a point: the exit, or a statement. -/
def Records (r : Result) (s : State) : Prop :=
  s = r.exit ∨ ∃ f ∈ r.statements, s = f.entry

/-- Every name in the state may have a value from some statement. The value of a name is from before
the module, or from a statement that defines the name. -/
structure WellFormed (r : Result) (s : State) : Prop where
  keys : ∀ name, name ∈ s → ∃ k, .statement k ∈ s.reaching name
  origins : ∀ name origin, origin ∈ s.reaching name → origin = .entry ∨
    ∃ (k : Nat) (f : StatementFacts), origin = .statement k ∧ r.statements[k]? = some f ∧
      f.index = k ∧ ∃ d ∈ f.definitions, d.name = name

end Result

/-- States that are sound next to the facts of a module. -/
theorem wellFormed_of_sound {env : Env} {code : List Node} {nodes : Nat → Option Node} {s : State}
    (facts : (Trait.sound env (.ofBlock writes [] code) nodes).facts r.statements)
    (sound : s.Sound env (.ofBlock writes [] code) r.statements) : r.WellFormed s := by
  have parameterless : ∀ name, .parameter ∉ s.reaching name :=
    fun name reaches => absurd (sound.within.parameters name reaches) Std.ExtTreeSet.not_mem_empty
  refine ⟨fun name held => ?_, fun name origin reaches => ?_⟩
  · obtain ⟨origin, reaches, other⟩ := sound.within.grounded name held
    cases origin with
    | parameter => exact absurd reaches (parameterless name)
    | entry => exact absurd rfl other
    | statement k => exact ⟨k, reaches⟩
  · cases origin with
    | parameter => exact absurd reaches (parameterless name)
    | entry => exact Or.inl rfl
    | statement k =>
      obtain ⟨f, found, defines⟩ := sound.founded name k reaches
      exact Or.inr ⟨k, f, rfl, found, (facts k f found).1.index, defines⟩

/-- Whatever an analysis tells to reach a statement or the end is well formed, and each dependence
on data is on a statement that defines the name that is read, or every name. So the names that the
module may have given a value are those that the exit holds; and a statement that runs unknown code
and neither has blocks nor defines anything is known to define all names at once, and stands nowhere
but under the name for all names. -/
theorem analyze_wellFormed {settings : Settings} {writes : GlobalWrites} {tree : Node} {r : Result}
    (analyzed : analyze settings writes tree = .ok r) :
    (∀ s, r.Records s → r.WellFormed s) ∧
      (∀ f ∈ r.statements, ∀ edge ∈ f.inbound, edge.kind = .data →
        ∃ name, edge.name = some name ∧ ∃ source ∈ r.statements, source.location = edge.source ∧
          ∃ d ∈ source.definitions, d.name = name ∨ d.name = allNames) ∧
      r.definedNames = r.exit.keys ∧
      ∀ f ∈ r.statements, f.BindsAnyName →
        f.definitions = [⟨allNames, allNames, .unknown, f.location⟩] ∧
        ∀ s, r.Records s → ∀ name, .statement f.index ∈ s.reaching name → name = allNames := by
  obtain ⟨known, ending, bound⟩ := Trait.flats_analyze analyzed
    (steady_bindsAnyName settings writes tree.code)
  have wellFormed : ∀ s, r.Records s → r.WellFormed s := by
    rintro s (rfl | ⟨f, recorded, rfl⟩)
    · exact wellFormed_of_sound known ending
    · obtain ⟨k, found⟩ := Array.mem_iff_getElem?.mp recorded
      exact wellFormed_of_sound known (known k f found).2.2.entry
  refine ⟨wellFormed, fun f recorded edge member kind => ?_, ?_, fun f recorded loose => ?_⟩
  · obtain ⟨k, found⟩ := Array.mem_iff_getElem?.mp recorded
    obtain ⟨name, j, source, d, named, foundS, comes, defines, same⟩ :=
    (known k f found).2.2.data edge member kind
    exact ⟨name, named, source, Array.mem_of_getElem? foundS, comes.symm, d, defines, same⟩
  · refine filter_eq_self.mpr fun name held => bne_iff_ne.mpr fun same => ?_
    obtain ⟨k, reaches⟩ := (wellFormed r.exit (Or.inl rfl)).keys
      name (Std.ExtTreeMap.mem_keys.mp held)
    rw [same, State.mem_untouched] at reaches
    exact nomatch reaches
  · have only := bound f recorded loose.1 loose
    refine ⟨only, fun s records name reaches => ?_⟩
    obtain ⟨j, found⟩ := Array.mem_iff_getElem?.mp recorded
    rcases (wellFormed s records).origins name _ reaches with same | ⟨k, g, same, foundG, _, d,
      defines, rfl⟩
    · exact nomatch same
    · obtain rfl := Origin.statement.inj same
      rw [(known j f found).1.index] at foundG
      obtain rfl := Option.some.inj (found.symm.trans foundG)
      rw [only] at defines
      rw [List.mem_singleton.mp defines]

/-- `x = k`, then `while x:` with `exec(x)` and `x = y`, then `x`. -/
def executedInLoop : Node :=
  .module default
    [.assign ⟨1, 0, 1, 5⟩ [.name default "x"] (some (.name default "k")) none none false,
      .whileLoop ⟨2, 0, 4, 9⟩ default (.name default "x")
        [.expression ⟨3, 4, 3, 11⟩ (.call default (.name default "exec") [.name default "x"] []),
          .assign ⟨4, 4, 4, 9⟩ [.name default "x"] (some (.name default "y")) none none false] none,
      .expression ⟨5, 0, 5, 1⟩ (.name default "x")]

/-- What `exec` runs in a loop is not known. It stands at the head of the loop under the name for
all names. -/
theorem analyze_wellFormed_executed :
    ∃ r, analyze ⟨∅, {"exec"}⟩ ∅ executedInLoop = .ok r ∧ (∀ s, r.Records s → r.WellFormed s) ∧
      r.definedNames = r.exit.keys ∧ ∃ f ∈ r.statements, f.BindsAnyName ∧ f.index = 2 ∧
        f.definitions = [⟨allNames, allNames, .unknown, ⟨3, 4, 3, 11⟩⟩] ∧
        .statement 2 ∈ f.reaching allNames ∧ .statement 2 ∉ f.reaching "x" := by
  obtain ⟨r, analyzed⟩ : ∃ r, analyze ⟨∅, {"exec"}⟩ ∅ executedInLoop = .ok r := ⟨_, rfl⟩
  obtain ⟨wellFormed, _, defined, loose⟩ := analyze_wellFormed analyzed
  refine ⟨r, analyzed, wellFormed, defined, ?_⟩
  obtain ⟨f, found⟩ : ∃ f, r.statements[2]? = some f := by
    obtain rfl := (analyze_eq_ok analyzed).2
    exact ⟨_, rfl⟩
  have recorded := Array.mem_of_getElem? found
  have known : f.BindsAnyName ∧ f.index = 2 ∧ f.location = ⟨3, 4, 3, 11⟩ ∧
      .statement 2 ∈ f.reaching allNames := by
    obtain rfl := (analyze_eq_ok analyzed).2
    obtain rfl := Option.some.inj found
    unfold StatementFacts.BindsAnyName
    decide +kernel
  obtain ⟨runs, index, place, reaches⟩ := known
  obtain ⟨only, nowhere⟩ := loose f recorded runs
  refine ⟨f, recorded, runs, index, place ▸ only, reaches, fun other => ?_⟩
  exact absurd (nowhere f.entry (Or.inr ⟨f, recorded, rfl⟩) "x" (index ▸ other)) (by decide)

end Lineage.Flow
