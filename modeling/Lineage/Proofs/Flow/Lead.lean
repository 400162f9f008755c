import Lineage.Proofs.Flow.Trait

/-!
What carrying out a plan keeps. The facts of each statement stand at its index, and they say of it
whether it runs unknown code and what the function it defines assigns outside; a state holds no
statement before these are known in full. Facts only rise, nothing is noted of loops elsewhere, and
jumps are only added.
-/

namespace Lineage

open List Std

/-- Whether a statement runs code that is not known, the statements in its blocks apart. -/
def Node.isUnclear (settings : Flow.Settings) (n : Node) : Bool :=
  if n.kind.isCompound then n.headParts.any (runsUnknown settings) else n.isOpaque settings

namespace Flow

variable {env : Env} {i k : Nat} {n : Node} {s : State} {f : StatementFacts}

/-- The names that calling what a statement defines assigns outside. -/
def outward (env : Env) : Node → NameSet
  | .function _ _ _ params _ code _ =>
    (functionBody env params code).writesOutside (declaredOutside code)
  | .decorated _ _ (.function _ _ _ params _ code _) =>
    (functionBody env params code).writesOutside (declaredOutside code)
  | _ => ∅

theorem outward_compound (compound : n.kind.isCompound = true) : outward env n = ∅ := by
  cases n <;> first | rfl | nomatch compound

namespace Action

/-- An action that neither jumps nor tells of a body. -/
def Quiet : Action → Prop
  | .evaluate _ | .define _ | .use _ => True
  | _ => False

/-- What compound statements do at their heads, with known names: they evaluate and bind. -/
def Plain (names : NameSet) : Action → Prop
  | .evaluate es => ∀ e ∈ es, Flow.NamedIn names e
  | .define d => d.name ∈ names
  | _ => False

end Action

/-! ### Assignments outside -/

theorem false_iff_mem_empty (name : String) : False ↔ name ∈ (∅ : NameSet) :=
  (iff_false_intro ExtTreeSet.not_mem_empty).symm

namespace Progress

/-- The names are added to those that calling what the statement defines is known to assign. -/
def Assigns (i : Nat) (writes : String → Prop) (p q : Progress) : Prop :=
  ∀ f, p.facts[i]? = some f → ∃ g, q.facts[i]? = some g ∧
    ∀ name, name ∈ g.globalWrites ↔ name ∈ f.globalWrites ∨ writes name

namespace Assigns

variable {i : Nat} {p q r : Progress} {a b : String → Prop}

theorem refl (i : Nat) (p : Progress) : Assigns i (fun _ => False) p p :=
  fun f found => ⟨f, found, fun _ => (or_iff_left id).symm⟩

theorem trans (first : Assigns i a p q) (second : Assigns i b q r) :
    Assigns i (fun name => a name ∨ b name) p r := by
  intro f found
  obtain ⟨g, foundG, names⟩ := first f found
  obtain ⟨h, foundH, more⟩ := second g foundG
  exact ⟨h, foundH, fun name => by rw [more, names, or_assoc]⟩

theorem congr (assigns : Assigns i a p q) (same : ∀ name, a name ↔ b name) : Assigns i b p q := by
  intro f found
  obtain ⟨g, foundG, names⟩ := assigns f found
  exact ⟨g, foundG, fun name => by rw [names, same]⟩

/-- Steps that assign nothing together assign nothing. -/
theorem foldl_none {α : Type} {step : Progress → α → Progress}
    (assigns : ∀ p x, Assigns i (fun _ => False) p (step p x)) (xs : List α) (p : Progress) :
    Assigns i (fun _ => False) p (xs.foldl step p) := by
  induction xs generalizing p with
  | nil => exact refl i p
  | cons x rest ih => exact ((assigns p x).trans (ih (step p x))).congr fun _ => or_self_iff

end Assigns

theorem assigns_revise (p : Progress) (i : Nat) {c : StatementFacts → StatementFacts}
    (same : ∀ f : StatementFacts, (c f).globalWrites = f.globalWrites) :
    Assigns i (fun _ => False) p (p.revise i c) := by
  intro f found
  refine ⟨c f, ?_, fun name => by rw [same, or_false]⟩
  rw [revise, Array.getElem?_modify, if_pos rfl, found]
  rfl

theorem assigns_use (p : Progress) (i : Nat) (u : Use) : Assigns i (fun _ => False) p (p.use i u) :=
  p.assigns_revise i fun f => (f.notes_use p.facts p.state u).globalWrites

theorem assigns_define (p : Progress) (i : Nat) (d : Definition) :
    Assigns i (fun _ => False) p (p.define i d) :=
  p.assigns_revise i fun _ => rfl

theorem assigns_read (env : Env) (i : Nat) (e : Node) (p : Progress) :
    Assigns i (fun _ => False) p (p.read env i e) := by
  have used := fun q : Progress => Assigns.foldl_none (fun q u => assigns_use q i u)
    ((e.reads env.isPure .bare).map useOfRead) q
  unfold read
  split
  · have flagged := p.assigns_revise i (c := fun f => { f with dynamic := true }) fun _ => rfl
    exact (flagged.trans (used _)).congr fun _ => or_self_iff
  · exact used p

theorem assigns_act (env : Env) (i : Nat) (p : Progress) (a : Action) :
    Assigns i (fun name => name ∈ a.writes) p (p.act env i a) := by
  cases a with
  | evaluate es =>
    have read := Assigns.foldl_none (fun q e => assigns_read env i e q) es p
    have flushed := Assigns.foldl_none (fun q d => assigns_define q i d)
      (p.readAll env i es).pending { p.readAll env i es with pending := [] }
    exact (read.trans flushed).congr fun name => or_self_iff.trans (false_iff_mem_empty name)
  | define d => exact (p.assigns_define i d).congr false_iff_mem_empty
  | use u => exact (p.assigns_use i u).congr false_iff_mem_empty
  | close free writes =>
    intro f found
    refine ⟨{ f with free := f.free ∪ free, globalWrites := f.globalWrites ∪ writes }, ?_,
      fun name => ?_⟩
    · rw [act, revise, Array.getElem?_modify, if_pos rfl, found]
      rfl
    · exact ExtTreeSet.mem_union_iff
  | «break» => exact (Assigns.refl i p).congr false_iff_mem_empty
  | «continue» => exact (Assigns.refl i p).congr false_iff_mem_empty

theorem assigns_acts (env : Env) (i : Nat) (actions : List Action) (p : Progress) :
    Assigns i (fun name => ∃ a ∈ actions, name ∈ a.writes) p (p.acts env i actions) := by
  induction actions generalizing p with
  | nil => exact (Assigns.refl i p).congr fun name => by simp
  | cons a rest ih => exact ((p.assigns_act env i a).trans
      (ih (p.act env i a))).congr fun name => by simp

end Progress

mutual

theorem quiet_targetActions (kind : DefinitionKind) (target : Node) :
    ∀ a ∈ targetActions kind target, a.Quiet := by
  cases target
  case tuple loc items => exact quiet_targetsActions kind items
  case list loc items => exact quiet_targetsActions kind items
  case starred loc value => exact quiet_targetActions kind value
  all_goals
    intro a member
    simp only [targetActions, mem_cons, mem_map, not_mem_nil, or_false] at member
    grind [Action.Quiet]

theorem quiet_targetsActions (kind : DefinitionKind) (targets : List Node) :
    ∀ a ∈ targetsActions kind targets, a.Quiet := by
  cases targets with
  | nil => exact forall_mem_nil _
  | cons t rest =>
    rw [targetsActions]
    exact forall_mem_append.mpr ⟨quiet_targetActions kind t, quiet_targetsActions kind rest⟩

end

theorem quiet_simpleActions (stays : ¬ (n.kind = .break ∨ n.kind = .continue)) :
    ∀ a ∈ simpleActions n, a.Quiet := by
  cases n
  case assign loc targets value op hint isExpression =>
    refine forall_mem_cons.mpr ⟨trivial, ?_⟩
    split
    · exact forall_mem_nil _
    · exact quiet_targetsActions _ targets
  case delete loc targets =>
    intro a member
    obtain ⟨t, _, member⟩ := mem_flatMap.mp member
    unfold deletionActions at member
    split at member
    · exact quiet_targetActions _ t a member
    · obtain ⟨o, _, member⟩ := mem_flatMap.mp member
      simp only [mem_cons, not_mem_nil, or_false] at member
      rcases member with rfl | rfl <;> trivial
  case imports | importsFrom | global | nonlocal => exact forall_mem_map.mpr fun _ _ => trivial
  case assertion | returning | raising | expression => exact forall_mem_singleton.mpr trivial
  case «break» => exact absurd (Or.inl rfl) stays
  case «continue» => exact absurd (Or.inr rfl) stays
  all_goals exact forall_mem_nil _

theorem writes_simpleActions (n : Node) : ∀ a ∈ simpleActions n, a.writes = ∅ := by
  by_cases jumps : n.kind = .break ∨ n.kind = .continue
  · cases n <;>
      first | exact forall_mem_singleton.mpr rfl | exact absurd jumps (by simp [Node.kind])
  · intro a member
    have quiet := quiet_simpleActions jumps a member
    cases a <;> first | rfl | exact quiet.elim

/-- What a statement without blocks tells to be assigned outside is what calling what it defines
assigns. -/
theorem writes_flatActions (env : Env) (n : Node) (name : String) :
    (∃ a ∈ flatActions env n, name ∈ a.writes) ↔ name ∈ outward env n := by
  have simple : ∀ m, (∃ a ∈ simpleActions m, name ∈ a.writes) ↔ name ∈ (∅ : NameSet) := by
    intro m
    refine ⟨?_, fun member => absurd member ExtTreeSet.not_mem_empty⟩
    rintro ⟨a, member, written⟩
    rwa [writes_simpleActions m a member] at written
  have closed : ∀ (body : Result) (loc : Location) (own : String) (decorators bases : List Node)
      (keywords : List (Keyword Node)),
      (∃ a ∈ classActions loc own decorators bases keywords body, name ∈ a.writes) ↔
      name ∈ (∅ : NameSet) := by
    intro body loc own decorators bases keywords
    refine ⟨?_, fun member => absurd member ExtTreeSet.not_mem_empty⟩
    rintro ⟨a, member, written⟩
    simp only [classActions, mem_cons, mem_append, mem_map, not_mem_nil, or_false] at member
    rcases member with rfl | ⟨_, _, rfl⟩ | rfl | rfl <;> exact written
  cases n
  case function => simp [flatActions, functionActions, Action.writes, outward]
  case classDef => exact closed _ _ _ _ _ _
  case decorated loc decorators definition =>
    cases definition
    case function => simp [flatActions, functionActions, Action.writes, outward]
    case classDef => exact closed _ _ _ _ _ _
    all_goals
      simp only [flatActions, outward]
      exact simple _
  all_goals
    simp only [flatActions, outward]
    exact simple _

theorem Progress.assigns_perform (env : Env) (i : Nat) (n : Node) (p : Progress) :
    Assigns i (fun name => name ∈ outward env n) p (p.perform env i n) := by
  by_cases known : n.kind = .verbatim
  · cases n
    case verbatim =>
      have flagged := p.assigns_revise i (c := fun f => { f with dynamic := true }) fun _ => rfl
      exact flagged.congr false_iff_mem_empty
    all_goals exact nomatch known
  · rw [p.perform_eq_acts env i n known]
    exact (p.assigns_acts env i (flatActions env n)).congr (writes_flatActions env n)


namespace Progress

/-- The statement with the index defines the names that a state has from it. -/
def Owns (i : Nat) (p : Progress) (s : State) : Prop :=
  ∀ name, .statement i ∈ s.reaching name → ∃ f, p.facts[i]? = some f ∧
    ∃ d ∈ f.definitions, d.name = name

variable {i : Nat} {p q : Progress}

theorem Owns.mono (owns : p.Owns i s) (under : p.Under True q) : q.Owns i s := by
  intro name reaches
  obtain ⟨f, found, d, member, same⟩ := owns name reaches
  obtain ⟨g, foundG, above⟩ := under i f found
  exact ⟨g, foundG, d, above.definitions d member (Or.inl trivial), same⟩

theorem owns_define (there : i < p.facts.size) (owns : p.Owns i p.state) (d : Definition) :
    (p.define i d).Owns i (p.define i d).state := by
  intro name reaches
  rcases State.mem_reaching_define.mp reaches with ⟨same, _⟩ | ⟨_, before⟩
  · refine ⟨p.facts[i].define d, ?_, d, StatementFacts.mem_addNew _ d, same⟩
    rw [define, revise, Array.getElem?_modify, if_pos rfl, Array.getElem?_eq_getElem there]
    rfl
  · exact owns.mono (p.under_define i d) name before

theorem owns_defineAll (there : i < p.facts.size) (owns : p.Owns i p.state) (ds : List Definition) :
    (p.defineAll i ds).Owns i (p.defineAll i ds).state := by
  induction ds generalizing p with
  | nil => exact owns
  | cons d rest ih => exact ih ((p.works_define i d).size ▸ there) (owns_define there owns d)

/-- A statement that does something has noted what it binds. -/
theorem owns_act (there : i < p.facts.size) (owns : p.Owns i p.state) (env : Env)
    (action : Action) : (p.act env i action).Owns i (p.act env i action).state := by
  cases action with
  | evaluate es =>
    have read : (p.readAll env i es).Owns i (p.readAll env i es).state := by
      rw [state_readAll]
      exact owns.mono (p.under_readAll env i es)
    exact owns_defineAll (p := { p.readAll env i es with pending := [] })
      ((p.works_readAll env i es).size ▸ there) read _
  | define d => exact owns_define there owns d
  | use u => exact owns.mono (p.under_use i u)
  | close free writes => exact owns.mono (p.under_close i free writes)
  | «break» => exact owns
  | «continue» => exact owns

/-- States at jumps are states that the statement has come to. -/
theorem jumps_act (env : Env) (i : Nat) (action : Action) (p : Progress) :
    (∀ s ∈ (p.act env i action).breaks, s ∈ p.breaks ∨ s = p.state) ∧
      ∀ s ∈ (p.act env i action).continues, s ∈ p.continues ∨ s = p.state := by
  cases action with
  | evaluate es =>
    obtain ⟨breaks, continues⟩ := jumps_evaluate env i es p
    exact ⟨fun s member => Or.inl (breaks ▸ member), fun s member => Or.inl (continues ▸ member)⟩
  | «break» =>
    exact ⟨fun s member => (mem_append.mp member).imp id List.mem_singleton.mp,
      fun s member => Or.inl member⟩
  | «continue» =>
    exact ⟨fun s member => Or.inl member, fun s member => (mem_append.mp member).imp id
      List.mem_singleton.mp⟩
  | _ => exact ⟨fun s member => Or.inl member, fun s member => Or.inl member⟩

theorem owns_acts (there : i < p.facts.size) (owns : p.Owns i p.state) (env : Env)
    (actions : List Action) : (p.acts env i actions).Owns i (p.acts env i actions).state ∧
      (∀ s ∈ (p.acts env i actions).breaks, s ∈ p.breaks ∨ (p.acts env i actions).Owns i s) ∧
      ∀ s ∈ (p.acts env i actions).continues, s ∈ p.continues ∨
      (p.acts env i actions).Owns i s := by
  induction actions generalizing p with
  | nil => exact ⟨owns, fun s => Or.inl, fun s => Or.inl⟩
  | cons action rest ih =>
    obtain ⟨state, breaks, continues⟩ :=
      ih (p := p.act env i action) ((p.draws_act env i action).works.size ▸ there)
      (owns_act there owns env action)
    obtain ⟨jumps, returns⟩ := jumps_act env i action p
    have under : p.Under True (p.acts env i (action :: rest)) := p.under_acts env i (action :: rest)
    refine ⟨state, fun s member => ?_, fun s member => ?_⟩
    · rcases breaks s member with before | now
      · exact (jumps s before).imp_right fun same : s = p.state => same ▸ owns.mono under
      · exact Or.inr now
    · rcases continues s member with before | now
      · exact (returns s before).imp_right fun same : s = p.state => same ▸ owns.mono under
      · exact Or.inr now

theorem jumps_acts {actions : List Action} (quiet : ∀ a ∈ actions, a.Quiet) (i : Nat)
    (p : Progress) : (p.acts env i actions).breaks = p.breaks ∧ (p.acts env i actions).continues =
    p.continues := by
  induction actions generalizing p with
  | nil => exact ⟨rfl, rfl⟩
  | cons action rest ih =>
    obtain ⟨first, others⟩ := forall_mem_cons.mp quiet
    obtain ⟨breaks, continues⟩ := ih others (p.act env i action)
    have own : (p.act env i action).breaks = p.breaks ∧ (p.act env i action).continues =
        p.continues := by
      cases action with
      | evaluate es => exact jumps_evaluate env i es p
      | define d => exact ⟨rfl, rfl⟩
      | use u => exact ⟨rfl, rfl⟩
      | _ => exact first.elim
    exact ⟨breaks.trans own.1, continues.trans own.2⟩

/-- A statement that runs unknown code and defines nothing does not jump. -/
theorem jumps_perform (simple : n.kind.isDefinition = false)
    (unknown : n.isOpaque env.settings = true) (i : Nat) (p : Progress) :
    (p.perform env i n).breaks = p.breaks ∧ (p.perform env i n).continues = p.continues := by
  by_cases verbatim : n.kind = .verbatim
  · cases n
    case verbatim => exact ⟨rfl, rfl⟩
    all_goals exact nomatch verbatim
  · rw [p.perform_eq_simple env i n simple, p.simple_eq_acts env i n verbatim]
    refine jumps_acts (quiet_simpleActions fun jumps => ?_) i p
    cases n
    case «break» => exact absurd unknown Bool.false_ne_true
    case «continue» => exact absurd unknown Bool.false_ne_true
    all_goals exact absurd jumps (by simp [Node.kind])

end Progress

/-! ### What is kept -/

/-- Every statement in a state has facts that tell in full what calling what it defines assigns. -/
def State.Backed (env : Env) (facts : Array StatementFacts) (s : State) : Prop :=
  ∀ name k, .statement k ∈ s.reaching name →
    ∃ f, facts[k]? = some f ∧ ∀ other ∈ outward env f.node, other ∈ f.globalWrites

/-- Every statement in a state defines the name. -/
def State.Founded (facts : Array StatementFacts) (s : State) : Prop :=
  ∀ name k, .statement k ∈ s.reaching name → ∃ f, facts[k]? = some f ∧
    ∃ d ∈ f.definitions, d.name = name

/-- The edge comes from a statement that defines the name, or all names. -/
def Edge.Founded (facts : Array StatementFacts) (edge : Edge) : Prop :=
  ∃ (name : String) (k : Nat) (source : StatementFacts) (d : Definition), edge.name = some name ∧
    facts[k]? = some source ∧ edge.source = source.location ∧ d ∈ source.definitions ∧
    (d.name = name ∨ d.name = allNames)

/-- A state next to facts: it has only what is known, and its statements are known to define what
they are there for. -/
structure State.Sound (env : Env) (scope : Scope) (facts : Array StatementFacts) (s : State) :
    Prop where
  within : s.Within scope
  backed : s.Backed env facts
  founded : s.Founded facts

section

variable {env : Env} {scope : Scope} {facts : Array StatementFacts} {s t : State} {p q : Progress}

theorem State.Backed.mono (backed : s.Backed env p.facts) (under : p.Under True q) :
    s.Backed env q.facts := by
  intro name k reaches
  obtain ⟨f, found, full⟩ := backed name k reaches
  obtain ⟨g, foundG, above⟩ := under k f found
  refine ⟨g, foundG, fun other member => above.globalWrites other (full other ?_)⟩
  rwa [← above.node]

theorem State.Founded.mono (founded : s.Founded p.facts) (under : p.Under True q) :
    s.Founded q.facts :=
  fun name k reaches => Progress.Owns.mono (fun other => founded other k) under name reaches

theorem State.Sound.mono (sound : s.Sound env scope p.facts) (under : p.Under True q) :
    s.Sound env scope q.facts :=
  ⟨sound.within, sound.backed.mono under, sound.founded.mono under⟩

theorem State.Sound.merge (first : s.Sound env scope facts) (second : t.Sound env scope facts) :
    (s.merge t).Sound env scope facts := by
  refine ⟨first.within.merge second.within, fun name k reaches => ?_, fun name k reaches => ?_⟩
  · rcases State.mem_reaching_merge.mp reaches with reaches | reaches
    · exact first.backed name k reaches
    · exact second.backed name k reaches
  · rcases State.mem_reaching_merge.mp reaches with reaches | reaches
    · exact first.founded name k reaches
    · exact second.founded name k reaches

/-- A statement that is known in full may be added to a state. -/
theorem State.Backed.supplied (backed : s.Backed env p.facts) (under : p.Under True q)
    (supplies : s.Supplies i t) (own : ∃ g, q.facts[i]? = some g ∧
    ∀ other ∈ outward env g.node, other ∈ g.globalWrites) : t.Backed env q.facts := by
  intro name k reaches
  rcases supplies name _ reaches with before | mine
  · exact backed.mono under name k before
  · obtain rfl := Origin.statement.inj mine
    exact own

theorem State.Founded.supplied (founded : s.Founded p.facts) (under : p.Under True q)
    (supplies : s.Supplies i t) (owns : q.Owns i t) : t.Founded q.facts := by
  intro name k reaches
  rcases supplies name _ reaches with before | mine
  · exact founded.mono under name k before
  · obtain rfl := Origin.statement.inj mine
    exact owns name reaches

theorem Edge.Founded.mono {edge : Edge} (founded : edge.Founded p.facts) (under : p.Under True q) :
    edge.Founded q.facts := by
  obtain ⟨name, k, source, d, named, found, comes, member, same⟩ := founded
  obtain ⟨g, foundG, above⟩ := under k source found
  refine ⟨name, k, g, d, named, foundG, ?_, above.definitions d member (Or.inl trivial), same⟩
  rw [comes, StatementFacts.location, StatementFacts.location, above.node]

/-- What a state with founded statements offers is founded. -/
theorem Edge.Offered.founded {edge : Edge} {index : Nat} (offered : edge.Offered index facts s)
    (founded : s.Founded facts) : edge.Founded facts := by
  obtain ⟨name, k, source, _, named, _, found, comes, reaches⟩ := offered
  rcases reaches with own | anything
  · obtain ⟨f, foundF, d, member, same⟩ := founded name k own
    obtain rfl := Option.some.inj (found.symm.trans foundF)
    exact ⟨name, k, source, d, named, found, comes, member, Or.inl same⟩
  · obtain ⟨f, foundF, d, member, same⟩ := founded allNames k anything
    obtain rfl := Option.some.inj (found.symm.trans foundF)
    exact ⟨name, k, source, d, named, found, comes, member, Or.inr same⟩

end

/-- The facts are of the statement with the index. They mark it as running unknown code only if it
does, all they know of what it binds then is that it may bind anything, and they know of no other
assignments outside than it makes. -/
structure StatementFacts.Fitting (env : Env) (nodes : Nat → Option Node) (k : Nat)
    (f : StatementFacts) : Prop where
  index : f.index = k
  node : nodes k = some f.node
  dynamic : f.dynamic = true → f.node.isUnclear env.settings = true
  loose : f.node.kind.isCompound = false → f.node.kind.isDefinition = false →
    f.node.isUnclear env.settings = true → ∀ d ∈ f.definitions, d =
    ⟨allNames, allNames, .unknown, f.node.loc⟩
  writes : ∀ name ∈ f.globalWrites, name ∈ outward env f.node

/-- What the facts know of others is sound. -/
structure StatementFacts.Sound (env : Env) (scope : Scope) (facts : Array StatementFacts)
    (f : StatementFacts) : Prop where
  written : ∀ name ∈ f.globalWrites, name ∈ scope.names
  entry : f.entry.Sound env scope facts
  data : ∀ edge ∈ f.inbound, edge.kind = .data → edge.Founded facts

/-- The facts of each statement stand at its index, and each state holds only statements that are
known in full. -/
def Trait.sound (env : Env) (scope : Scope) (nodes : Nat → Option Node) : Trait where
  facts all := ∀ (k : Nat) (f : StatementFacts), all[k]? = some f →
    f.Fitting env nodes k ∧ k < scope.bound ∧ f.Sound env scope all
  state all s := s.Sound env scope all

/-- An analysis under way in which all that is known is sound. -/
abbrev Progress.Kept (env : Env) (scope : Scope) (nodes : Nat → Option Node) (p : Progress) :
    Prop :=
  (Trait.sound env scope nodes).Held p

/-- The statement stands at the index and names only what is known. -/
structure Stated (scope : Scope) (nodes : Nat → Option Node) (i : Nat) (n : Node) : Prop where
  here : nodes i = some n
  named : NamedIn scope.names n
  below : i < scope.bound

namespace Progress.Kept

variable {env : Env} {scope : Scope} {nodes : Nat → Option Node} {i : Nat} {p q : Progress}

theorem fitting (kept : p.Kept env scope nodes) (found : p.facts[k]? = some f) :
    f.Fitting env nodes k :=
  (kept.facts k f found).1

theorem sane (kept : p.Kept env scope nodes) : p.Sane scope where
  state := kept.state.within
  heads k s found := (kept.heads k s found).within
  breaks s member := (kept.breaks s member).within
  continues s member := (kept.continues s member).within
  entries f member := by
    obtain ⟨k, found⟩ := Array.mem_iff_getElem?.mp member
    exact (kept.facts k f found).2.2.entry.within
  written f member := by
    obtain ⟨k, found⟩ := Array.mem_iff_getElem?.mp member
    exact (kept.facts k f found).2.2.written
  pending := by
    rw [kept.settled]
    exact forall_mem_nil _

theorem start (within : s.Within scope) (none : ∀ name k, .statement k ∉ s.reaching name) :
    Kept env scope nodes (.start s) where
  settled := rfl
  facts k f found := by simp [Progress.start] at found
  state := ⟨within, fun name k reaches => absurd reaches (none name k),
    fun name k reaches => absurd reaches (none name k)⟩
  heads k s found := by simp [Progress.start] at found
  breaks := forall_mem_nil _
  continues := forall_mem_nil _

section

variable (kept : p.Kept env scope nodes)

include kept

/-- Facts that have changed at one index only. -/
theorem facts_of_frame (under : p.Under True q)
    (frame : ∀ k, k ≠ i → q.facts[k]? = p.facts[k]?) (below : i < scope.bound)
    (own : ∀ g, q.facts[i]? = some g → g.Fitting env nodes i ∧ g.Sound env scope q.facts) :
    (Trait.sound env scope nodes).facts q.facts := by
  intro k f found
  by_cases same : k = i
  · subst same
    exact ⟨(own f found).1, below, (own f found).2⟩
  · rw [frame k same] at found
    obtain ⟨fitting, inside, sound⟩ := kept.facts k f found
    exact ⟨fitting, inside, sound.written, sound.entry.mono under,
      fun edge member kind => (sound.data edge member kind).mono under⟩

theorem enter (parent : Option Nat) (here : nodes i = some n)
    (below : i < scope.bound) (fits : i ≤ p.facts.size) :
    (p.enter parent i n).Kept env scope nodes := by
  have under : p.Under True (p.enter parent i n) := under_enter parent n fits
  refine ⟨(pending_enter ..).trans kept.settled, kept.facts_of_frame under
    (fun k other => frame_enter parent n fits other) below fun g found => ?_, ?_, ?_, ?_, ?_⟩
  · obtain ⟨_, found', ⟨h, foundH, rfl⟩ | ⟨_, index, node, entry, _, _, writes, dynamic,
        definitions, control⟩⟩ :=
      facts_enter parent n fits
    · obtain rfl := Option.some.inj (found'.symm.trans found)
      obtain ⟨fitting, _, sound⟩ := kept.facts i h foundH
      exact ⟨⟨fitting.index, fitting.node, fitting.dynamic, fitting.loose, fitting.writes⟩,
        sound.written, (sound.entry.merge kept.state).mono under,
        fun edge member kind => (sound.data edge member kind).mono under⟩
    · obtain rfl := Option.some.inj (found'.symm.trans found)
      refine ⟨⟨index, node ▸ here, fun flag => ?_, fun _ _ _ => ?_, ?_⟩, ?_, ?_,
        fun edge member kind => ?_⟩
      · exact nomatch dynamic.symm.trans flag
      · rw [definitions]
        exact forall_mem_nil _
      · rw [writes]
        exact fun name member => absurd member ExtTreeSet.not_mem_empty
      · rw [writes]
        exact fun name member => absurd member ExtTreeSet.not_mem_empty
      · rw [entry]
        exact kept.state.mono under
      · exact nomatch (control edge member).symm.trans kind
  · rw [state_enter]
    exact kept.state.mono under
  · rw [heads_enter]
    exact fun k s found => (kept.heads k s found).mono under
  · rw [breaks_enter]
    exact fun s member => (kept.breaks s member).mono under
  · rw [continues_enter]
    exact fun s member => (kept.continues s member).mono under

/-- What a statement does by itself keeps what is kept, if the facts of the statement are as they
should be and know all that the statement binds. -/
theorem draws (draws : Draws p.state i p q) (sane : q.Sane scope)
    (settled : q.pending = []) (under : p.Under True q) (found : p.facts[i]? = some f)
    (own : ∀ g, q.facts[i]? = some g → g.Fitting env nodes i ∧
    ∀ name ∈ outward env g.node, name ∈ g.globalWrites) (state : q.Owns i q.state)
    (breaks : ∀ s ∈ q.breaks, s ∈ p.breaks ∨ q.Owns i s)
    (continues : ∀ s ∈ q.continues, s ∈ p.continues ∨ q.Owns i s) : q.Kept env scope nodes := by
  obtain ⟨_, below, sound⟩ := kept.facts i f found
  have supplied : ∀ t : State, t.Within scope → p.state.Supplies i t → q.Owns i t →
      t.Sound env scope q.facts := by
    intro t within supplies owns
    obtain ⟨g, foundG, _⟩ := under i f found
    exact ⟨within, kept.state.backed.supplied under supplies ⟨g, foundG, (own g foundG).2⟩,
      kept.state.founded.supplied under supplies owns⟩
  refine ⟨settled, kept.facts_of_frame under draws.works.frame below
    fun g foundG => ⟨(own g foundG).1, ?_, ?_, ?_⟩, supplied _ sane.state draws.state state, ?_,
    fun t member => ?_, fun t member => ?_⟩
  · exact sane.written g (Array.mem_of_getElem? foundG)
  · rw [(draws.own f g found foundG).1]
    exact sound.entry.mono under
  · intro edge member kind
    rcases (draws.own f g found foundG).2 edge member with before | offered
    · exact (sound.data edge before kind).mono under
    · exact (offered.founded kept.state.founded).mono under
  · rw [draws.heads]
    exact fun k s found => (kept.heads k s found).mono under
  · rcases breaks t member with before | owns
    · exact (kept.breaks t before).mono under
    · rcases draws.breaks t member with before | supplies
      · exact (kept.breaks t before).mono under
      · exact supplied t (sane.breaks t member) supplies owns
  · rcases continues t member with before | owns
    · exact (kept.continues t before).mono under
    · rcases draws.continues t member with before | supplies
      · exact (kept.continues t before).mono under
      · exact supplied t (sane.continues t member) supplies owns

/-- A compound statement that runs unknown code uses everything and binds nothing more. -/
theorem leave (found : p.facts[i]? = some f) (before : s.Sound env scope p.facts) :
    (Trait.sound env scope nodes).facts (p.revise i fun f => f.useEverything p.facts s).facts := by
  have under : p.Under True (p.revise i fun f => f.useEverything p.facts s) :=
    p.under_revise i fun f _ => (f.notes_useEverything p.facts s).under
  obtain ⟨fitting, below, sound⟩ := kept.facts i f found
  refine kept.facts_of_frame under (p.works_revise i fun f : StatementFacts =>
    f.grows_useEverything p.facts s).frame below fun g foundG => ?_
  have noted := f.notes_useEverything p.facts s
  rw [revise, Array.getElem?_modify, if_pos rfl, found] at foundG
  obtain rfl := Option.some.inj foundG
  refine ⟨⟨noted.index.trans fitting.index, noted.node ▸ fitting.node, ?_, ?_, ?_⟩, ?_, ?_,
    fun edge member kind => ?_⟩
  · rw [noted.dynamic, noted.node]
    exact fitting.dynamic
  · rw [noted.definitions, noted.node]
    exact fitting.loose
  · rw [noted.globalWrites, noted.node]
    exact fitting.writes
  · rw [noted.globalWrites]
    exact sound.written
  · rw [noted.entry]
    exact sound.entry.mono under
  · rcases (f.gets_useEverything p.facts s).inbound edge member with old | offered
    · exact (sound.data edge old kind).mono under
    · exact (offered.founded before.founded).mono under

/-- What a compound statement does at its head. -/
theorem act (known : env.Known scope.names) (found : p.facts[i]? = some f)
    (compound : f.node.kind.isCompound = true) {a : Action} (plain : a.Plain scope.names)
    (parts : a.parts ⊆ f.node.headParts) : (p.act env i a).Kept env scope nodes := by
  obtain ⟨inside, _⟩ := Array.getElem?_eq_some_iff.mp found
  obtain ⟨fitting, below, _⟩ := kept.facts i f found
  have under : p.Under True (p.act env i a) := p.under_act env i a
  have owns : p.Owns i p.state := fun name => kept.state.founded name i
  have empty : a.writes = ∅ := by
    cases a <;> first | rfl | exact plain.elim
  have sane : (p.act env i a).Sane scope := by
    cases a with
    | evaluate es => exact kept.sane.evaluate known below plain
    | define d => exact kept.sane.define below plain
    | _ => exact plain.elim
  have own : ∀ g, (p.act env i a).facts[i]? = some g →
      g.Fitting env nodes i ∧ ∀ name ∈ outward env g.node, name ∈ g.globalWrites := by
    intro g foundG
    obtain ⟨h, foundH, above⟩ := under i f found
    obtain rfl := Option.some.inj (foundG.symm.trans foundH)
    have none : ∀ name, name ∉ outward env g.node := by
      rw [above.node, outward_compound compound]
      exact fun name => ExtTreeSet.not_mem_empty
    refine ⟨⟨above.index.trans fitting.index, above.node ▸ fitting.node, fun flag => ?_,
      fun flat => ?_, ?_⟩, fun name member => absurd member (none name)⟩
    · obtain ⟨_, foundG', same⟩ := p.flags_act env i a f found
      obtain rfl := Option.some.inj (foundG.symm.trans foundG')
      rw [above.node]
      rcases Bool.or_eq_true_iff.mp (same.symm.trans flag) with before | now
      · exact fitting.dynamic before
      · obtain ⟨e, member, unknown⟩ := any_eq_true.mp now
        rw [Node.isUnclear, if_pos compound]
        exact any_eq_true.mpr ⟨e, parts member, unknown⟩
    · rw [above.node, compound] at flat
      exact nomatch flat
    · intro name member
      obtain ⟨_, foundG', names⟩ := p.assigns_act env i a f found
      obtain rfl := Option.some.inj (foundG.symm.trans foundG')
      rcases (names name).mp member with before | now
      · rw [above.node]
        exact fitting.writes name before
      · rw [empty] at now
        exact absurd now ExtTreeSet.not_mem_empty
  obtain ⟨breaks, continues⟩ := p.jumps_act env i a
  exact kept.draws (p.draws_act env i a) sane (pending_act kept.settled env i a) under found own
    (owns_act inside owns env a)
    (fun s member => (breaks s member).imp_right fun same : s = p.state => same ▸ owns.mono under)
    fun s member => (continues s member).imp_right fun same : s = p.state => same ▸ owns.mono under

end

end Progress.Kept

namespace Progress

/-- A statement that is left has noted that it uses everything if it runs unknown code, and unless
it is compound or defines something, all that is known of what it binds then is that it may bind
anything. -/
theorem facts_leave {p : Progress} (found : p.facts[i]? = some f) (n : Node) (entry : State) :
    ∃ g, (p.leave i n entry).facts[i]? = some g ∧
      StatementFacts.Notes p.facts (fun name origin => f.dynamic = true ∧
        entry.Asked allNames name origin)
        { f with definitions := if f.dynamic && !(n.kind.isCompound || n.kind.isDefinition) then
          [⟨allNames, allNames, .unknown, n.loc⟩] else f.definitions } g := by
  have flag : (p.facts[i]?.map StatementFacts.dynamic).getD false = f.dynamic := by rw [found]; rfl
  have used := f.notes_useEverything p.facts entry
  unfold leave
  rw [flag]
  by_cases dynamic : f.dynamic = true
  · have asked : ∀ name origin, entry.Asked allNames name origin ↔
        f.dynamic = true ∧ entry.Asked allNames name origin :=
        fun name origin => (and_iff_right dynamic).symm
    rw [if_pos dynamic]
    by_cases keeps : (n.kind.isCompound || n.kind.isDefinition) = true
    · have lost : ¬ (f.dynamic && !(n.kind.isCompound || n.kind.isDefinition)) =
        true := by simp [keeps]
      rw [if_neg lost]
      refine ⟨_, ?_, used.congr asked⟩
      simp only [keeps, if_true, revise, Array.getElem?_modify, found, Option.map_some]
    · have lost : (f.dynamic && !(n.kind.isCompound || n.kind.isDefinition)) =
        true := by simp [dynamic, keeps]
      rw [if_pos lost]
      refine ⟨{ f.useEverything p.facts entry with definitions :=
        [⟨allNames, allNames, .unknown, n.loc⟩] }, ?_, ?_⟩
      · simp only [keeps, Bool.false_eq_true, if_false, define, revise, Array.getElem?_modify,
          found, Option.map_some]
        rfl
      · exact StatementFacts.Notes.congr ⟨used.index, used.node, rfl, used.entry, used.free,
          used.globalWrites,
          used.dynamic, used.external, used.inbound⟩ asked
  · have lost : ¬ (f.dynamic && !(n.kind.isCompound || n.kind.isDefinition)) =
      true := by simp [dynamic]
    rw [if_neg dynamic, if_neg lost]
    exact ⟨f, found, StatementFacts.notes_nothing _ _ fun _ _ asked => dynamic asked.1⟩

theorem state_leave_eq {p : Progress} (found : p.facts[i]? = some f) (n : Node) (entry : State) :
    (p.leave i n entry).state = if f.dynamic && !(n.kind.isCompound || n.kind.isDefinition) then
      entry.define i ⟨allNames, allNames, .unknown, n.loc⟩ else p.state := by
  have flag : (p.facts[i]?.map StatementFacts.dynamic).getD false = f.dynamic := by rw [found]; rfl
  unfold leave
  rw [flag]
  by_cases dynamic : f.dynamic = true
  · by_cases keeps : (n.kind.isCompound || n.kind.isDefinition) = true
    · simp only [dynamic, keeps, if_true, Bool.not_true, Bool.and_false, Bool.false_eq_true,
        if_false]
      rfl
    · simp only [dynamic, keeps, if_true, Bool.not_false, Bool.and_self, Bool.false_eq_true,
        if_false]
      rfl
  · simp only [dynamic, Bool.false_and, Bool.false_eq_true, if_false]

theorem under_perform {full : Prop} (env : Env) (i : Nat) (n : Node) (p : Progress) :
    p.Under full (p.perform env i n) := by
  by_cases verbatim : n.kind = .verbatim
  · cases n
    case verbatim => exact p.under_setDynamic i
    all_goals exact nomatch verbatim
  · rw [p.perform_eq_acts env i n verbatim]
    exact p.under_acts env i _

namespace Kept

variable {env : Env} {scope : Scope} {nodes : Nat → Option Node} {i : Nat} {p : Progress}

/-- A statement without blocks is known to run unknown code exactly if it does. -/
theorem dynamic_perform (kept : p.Kept env scope nodes) {h : StatementFacts}
    (found : p.facts[i]? = some f) (simple : f.node.kind.isCompound = false)
    (foundH : (p.perform env i f.node).facts[i]? = some h) :
    h.dynamic = f.node.isUnclear env.settings := by
  obtain ⟨_, foundH', same⟩ := (does_perform env i f.node kept.settled).flags f found
  obtain rfl := Option.some.inj (foundH.symm.trans foundH')
  have unclear : f.node.isUnclear env.settings =
    f.node.isOpaque env.settings := by rw [Node.isUnclear, simple]; rfl
  rw [same, ← unclear, Bool.or_eq_right_iff_imp]
  exact (kept.fitting found).dynamic

/-- A statement without blocks has noted what it binds when it is left. -/
theorem owns_flat (kept : p.Kept env scope nodes) {g h : StatementFacts}
    (found : p.facts[i]? = some f) (simple : f.node.kind.isCompound = false)
    (foundH : (p.perform env i f.node).facts[i]? = some h)
    (foundG : ((p.perform env i f.node).leave i f.node p.state).facts[i]? = some g)
    (under : p.Under True ((p.perform env i f.node).leave i f.node p.state))
    (definitions : g.definitions =
      if h.dynamic && !(f.node.kind.isCompound || f.node.kind.isDefinition) then
      [⟨allNames, allNames, .unknown, f.node.loc⟩] else h.definitions) :
    let q := (p.perform env i f.node).leave i f.node p.state
    q.Owns i q.state ∧ (∀ s ∈ q.breaks, s ∈ p.breaks ∨ q.Owns i s) ∧
        ∀ s ∈ q.continues, s ∈ p.continues ∨ q.Owns i s := by
  obtain ⟨inside, _⟩ := Array.getElem?_eq_some_iff.mp found
  have owns : p.Owns i p.state := fun name => kept.state.founded name i
  intro q
  rw [show q.breaks = (p.perform env i f.node).breaks from breaks_leave .., show q.continues =
    (p.perform env i f.node).continues from continues_leave .., show q.state =
    _ from state_leave_eq foundH ..]
  split at definitions
  · rename_i lost
    rw [if_pos lost]
    simp only [simple, Bool.false_or, Bool.and_eq_true, Bool.not_eq_true'] at lost
    have unknown : f.node.isOpaque env.settings = true := by
      have flag := (kept.dynamic_perform found simple foundH).symm.trans lost.1
      rwa [Node.isUnclear, simple] at flag
    obtain ⟨breaks, continues⟩ := jumps_perform lost.2 unknown i p
    refine ⟨fun name reaches => ?_, fun s member => Or.inl (breaks ▸ member),
      fun s member => Or.inl (continues ▸ member)⟩
    rcases State.mem_reaching_define.mp reaches with ⟨same, _⟩ | ⟨_, before⟩
    · exact ⟨g, foundG, _, definitions ▸ mem_singleton_self _, same⟩
    · exact owns.mono under name before
  · rename_i remembered
    rw [if_neg remembered]
    have left : ∀ s, (p.perform env i f.node).Owns i s → q.Owns i s := by
      intro s performed name reaches
      obtain ⟨h', foundH', d, member, same⟩ := performed name reaches
      obtain rfl := Option.some.inj (foundH.symm.trans foundH')
      exact ⟨g, foundG, d, definitions ▸ member, same⟩
    by_cases verbatim : f.node.kind = .verbatim
    · have same : p.perform env i f.node = p.revise i fun f => { f with dynamic := true } := by
        cases kind : f.node
        case verbatim => rfl
        all_goals
          rw [kind] at verbatim
          exact nomatch verbatim
      rw [same] at left ⊢
      exact ⟨left _ (owns.mono (p.under_setDynamic i)), fun s => Or.inl, fun s => Or.inl⟩
    · rw [p.perform_eq_acts env i f.node verbatim] at left ⊢
      obtain ⟨state, breaks, continues⟩ := owns_acts inside owns env (flatActions env f.node)
      exact ⟨left _ state, fun s member => (breaks s member).imp id (left s),
        fun s member => (continues s member).imp id (left s)⟩

/-- A statement without blocks knows all of itself when it is left. -/
theorem flat (kept : p.Kept env scope nodes) (known : env.Known scope.names)
    (found : p.facts[i]? = some f) (simple : f.node.kind.isCompound = false)
    (named : NamedIn scope.names f.node) :
      ((p.perform env i f.node).leave i f.node p.state).Kept env scope nodes ∧
      p.Under True ((p.perform env i f.node).leave i f.node p.state) := by
  obtain ⟨fitting, below, _⟩ := kept.facts i f found
  have does := does_perform env i f.node kept.settled
  have draws := ((Draws.start i p).perform env f.node).leave f.node
    (State.supplies_of_below (.refl p.state))
  obtain ⟨h, foundH, raised⟩ : ∃ h, (p.perform env i f.node).facts[i]? = some h ∧ f.Under True h :=
    p.under_perform env i f.node i f found
  obtain ⟨g, foundG, notes⟩ := facts_leave foundH f.node p.state
  have flag := kept.dynamic_perform found simple foundH
  have writes : ∀ name, name ∈ g.globalWrites ↔ name ∈ outward env f.node := by
    obtain ⟨_, foundH', names⟩ := p.assigns_perform env i f.node f found
    obtain rfl := Option.some.inj (foundH.symm.trans foundH')
    intro name
    rw [notes.globalWrites, names]
    exact or_iff_right_of_imp (fitting.writes name)
  have node : g.node = f.node := notes.node.trans raised.node
  have loses : f.node.kind.isDefinition = false → f.node.isUnclear env.settings = true →
      g.definitions = [⟨allNames, allNames, .unknown, f.node.loc⟩] := by
    intro plain unclear
    rw [notes.definitions, flag, unclear, simple, plain]
    rfl
  have above : f.Under True g := by
    have noted : StatementFacts.Under True _ g := notes.under
    refine ⟨noted.index.trans raised.index, node, raised.entry.trans noted.entry, ?_, ?_, ?_,
      ?_, ?_, ?_⟩
    · exact fun name member => noted.external name (raised.external name member)
    · exact fun name member => noted.free name (raised.free name member)
    · exact fun name member => noted.globalWrites name (raised.globalWrites name member)
    · exact fun dynamic => noted.dynamic (raised.dynamic dynamic)
    · intro d member counts
      rw [notes.definitions]
      dsimp only
      split
      · rename_i lost
        rw [flag, simple, Bool.false_or, Bool.and_eq_true, Bool.not_eq_true'] at lost
        rw [fitting.loose simple lost.2 lost.1 d member]
        exact mem_singleton_self _
      · exact raised.definitions d member counts
    · exact fun counts edge member kind => noted.data counts edge
        (raised.data counts edge member kind) kind
  have under : p.Under True ((p.perform env i f.node).leave i f.node p.state) := by
    intro k e foundE
    by_cases same : k = i
    · subst same
      obtain rfl := Option.some.inj (found.symm.trans foundE)
      exact ⟨g, foundG, above⟩
    · exact ⟨e, (draws.works.frame k same).trans foundE, .refl e⟩
  have sane := (kept.sane.perform known below named).leave known below f.node kept.sane.state
  obtain ⟨state, breaks, continues⟩ :=
    kept.owns_flat found simple foundH foundG under notes.definitions
  refine ⟨kept.draws draws sane ((pending_leave _ _ _ _).trans does.settled) under found
    (fun e foundE => ?_) state breaks continues, under⟩
  obtain rfl := Option.some.inj (foundG.symm.trans foundE)
  rw [node]
  refine ⟨⟨above.index.trans fitting.index, node ▸ fitting.node, ?_, ?_, ?_⟩,
    fun name => (writes name).mpr⟩
  · rw [notes.dynamic, node]
    exact fun dynamic => flag ▸ dynamic
  · intro _ plain unclear d member
    rw [node] at plain unclear ⊢
    rw [loses plain unclear] at member
    exact List.mem_singleton.mp member
  · rw [node]
    exact fun name => (writes name).mp

end Kept

end Progress

/-- Whatever a plan consists of keeps what is known sound. -/
theorem Trait.steady_sound {scope : Scope} (nodes : Nat → Option Node)
    (known : env.Known scope.names) : (Trait.sound env scope nodes).Steady env (Stated scope nodes)
    (Action.Plain scope.names) where
  mono under sound := sound.mono under
  merge first second := first.merge second
  here facts stated found := Option.some.inj ((facts _ _ found).1.node.symm.trans stated.here)
  enter parent stated _ fits kept :=
    (Progress.Kept.enter kept parent stated.here stated.below fits).facts
  act found compound plain parts kept := Progress.Kept.act kept known found compound plain parts
  leave found _ kept before := Progress.Kept.leave kept found before
  flat {i n p} parent stated simple fits kept := by
    have entered := Progress.Kept.enter kept parent stated.here stated.below fits
    obtain ⟨f, found, _⟩ := Progress.facts_enter parent n fits
    obtain rfl : f.node = n := Option.some.inj ((entered.fitting found).node.symm.trans stated.here)
    obtain ⟨done, under⟩ := entered.flat known found simple stated.named
    rw [state_enter] at done under
    exact ⟨done, Progress.Under.trans (Progress.under_enter parent f.node fits) under⟩

/-- Only the loops between two indices have new heads. -/
theorem heads_settle {body : Progress → Progress}
    (same : ∀ q : Progress, (body q).heads[k]? = q.heads[k]?) (passes : Nat) (head : State)
    (p : Progress) : (Progress.settle body passes head p).2.heads[k]? = p.heads[k]? := by
  induction passes generalizing head p with
  | zero => rfl
  | succ passes ih =>
    rw [Progress.settle]
    split
    · exact same (p.resume head)
    · exact (ih _ _).trans (same (p.resume head))

theorem heads_run {good : Option Nat → Nat → Node → Prop} {fine : Action → Prop} {own : Option Nat}
    {a b : Nat} {s : Plan} (lies : s.Lies good fine own a b) (env : Env) (outside : k < a ∨ b ≤ k)
    (p : Progress) : (s.run env p).heads[k]? = p.heads[k]? := by
  induction lies generalizing p with
  | skip => rw [Plan.run]
  | stop => rw [Plan.run]
  | acts => rw [Plan.run, Progress.heads_acts]
  | @flat own parent i n =>
    rw [Plan.run, Progress.heads_leave,
      ((Progress.Draws.start i (p.enter parent i n)).perform env n).heads, heads_enter]
  | compound _ _ _ _ lies ih =>
    rw [Plan.run, Progress.heads_leave, ih (outside.imp_left Nat.lt_succ_of_lt), heads_enter]
  | @cycle own parent i b n before again body orelse _ _ _ _ _ _ _ first second ihBody ihElse =>
    have le := first.le
    have more := second.le
    have apart : compare i k ≠ .eq := by
      rw [ne_eq, Std.LawfulEqOrd.compare_eq_iff_eq]
      omega
    rw [Plan.run, Progress.heads_leave, Progress.loop]
    change (Plan.run env orelse _).heads[k]? = _
    rw [ihElse (by omega)]
    change (ExtTreeMap.insert _ _ _)[k]? = _
    rw [ExtTreeMap.getElem?_insert, if_neg apart, heads_settle fun q => ?_]
    · change (Progress.acts _ _ _ _).heads[k]? = _
      rw [Progress.heads_acts, heads_enter]
    · rw [ihBody (by omega), Progress.heads_acts]
  | seq first second ihFirst ihSecond =>
    have le := first.le
    have more := second.le
    rw [Plan.run, ihSecond (by omega), ihFirst (by omega)]
  | protect first second third ihBody ihRescue ihAfter =>
    have le := first.le
    have more := second.le
    have most := third.le
    rw [Plan.run]
    exact (ihAfter (by omega) _).trans ((ihRescue (by omega) _).trans (ihBody (by omega) p))

end Flow

end Lineage
