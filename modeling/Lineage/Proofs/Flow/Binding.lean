import Lineage.Proofs.Flow.Work

/-!
The operations of an analysis bind what the statement at hand binds: afterwards each of its names
has the statement as an origin, and every other name has kept its origins. They mark the statement
as one that runs unknown code exactly if one of its parts does. Both are said of every operation at
an index, up to the whole of what a statement without blocks does.
-/

namespace Lineage.Flow

open List

variable {ds : List Definition} {names others : List String} {i : Nat} {p : Progress} {s : State}
  {α : Type}

namespace State

/-- In the second state the statement is an origin of each of the names, and every other name has
kept the origins it had in the first. -/
def Binds (i : Nat) (names : List String) (s t : State) : Prop :=
  ∀ name, (name ∈ names → .statement i ∈ t.reaching name) ∧
    (name ∉ names → ∀ origin ∈ s.reaching name, origin ∈ t.reaching name)

theorem Binds.refl (i : Nat) (s : State) : Binds i [] s s :=
  fun _ => ⟨fun h => absurd h not_mem_nil, fun _ _ h => h⟩

theorem Binds.trans {t u : State} (first : Binds i names s t) (second : Binds i others t u) :
    Binds i (names ++ others) s u := by
  intro name
  constructor
  · intro member
    by_cases later : name ∈ others
    · exact (second name).1 later
    · have earlier : name ∈ names := (mem_append.mp member).resolve_right later
      exact (second name).2 later _ ((first name).1 earlier)
  · intro neither origin reaches
    rw [mem_append, not_or] at neither
    exact (second name).2 neither.2 origin ((first name).2 neither.1 origin reaches)

/-- Only the names matter, not their order or number. -/
theorem Binds.congr {t : State} (binds : Binds i names s t)
    (same : ∀ name, name ∈ names ↔ name ∈ others) : Binds i others s t := by
  intro name
  rw [← same name]
  exact binds name

theorem below_define {d : Definition} (mild : d.kind.kills = false) (i : Nat) (s : State) :
    s.Below (s.define i d) := by
  intro name origin reaches
  refine mem_reaching_define.mpr (Or.inr ⟨?_, reaches⟩)
  rw [mild]
  exact fun same => absurd same.2 Bool.false_ne_true

end State

/-- The definitions bind the names: each name is defined, and each definition that kills is of such
a name. -/
structure Covering (names : List String) (ds : List Definition) : Prop where
  defined : ∀ name ∈ names, ∃ d ∈ ds, d.name = name
  killed : ∀ d ∈ ds, d.kind.kills = true → d.name ∈ names

namespace Covering

theorem nil : Covering [] [] :=
  ⟨fun _ h => absurd h not_mem_nil, fun _ h => absurd h not_mem_nil⟩

theorem append {es : List Definition} (first : Covering names ds) (second : Covering others es) :
    Covering (names ++ others) (ds ++ es) where
  defined name member := by
    rcases mem_append.mp member with member | member
    · obtain ⟨d, among, same⟩ := first.defined name member
      exact ⟨d, mem_append_left es among, same⟩
    · obtain ⟨d, among, same⟩ := second.defined name member
      exact ⟨d, mem_append_right ds among, same⟩
  killed d member kills := by
    rcases mem_append.mp member with member | member
    · exact mem_append_left others (first.killed d member kills)
    · exact mem_append_right names (second.killed d member kills)

/-- Definitions that do not kill bind no name for sure. -/
theorem mild (mild : ∀ d ∈ ds, d.kind.kills = false) : Covering [] ds where
  defined _ h := absurd h not_mem_nil
  killed d member kills := by
    rw [mild d member] at kills
    exact absurd kills Bool.false_ne_true

theorem map (xs : List α) (f : α → Definition) :
    Covering (xs.map fun x => (f x).name) (xs.map f) where
  defined name member := by
    obtain ⟨x, among, rfl⟩ := mem_map.mp member
    exact ⟨f x, mem_map_of_mem among, rfl⟩
  killed d member _ := by
    obtain ⟨x, among, rfl⟩ := mem_map.mp member
    exact mem_map_of_mem among

end Covering

namespace State

/-- The state after a statement has bound several names. -/
def defineAll (s : State) (i : Nat) (ds : List Definition) : State :=
  ds.foldl (fun s d => s.define i d) s

theorem defineAll_cons (s : State) (i : Nat) (d : Definition) (ds : List Definition) :
    s.defineAll i (d :: ds) = (s.define i d).defineAll i ds := rfl

theorem own_defineAll {name : String} (reaches : .statement i ∈ s.reaching name) :
    .statement i ∈ (s.defineAll i ds).reaching name := by
  induction ds generalizing s with
  | nil => exact reaches
  | cons d rest ih =>
    refine ih ?_
    by_cases same : d.name = name
    · exact mem_reaching_define.mpr (Or.inl ⟨same, rfl⟩)
    · exact mem_reaching_define.mpr (Or.inr ⟨fun both => same both.1, reaches⟩)

theorem defined_defineAll {d : Definition} (member : d ∈ ds) :
    .statement i ∈ (s.defineAll i ds).reaching d.name := by
  induction ds generalizing s with
  | nil => exact absurd member not_mem_nil
  | cons first rest ih =>
    rcases mem_cons.mp member with rfl | member
    · rw [defineAll_cons]
      exact own_defineAll (mem_reaching_define.mpr (Or.inl ⟨rfl, rfl⟩))
    · exact ih member

theorem kept_defineAll {name : String} {origin : Origin} (kept : ∀ d ∈ ds, d.kind.kills = true →
    d.name ≠ name) (reaches : origin ∈ s.reaching name) :
    origin ∈ (s.defineAll i ds).reaching name := by
  induction ds generalizing s with
  | nil => exact reaches
  | cons d rest ih =>
    refine ih (fun e member => kept e (mem_cons_of_mem d member)) ?_
    refine mem_reaching_define.mpr (Or.inr ⟨?_, reaches⟩)
    exact fun both => kept d mem_cons_self both.2 both.1

theorem binds_defineAll (covering : Covering names ds) (i : Nat) (s : State) :
    Binds i names s (s.defineAll i ds) := by
  intro name
  constructor
  · intro member
    obtain ⟨d, among, rfl⟩ := covering.defined name member
    exact defined_defineAll among
  · intro other origin reaches
    exact kept_defineAll
      (fun d among kills same => other (same ▸ covering.killed d among kills)) reaches

end State

namespace Progress

/-- What is waiting to be bound binds the names. -/
def Awaits (names : List String) (p : Progress) : Prop :=
  Covering names p.pending

theorem awaits_nil (pending : p.pending = []) : p.Awaits [] := by
  unfold Awaits
  rw [pending]
  exact .nil

@[simp] theorem state_defineAll (p : Progress) (i : Nat) (ds : List Definition) :
    (p.defineAll i ds).state = p.state.defineAll i ds := by
  induction ds generalizing p with
  | nil => rfl
  | cons d rest ih => exact ih (p.define i d)

@[simp] theorem pending_defineAll (p : Progress) (i : Nat) (ds : List Definition) :
    (p.defineAll i ds).pending = p.pending := by
  induction ds generalizing p with
  | nil => rfl
  | cons d rest ih => exact ih (p.define i d)

@[simp] theorem state_uses (p : Progress) (i : Nat) (us : List Use) :
    (us.foldl (fun q u => q.use i u) p).state = p.state := by
  induction us generalizing p with
  | nil => rfl
  | cons u rest ih => exact ih (p.use i u)

@[simp] theorem pending_uses (p : Progress) (i : Nat) (us : List Use) :
    (us.foldl (fun q u => q.use i u) p).pending = p.pending := by
  induction us generalizing p with
  | nil => rfl
  | cons u rest ih => exact ih (p.use i u)

@[simp] theorem state_read (env : Env) (i : Nat) (e : Node) (p : Progress) :
    (p.read env i e).state = p.state := by
  unfold read
  split <;> exact state_uses _ i _

theorem pending_read (env : Env) (i : Nat) (e : Node) (p : Progress) :
    (p.read env i e).pending = p.pending ++ p.evaluationDefinitions env e := by
  unfold read
  split <;> exact congrArg (· ++ p.evaluationDefinitions env e) (pending_uses _ i _)

/-- A call changes objects and binds no name for sure. -/
theorem mild_callDefinitions (env : Env) (p : Progress) (e : Node) :
    ∀ d ∈ p.callDefinitions env e, d.kind.kills = false := by
  intro d member
  cases e <;> try exact absurd member not_mem_nil
  case call loc func args keywords =>
    rw [callDefinitions, mem_append] at member
    rcases member with member | member
    · obtain ⟨name, _, rfl⟩ := mem_map.mp member
      rfl
    · split at member
      · exact absurd member not_mem_nil
      · obtain ⟨arg, _, found⟩ := mem_filterMap.mp member
        obtain ⟨root, _, rfl⟩ := Option.map_eq_some_iff.mp found
        rfl

/-- Evaluating an expression binds the names of its assignment expressions. -/
theorem covering_evaluationDefinitions (env : Env) (p : Progress) (e : Node) :
    Covering e.walruses (p.evaluationDefinitions env e) := by
  have calls : Covering [] (e.evaluated.flatMap (p.callDefinitions env)) := by
    refine .mild ?_
    intro d member
    obtain ⟨n, _, among⟩ := mem_flatMap.mp member
    exact p.mild_callDefinitions env n d among
  exact calls.append (.map e.bindings fun o => ⟨o.id, o.id, .assignment, o.loc⟩)

theorem awaits_read (awaits : p.Awaits names) (env : Env) (i : Nat) (e : Node) :
    (p.read env i e).Awaits (names ++ e.walruses) := by
  unfold Awaits
  rw [pending_read]
  exact awaits.append (p.covering_evaluationDefinitions env e)

theorem awaits_readAll (awaits : p.Awaits names) (env : Env) (i : Nat) (es : List Node) :
    (p.readAll env i es).Awaits (names ++ es.flatMap Node.walruses) := by
  induction es generalizing p names with
  | nil =>
    rw [flatMap_nil, append_nil]
    exact awaits
  | cons e rest ih =>
    rw [flatMap_cons, ← append_assoc]
    exact ih (awaits_read awaits env i e)

@[simp] theorem state_readAll (env : Env) (i : Nat) (es : List Node) (p : Progress) :
    (p.readAll env i es).state = p.state := by
  induction es generalizing p with
  | nil => rfl
  | cons e rest ih => exact (ih (p.read env i e)).trans (state_read env i e p)

end Progress

namespace StatementFacts

@[simp] theorem dynamic_dependOn (f : StatementFacts) (kind : EdgeKind) (source : StatementFacts)
    (name : Option String) : (f.dependOn kind source name).dynamic = f.dynamic := by
  unfold dependOn
  split <;> rfl

@[simp] theorem dynamic_useOrigin (all : Array StatementFacts) (name : String) (f : StatementFacts)
    (origin : Origin) : (f.useOrigin all name origin).dynamic = f.dynamic := by
  cases origin with
  | parameter => rfl
  | entry => rfl
  | statement k =>
    rw [useOrigin]
    split
    · rfl
    · exact dynamic_dependOn _ _ _ _

theorem dynamic_foldl {step : StatementFacts → α → StatementFacts}
    (same : ∀ (f : StatementFacts) (x : α), (step f x).dynamic = f.dynamic) (xs : List α)
    (f : StatementFacts) : (xs.foldl step f).dynamic = f.dynamic := by
  induction xs generalizing f with
  | nil => rfl
  | cons x rest ih => exact (ih (step f x)).trans (same f x)

@[simp] theorem dynamic_useEverything (all : Array StatementFacts) (s : State)
    (f : StatementFacts) : (f.useEverything all s).dynamic = f.dynamic := by
  unfold useEverything
  refine (dynamic_foldl ?_ _ _).trans rfl
  intro f entry
  refine dynamic_foldl ?_ _ _
  intro f origin
  split
  · rfl
  · exact dynamic_useOrigin _ _ _ _

@[simp] theorem dynamic_use (all : Array StatementFacts) (s : State) (f : StatementFacts)
    (u : Use) : (f.use all s u).dynamic = f.dynamic := by
  unfold use
  split
  · exact dynamic_useEverything all s f
  · exact (dynamic_foldl (fun f origin => dynamic_useOrigin _ _ f origin) _ _).trans rfl

end StatementFacts

namespace Progress

/-- The statement is marked as running unknown code if it was before or if `unknown` holds. -/
def Flags (i : Nat) (unknown : Bool) (p q : Progress) : Prop :=
  ∀ f, p.facts[i]? = some f → ∃ g, q.facts[i]? = some g ∧ g.dynamic = (f.dynamic || unknown)

namespace Flags

variable {i : Nat} {p q r : Progress} {a b : Bool}

theorem refl (i : Nat) (p : Progress) : Flags i false p p :=
  fun f found => ⟨f, found, (Bool.or_false _).symm⟩

theorem trans (first : Flags i a p q) (second : Flags i b q r) : Flags i (a || b) p r := by
  intro f found
  obtain ⟨g, foundG, flagG⟩ := first f found
  obtain ⟨h, foundH, flagH⟩ := second g foundG
  exact ⟨h, foundH, by rw [flagH, flagG, Bool.or_assoc]⟩

theorem foldl {step : Progress → α → Progress} {unknown : α → Bool}
    (flags : ∀ p x, Flags i (unknown x) p (step p x)) (xs : List α) (p : Progress) :
    Flags i (xs.any unknown) p (xs.foldl step p) := by
  induction xs generalizing p with
  | nil => exact refl i p
  | cons x rest ih =>
    rw [any_cons]
    exact (flags p x).trans (ih (step p x))

/-- Steps that mark nothing together mark nothing. -/
theorem foldl_same {step : Progress → α → Progress} (flags : ∀ p x, Flags i false p (step p x))
    (xs : List α) (p : Progress) : Flags i false p (xs.foldl step p) := by
  have all := foldl flags xs p
  rwa [any_eq_false.mpr fun _ _ => Bool.false_ne_true] at all

end Flags

theorem flags_revise (p : Progress) (i : Nat) (unknown : Bool) {f : StatementFacts → StatementFacts}
    (same : ∀ g : StatementFacts, (f g).dynamic = (g.dynamic || unknown)) :
    Flags i unknown p (p.revise i f) := by
  intro g found
  refine ⟨f g, ?_, same g⟩
  rw [revise, Array.getElem?_modify, if_pos rfl, found]
  rfl

theorem flags_use (p : Progress) (i : Nat) (u : Use) : Flags i false p (p.use i u) :=
  p.flags_revise i false fun f => by rw [StatementFacts.dynamic_use, Bool.or_false]

theorem flags_define (p : Progress) (i : Nat) (d : Definition) : Flags i false p (p.define i d) :=
  p.flags_revise i false fun _ => (Bool.or_false _).symm

theorem flags_defineAll (p : Progress) (i : Nat) (ds : List Definition) :
    Flags i false p (p.defineAll i ds) :=
  Flags.foldl_same (fun p d => p.flags_define i d) ds p

theorem flags_setDynamic (p : Progress) (i : Nat) :
    Flags i true p (p.revise i fun f => { f with dynamic := true }) :=
  p.flags_revise i true fun _ => (Bool.or_true _).symm

theorem flags_read (env : Env) (i : Nat) (e : Node) (p : Progress) :
    Flags i (e.runsUnknown env.settings) p (p.read env i e) := by
  unfold read Node.runsUnknown
  split
  · next unknown =>
    rw [unknown]
    exact (p.flags_setDynamic i).trans (Flags.foldl_same (fun q u => q.flags_use i u) _ _)
  · next known =>
    rw [Bool.eq_false_iff.mpr known]
    exact Flags.foldl_same (fun q u => q.flags_use i u) _ _

theorem flags_readAll (env : Env) (i : Nat) (es : List Node) (p : Progress) :
    Flags i (es.any (Node.runsUnknown env.settings)) p (p.readAll env i es) :=
  Flags.foldl (fun p e => p.flags_read env i e) es p

/-- What a statement does at its index: it may run unknown code, and it binds the names. -/
structure Does (i : Nat) (unknown : Bool) (names : List String) (p q : Progress) : Prop where
  flags : Flags i unknown p q
  binds : p.state.Binds i names q.state
  settled : q.pending = []

namespace Does

variable {i : Nat} {p q r : Progress} {a b : Bool} {names others : List String}

theorem refl (i : Nat) (settled : p.pending = []) : Does i false [] p p :=
  ⟨.refl i p, .refl i _, settled⟩

theorem trans (first : Does i a names p q) (second : Does i b others q r) :
    Does i (a || b) (names ++ others) p r :=
  ⟨first.flags.trans second.flags, first.binds.trans second.binds, second.settled⟩

theorem congr (does : Does i a names p q) (same : ∀ name, name ∈ names ↔ name ∈ others) :
    Does i a others p q :=
  ⟨does.flags, does.binds.congr same, does.settled⟩

end Does

theorem does_flush (awaits : p.Awaits names) (i : Nat) : Does i false names p (p.flush i) where
  flags := flags_defineAll { p with pending := [] } i p.pending
  binds := by
    rw [flush, state_defineAll]
    exact State.binds_defineAll awaits i p.state
  settled := pending_defineAll { p with pending := [] } i p.pending

/-- Evaluating expressions binds the names of their assignment expressions. -/
theorem does_evaluate (settled : p.pending = []) (env : Env) (i : Nat) (es : List Node) :
    Does i (es.any (Node.runsUnknown env.settings)) (es.flatMap Node.walruses) p
    (p.evaluate env i es) := by
  have flushed := does_flush (awaits_readAll (awaits_nil settled) env i es) i
  refine ⟨?_, ?_, flushed.settled⟩
  · have flags := (p.flags_readAll env i es).trans flushed.flags
    rwa [Bool.or_false] at flags
  · have binds := flushed.binds
    rwa [state_readAll, nil_append] at binds

theorem flags_act (env : Env) (i : Nat) (p : Progress) (action : Action) :
    Flags i (action.parts.any (Node.runsUnknown env.settings)) p (p.act env i action) := by
  cases action with
  | evaluate es =>
    have flags := (p.flags_readAll env i es).trans
      (flags_defineAll { p.readAll env i es with pending := [] } i (p.readAll env i es).pending)
    rwa [Bool.or_false] at flags
  | define d => exact p.flags_define i d
  | use u => exact p.flags_use i u
  | close free writes => exact p.flags_revise i false fun _ => (Bool.or_false _).symm
  | «break» => exact .refl i p
  | «continue» => exact .refl i p

theorem pending_act (settled : p.pending = []) (env : Env) (i : Nat) (action : Action) :
    (p.act env i action).pending = [] := by
  cases action with
  | evaluate es => exact (does_evaluate settled env i es).settled
  | _ => exact settled

/-- An action binds the names that it binds outright and those of the assignment expressions that it
evaluates. -/
theorem does_act (env : Env) (i : Nat) (a : Action) (settled : p.pending = []) :
    Does i (a.parts.any (Node.runsUnknown env.settings)) (a.parts.flatMap Node.walruses ++ a.kills)
    p (p.act env i a) := by
  refine ⟨p.flags_act env i a, ?_, pending_act settled env i a⟩
  cases a with
  | evaluate es =>
    have binds := (does_evaluate settled env i es).binds
    rwa [← append_nil (es.flatMap Node.walruses)] at binds
  | define d =>
    have covering : Covering (if d.kind.kills then [d.name] else []) [d] := by
      constructor
      · intro name member
        refine ⟨d, mem_singleton_self d, ?_⟩
        split at member
        · exact (List.mem_singleton.mp member).symm
        · exact absurd member not_mem_nil
      · intro e member kills
        obtain rfl := List.mem_singleton.mp member
        rw [if_pos kills]
        exact mem_singleton_self _
    exact State.binds_defineAll covering i p.state
  | _ => exact .refl i _

theorem does_acts (env : Env) (i : Nat) (actions : List Action) (settled : p.pending = []) :
    Does i ((actions.flatMap Action.parts).any (Node.runsUnknown env.settings))
      ((actions.flatMap Action.parts).flatMap Node.walruses ++ actions.flatMap Action.kills) p
      (p.acts env i actions) := by
  induction actions generalizing p with
  | nil => exact .refl i settled
  | cons a rest ih =>
    have first := does_act env i a settled
    have all := first.trans (ih first.settled)
    rw [flatMap_cons, any_append]
    refine all.congr fun name => ?_
    simp only [flatMap_append, flatMap_cons, mem_append]
    exact or_or_or_comm

/-- Assigning to a target evaluates its parts and binds its names. -/
theorem does_bind (env : Env) (i : Nat) {kind : DefinitionKind} (kills : kind.kills = true)
    (target : Node) (settled : p.pending = []) :
    Does i (target.targetParts.any (Node.runsUnknown env.settings))
      (target.targetParts.flatMap Node.walruses ++ target.targetIds) p
      (p.bind env i kind target) := by
  have does := does_acts env i (targetActions kind target) settled
  rwa [parts_targetActions, kills_targetActions, if_pos kills, ← bind_eq_acts] at does

theorem does_catchError (env : Env) (i : Nat) (header : Location) (type : Option Node)
    (name : Option String) (settled : p.pending = []) :
    Does i (type.toList.any (Node.runsUnknown env.settings))
      (type.toList.flatMap Node.walruses ++ name.toList) p
      (p.catchError env i header type name) := by
  have does := does_acts env i (catchActions header type name) settled
  rwa [parts_catchActions, kills_catchActions, ← catchError_eq_acts] at does

/-- A statement without blocks evaluates its parts and binds its names. -/
theorem does_perform (env : Env) (i : Nat) (n : Node) (settled : p.pending = []) :
    Does i (n.isOpaque env.settings) (n.evaluatedParts.flatMap Node.walruses ++ n.boundNames) p
      (p.perform env i n) := by
  have does := does_acts env i (flatActions env n) settled
  rw [parts_flatActions, kills_flatActions] at does
  unfold Node.isOpaque
  rcases p.perform_cases env i n with ⟨verbatim, same⟩ | ⟨known, same⟩
  · rw [same, decide_eq_true verbatim, Bool.true_or]
    obtain ⟨loc, source, rfl⟩ := Node.eq_verbatim verbatim
    exact ⟨p.flags_setDynamic i, .refl i _, settled⟩
  · rwa [same, decide_eq_false known, Bool.false_or]

@[simp] theorem pending_leave (i : Nat) (n : Node) (entry : State) (p : Progress) :
    (p.leave i n entry).pending = p.pending := by
  unfold leave
  split
  · dsimp only
    split <;> rfl
  · rfl

theorem flags_leave (i : Nat) (n : Node) (entry : State) (p : Progress) :
    Flags i false p (p.leave i n entry) := by
  unfold leave
  split
  · have used := p.flags_revise i false (f := fun f => f.useEverything p.facts entry)
      fun f => by simp
    dsimp only
    split
    · exact used
    · have cleared := flags_revise (p.revise i fun f => f.useEverything p.facts entry) i false
        (f := fun f => { f with definitions := [] }) fun f => by simp
      generalize (p.revise i fun f => f.useEverything p.facts entry).revise i
        (fun f => { f with definitions := [] }) = q at *
      have begun : Flags i false q { q with state := entry } := .refl i q
      exact (used.trans (cleared.trans begun)).trans (flags_define _ i _)
  · exact .refl i p

end Progress

end Lineage.Flow
