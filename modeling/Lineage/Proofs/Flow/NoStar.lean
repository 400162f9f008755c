import Lineage.Proofs.Flow.Draw
import Lineage.Proofs.Tree.Reads

/-!
Analyses in which nothing is ever said of all names at once. In such a noStar analysis a use of a
name gets its value from what reaches that name and from nothing else, so it can be told exactly
which dependences it adds. Clear actions keep an analysis noStar.
-/

namespace Lineage.Flow

open List Std

variable {env : Env} {es : List Node} {n : Node} {p q : Progress} {s : State} {f : StatementFacts}
  {name : String}

namespace Progress

/-- What is known of the assignments outside is the same. -/
def SameWrites (p q : Progress) : Prop :=
  ∀ k : Nat, q.facts[k]?.map StatementFacts.globalWrites =
    p.facts[k]?.map StatementFacts.globalWrites

theorem sameWrites_use (p : Progress) (i : Nat) (u : Use) : p.SameWrites (p.use i u) := by
  intro k
  simp only [use, revise, Array.getElem?_modify]
  split
  · cases p.facts[k]? with
    | none => rfl
    | some f => exact congrArg some (f.alike_use p.facts p.state u).globalWrites
  · rfl

/-- What evaluating an expression binds depends on which callees are pure and on what calls
assign. -/
theorem evaluationDefinitions_eq {other : Env} (pure : other.isPure = env.isPure)
    (written : ∀ callee, q.writesOf other callee = p.writesOf env callee) :
    q.evaluationDefinitions other = p.evaluationDefinitions env := by
  have callees : q.calleeWrites other = p.calleeWrites env := by
    funext callee
    cases callee
    case name loc id => exact congrArg ExtTreeSet.toList (written id)
    all_goals rfl
  have calls : q.callDefinitions other = p.callDefinitions env := by
    funext e
    cases e
    case call => rw [callDefinitions, callDefinitions, callees, pure]
    all_goals rfl
  funext e
  rw [evaluationDefinitions, evaluationDefinitions, calls]

theorem evaluationDefinitions_congr (env : Env) (state : q.state = p.state)
    (same : p.SameWrites q) : q.evaluationDefinitions env = p.evaluationDefinitions env := by
  have from_ : q.writesFrom env = p.writesFrom env := by
    funext name origin
    cases origin with
    | parameter => rfl
    | entry => rfl
    | statement k => exact congrArg (·.getD ∅) (same k)
  refine evaluationDefinitions_eq rfl fun name => ?_
  rw [writesOf, writesOf, state, from_]

/-- The uses and then the definitions of evaluating expressions. -/
def evaluationActions (env : Env) (p : Progress) (es : List Node) : List Action :=
  (es.flatMap fun e => (e.reads env.isPure .bare).map useOfRead).map .use ++
    (es.flatMap (p.evaluationDefinitions env)).map .define

theorem readAll_eq (env : Env) (i : Nat) (known : ∀ e ∈ es, e.runsUnknown env.settings = false)
    (p : Progress) : p.readAll env i es =
      { (es.flatMap fun e => (e.reads env.isPure .bare).map useOfRead).foldl
        (fun p u => p.use i u) p with
        pending := p.pending ++ es.flatMap (p.evaluationDefinitions env) } := by
  -- What is pending does not matter for uses, and uses change nothing that definitions depend on.
  have aside : ∀ (us : List Use) (p : Progress) (pending : List Definition),
      us.foldl (fun p u => p.use i u) { p with pending := pending } =
        { us.foldl (fun p u => p.use i u) p with pending := pending } := by
    intro us
    induction us with
    | nil => exact fun _ _ => rfl
    | cons u rest ih => exact fun p pending => ih (p.use i u) pending
  have same : ∀ (us : List Use) (p : Progress), p.SameWrites
      (us.foldl (fun p u => p.use i u) p) := by
    intro us
    induction us with
    | nil => exact fun _ _ => rfl
    | cons u rest ih => exact fun p k => (ih (p.use i u) k).trans (sameWrites_use p i u k)
  induction es generalizing p with
  | nil => simp [readAll]
  | cons e rest ih =>
    obtain ⟨own, others⟩ := forall_mem_cons.mp known
    have read : p.read env i e = { ((e.reads env.isPure .bare).map useOfRead).foldl
        (fun p u => p.use i u) p with
        pending := p.pending ++ p.evaluationDefinitions env e } := by
      unfold Node.runsUnknown at own
      simp only [Progress.read, own, Bool.false_eq_true, if_false, pending_uses]
    change (p.read env i e).readAll env i rest = _
    rw [ih others, evaluationDefinitions_congr env (state_read env i e p), read, aside,
      flatMap_cons, foldl_append, flatMap_cons, append_assoc]
    rw [read]
    exact same _ p

/-- Evaluating expressions is to use what they read and then to bind what they bind. -/
theorem evaluate_eq_acts (env : Env) (i : Nat)
    (known : ∀ e ∈ es, e.runsUnknown env.settings = false) (settled : p.pending = []) :
    p.evaluate env i es = p.acts env i (p.evaluationActions env es) := by
  rw [evaluationActions, acts_append, acts_uses, acts_defines, evaluate, readAll_eq env i known,
    settled, nil_append, flush]
  congr 1
  have none : ((es.flatMap fun e => (e.reads env.isPure .bare).map useOfRead).foldl
      (fun p u => p.use i u) p).pending = [] := by
    rw [pending_uses, settled]
  generalize (es.flatMap fun e => (e.reads env.isPure .bare).map useOfRead).foldl
    (fun p u => p.use i u) p = q at none ⊢
  rw [← none]

end Progress

/-- An expression that runs no unknown code and has only the names. -/
def Tame (settings : Settings) (names : NameSet) (e : Node) : Prop :=
  e.runsUnknown settings = false ∧ NamedIn names e

/-- A statement that has only the names and whose actions are known, and those of the statements in
its blocks and bodies are: none brings in all names of a module or runs unknown code. -/
structure Clear (settings : Settings) (names : NameSet) (n : Node) : Prop where
  named : NamedIn names n
  known : n.Everywhere fun m => m.isStarImport = false ∧ m.isDynamic settings = false ∧
    m.kind ≠ .module

/-- An action that has only the names and nothing to do with all names at once. -/
def Action.Clear (settings : Settings) (names : NameSet) : Action → Prop
  | .evaluate es => ∀ e ∈ es, Tame settings names e
  | .define d => d.name ∈ names
  | .use u => u.name ≠ allNames
  | .close _ writes => ∀ name ∈ writes, name ∈ names
  | _ => True

section Clear

variable {settings : Settings} {names : NameSet}

section

variable (clear : Clear settings names n)

include clear

theorem Clear.inside {c : Node} (member : c ∈ n.bodies) : Clear settings names c := by
  obtain ⟨named, _, inner⟩ := clear
  exact ⟨named.below (Node.bodies_subset n member), inner c member⟩

theorem Clear.own :
    n.isStarImport = false ∧ n.kind ≠ .verbatim ∧ ∀ e ∈ n.ownParts, e.runsUnknown settings =
    false := by
  obtain ⟨_, ⟨plain, known, _⟩, _⟩ := clear
  simp only [Node.isDynamic, Bool.or_eq_false_iff, decide_eq_false_iff_not, any_eq_false,
    Bool.not_eq_true] at known
  exact ⟨plain, known.1, known.2⟩

theorem Clear.statement : n.kind ≠ .module := by
  obtain ⟨_, ⟨_, _, statement⟩, _⟩ := clear
  exact statement

theorem Clear.tame {e : Node} (part : e ∈ n.ownParts) : Tame settings names e :=
  ⟨clear.own.2.2 e part, clear.named.below (ownParts_subset n part)⟩

theorem Clear.headActions : ∀ a ∈ n.headActions, a.Clear settings names := by
  intro a member
  have binds := binds_headActions n a member
  cases a with
  | evaluate es =>
    exact fun e part => clear.tame (headParts_subset_ownParts n (mem_flatMap.mpr ⟨_, member, part⟩))
  | define d => exact clear.named d.name binds
  | _ => exact binds.elim

/-- What a clear statement without blocks does is clear if the body of a class uses only single
names. -/
theorem Clear.flatActions (star : allNames ∉ names)
    (flat : n.kind.isCompound = false) (uses : ∀ u ∈ (classBody env n.bodies).classUses, u.name ≠
    allNames) : ∀ a ∈ flatActions env n, a.Clear settings names := by
  intro a member
  have done := done_flatActions env n a member
  cases a with
  | evaluate es =>
    refine fun e part => clear.tame ?_
    rw [ownParts_flat flat, ← parts_flatActions env n]
    exact mem_flatMap.mpr ⟨_, member, part⟩
  | define d =>
    rcases done with own | ⟨all, _⟩
    · exact clear.named d.name own
    · exact absurd (all.symm.trans clear.own.1) Bool.true_eq_false.mp
  | use u => exact done.elim (fun own same => star (same ▸ clear.named u.name own)) (uses u)
  | close free writes => exact fun name written => clear.named name (done.2 name written)
  | _ => trivial

end

end Clear

namespace State

/-- Nothing has been said of all names at once. -/
def Plain (s : State) : Prop :=
  ∀ origin ∈ s.reaching allNames, origin = .entry

theorem plain_empty : Plain ∅ := by
  intro origin reaches
  rwa [reaching_empty, mem_untouched] at reaches

theorem Plain.merge {t : State} (first : s.Plain) (second : t.Plain) : (s.merge t).Plain :=
  fun origin reaches => (mem_reaching_merge.mp reaches).elim (first origin) (second origin)

theorem Plain.define (plain : s.Plain) (i : Nat) {d : Definition} (other : d.name ≠ allNames) :
    (s.define i d).Plain := by
  intro origin reaches
  rcases mem_reaching_define.mp reaches with ⟨same, _⟩ | ⟨_, reaches⟩
  · exact absurd same other
  · exact plain origin reaches

theorem Plain.mem_origins (plain : s.Plain) {origin : Origin} :
    origin ∈ StatementFacts.origins s name ↔ origin ∈ s.reaching name := by
  unfold StatementFacts.origins
  split
  · exact Iff.rfl
  · rename_i anything found
    rw [ExtTreeSet.mem_union_iff]
    refine or_iff_left fun erased => ?_
    rw [ExtTreeSet.mem_erase] at erased
    have entry : origin = .entry := by
      refine plain origin ?_
      rw [reaching_eq_getD, found]
      exact erased.2
    exact erased.1 (Std.LawfulEqOrd.compare_eq_iff_eq.mpr entry.symm)

end State

namespace StatementFacts

theorem mem_addNew_iff {α : Type} [DecidableEq α] {xs : List α} {x y : α} :
    y ∈ addNew xs x ↔ y ∈ xs ∨ y = x := by
  constructor
  · exact fun member => (eq_or_mem_of_mem_addNew member).symm
  · rintro (member | rfl)
    · exact subset_addNew xs x member
    · exact mem_addNew xs y

/-- What reading a name of which the origins are given adds to what is known of a statement, and
nothing else: the name is external if it may have its value from before the block, and each other
statement among the origins is one that the statement depends on. -/
structure Reads (all : Array StatementFacts) (origins : Origin → Prop) (name : String)
    (f g : StatementFacts) : Prop where
  index : g.index = f.index
  node : g.node = f.node
  definitions : g.definitions = f.definitions
  entry : g.entry = f.entry
  free : g.free = f.free
  globalWrites : g.globalWrites = f.globalWrites
  dynamic : g.dynamic = f.dynamic
  external : ∀ other, other ∈ g.external ↔ other ∈ f.external ∨ other = name ∧ origins .entry
  inbound : ∀ edge, edge ∈ g.inbound ↔ edge ∈ f.inbound ∨ ∃ k source, origins (.statement k) ∧
    all[k]? = some source ∧ source.index ≠ f.index ∧
    edge = ⟨.data, source.location, f.location, some name⟩

theorem reads_useOrigin (all : Array StatementFacts) (name : String) (f : StatementFacts)
    (origin : Origin) :
    f.Reads all (· = origin) name (f.useOrigin all name origin) := by
  cases origin with
  | parameter =>
    refine ⟨rfl, rfl, rfl, rfl, rfl, rfl, rfl, fun other => ?_, fun edge => ?_⟩
    · exact (or_iff_left (by simp)).symm
    · exact (or_iff_left (by simp)).symm
  | entry =>
    refine ⟨rfl, rfl, rfl, rfl, rfl, rfl, rfl, fun other => ?_,
      fun edge => (or_iff_left (by simp)).symm⟩
    simp only [useOrigin, ExtTreeSet.mem_insert, Std.LawfulEqOrd.compare_eq_iff_eq, and_true]
    rw [or_comm, eq_comm]
  | statement k =>
    have none : ∀ other, other ∈ f.external ↔ other ∈ f.external ∨ other = name ∧
        Origin.entry = .statement k :=
      fun other => (or_iff_left (by simp)).symm
    rw [useOrigin]
    split
    · rename_i missing
      refine ⟨rfl, rfl, rfl, rfl, rfl, rfl, rfl, none, fun edge => (or_iff_left ?_).symm⟩
      rintro ⟨l, source, same, found, _⟩
      rw [Origin.statement.inj same, missing] at found
      cases found
    · rename_i source found
      unfold dependOn
      split
      · rename_i own
        refine ⟨rfl, rfl, rfl, rfl, rfl, rfl, rfl, none, fun edge => (or_iff_left ?_).symm⟩
        rintro ⟨l, other, same, foundOther, apart, _⟩
        rw [Origin.statement.inj same, found] at foundOther
        exact apart (Option.some.inj foundOther ▸ own)
      · rename_i apart
        refine ⟨rfl, rfl, rfl, rfl, rfl, rfl, rfl, none, fun edge => mem_addNew_iff.trans
          (or_congr_right ?_)⟩
        constructor
        · exact fun same => ⟨k, source, rfl, found, apart, same⟩
        · rintro ⟨l, other, same, foundOther, _, edge⟩
          rw [Origin.statement.inj same, found] at foundOther
          rw [edge, Option.some.inj foundOther]

theorem Reads.trans {all : Array StatementFacts} {a b : Origin → Prop} {g h : StatementFacts}
    (first : f.Reads all a name g) (second : g.Reads all b name h) :
    f.Reads all (fun origin => a origin ∨ b origin) name h where
  index := second.index.trans first.index
  node := second.node.trans first.node
  definitions := second.definitions.trans first.definitions
  entry := second.entry.trans first.entry
  free := second.free.trans first.free
  globalWrites := second.globalWrites.trans first.globalWrites
  dynamic := second.dynamic.trans first.dynamic
  external other := by
    rw [second.external, first.external, or_assoc, ← and_or_left]
  inbound edge := by
    have location : g.location = f.location := congrArg Node.loc first.node
    rw [second.inbound, first.inbound, first.index, location, or_assoc]
    simp only [or_and_right, exists_or]

theorem reads_foldl (all : Array StatementFacts) (name : String) (origins : List Origin)
    (f : StatementFacts) : f.Reads all (· ∈ origins) name
    (origins.foldl (fun f origin => f.useOrigin all name origin) f) := by
  induction origins generalizing f with
  | nil =>
    refine ⟨rfl, rfl, rfl, rfl, rfl, rfl, rfl, fun other => ?_, fun edge => ?_⟩
    · exact (or_iff_left (by simp)).symm
    · exact (or_iff_left (by simp)).symm
  | cons origin rest ih =>
    simp only [mem_cons]
    exact (reads_useOrigin all name f origin).trans (ih _)

/-- Using a name where nothing has been said of all names at once. -/
theorem reads_use (plain : s.Plain) {u : Use} (other : u.name ≠ allNames)
    (all : Array StatementFacts) (f : StatementFacts) :
    f.Reads all (· ∈ s.reaching u.name) u.name (f.use all s u) := by
  have used := reads_foldl all u.name (origins s u.name).toList { f with uses := addNew f.uses u }
  simp only [ExtTreeSet.mem_toList, plain.mem_origins] at used
  rw [use, if_neg other]
  exact ⟨used.index, used.node, used.definitions, used.entry, used.free, used.globalWrites,
    used.dynamic, used.external, used.inbound⟩

/-- What is known of a statement says nothing of all names at once. -/
structure NoStar (f : StatementFacts) : Prop where
  dynamic : f.dynamic = false
  external : allNames ∉ f.external
  globalWrites : allNames ∉ f.globalWrites

theorem NoStar.reads {all : Array StatementFacts} {origins : Origin → Prop} {g : StatementFacts}
    (noStar : f.NoStar) (reads : f.Reads all origins name g) (other : name ≠ allNames) :
    g.NoStar where
  dynamic := reads.dynamic.trans noStar.dynamic
  external member := by
    rcases (reads.external allNames).mp member with member | ⟨same, _⟩
    · exact noStar.external member
    · exact other same.symm
  globalWrites := by
    rw [reads.globalWrites]
    exact noStar.globalWrites

end StatementFacts

/-- An environment for the analysis of trees under some settings in which nothing is said of all
names at once, and in which loops are passed. -/
structure Env.Proper (settings : Settings) (env : Env) : Prop where
  settings : env.settings = settings
  passes : 0 < env.passes
  writes : ∀ callee, allNames ∉ env.writes.getD callee ∅

theorem Env.Proper.forBlock {settings : Settings} (proper : env.Proper settings)
    (params : List String) (code : List Node) : (env.forBlock params code).Proper settings where
  settings := proper.settings
  passes := passLimit_pos env.writes params code
  writes := proper.writes

namespace Progress

/-- An analysis under way in which nothing has been said of all names at once and nothing is
pending. -/
structure NoStar (p : Progress) : Prop where
  state : p.state.Plain
  heads : ∀ (k : Nat) (s : State), p.heads[k]? = some s → s.Plain
  breaks : ∀ s ∈ p.breaks, s.Plain
  continues : ∀ s ∈ p.continues, s.Plain
  facts : ∀ f ∈ p.facts, f.NoStar
  pending : p.pending = []

namespace NoStar

variable {settings : Settings} {names : NameSet} {env : Env} {i : Nat} {p : Progress}

theorem start (plain : s.Plain) : (Progress.start s).NoStar where
  state := plain
  heads k s found := by simp [Progress.start] at found
  breaks := forall_mem_nil _
  continues := forall_mem_nil _
  facts f member := by simp [Progress.start] at member
  pending := rfl

theorem resume (noStar : p.NoStar) (plain : s.Plain) : (p.resume s).NoStar :=
  { noStar with state := plain }

theorem revise (noStar : p.NoStar) (i : Nat) {change : StatementFacts → StatementFacts}
    (keeps : ∀ f : StatementFacts, f.NoStar → (change f).NoStar) : (p.revise i change).NoStar := by
  refine { noStar with facts := fun f member => ?_ }
  obtain ⟨k, inside, rfl⟩ := Array.mem_iff_getElem.mp member
  simp only [Progress.revise, Array.size_modify] at inside
  simp only [Progress.revise, Array.getElem_modify]
  split
  · exact keeps _ (noStar.facts _ (Array.getElem_mem _))
  · exact noStar.facts _ (Array.getElem_mem _)

theorem use (noStar : p.NoStar) (i : Nat) {u : Use} (other : u.name ≠ allNames) :
    (p.use i u).NoStar :=
  noStar.revise i fun f held => held.reads (f.reads_use noStar.state other p.facts) other

theorem define (noStar : p.NoStar) (i : Nat) {d : Definition} (other : d.name ≠ allNames) :
    (p.define i d).NoStar := by
  have revised : (p.revise i fun f => f.define d).NoStar :=
    noStar.revise i fun _ held => ⟨held.dynamic, held.external, held.globalWrites⟩
  exact { revised with state := noStar.state.define i other }

theorem push (noStar : p.NoStar) (held : f.NoStar) : NoStar { p with facts := p.facts.push f } := by
  refine { noStar with facts := fun g member => ?_ }
  rcases Array.mem_push.mp member with member | rfl
  · exact noStar.facts g member
  · exact held

theorem enter (noStar : p.NoStar) (parent : Option Nat) (i : Nat) (n : Node) :
    (p.enter parent i n).NoStar := by
  have fresh : (StatementFacts.fresh i n parent p.state).NoStar :=
    ⟨rfl, ExtTreeSet.not_mem_empty, ExtTreeSet.not_mem_empty⟩
  unfold Progress.enter
  split
  · exact noStar.revise i fun _ held => ⟨held.dynamic, held.external, held.globalWrites⟩
  · dsimp only
    split
    · exact noStar.push fresh
    · refine noStar.push ?_
      unfold StatementFacts.dependOn
      split
      · exact fresh
      · exact ⟨fresh.dynamic, fresh.external, fresh.globalWrites⟩

/-- No function is known to assign all names. -/
theorem star_writesOf (noStar : p.NoStar) (proper : env.Proper settings) (callee : String) :
    allNames ∉ p.writesOf env callee := by
  intro member
  obtain ⟨origin, _, written⟩ := mem_writesOf.mp member
  cases origin with
  | parameter => exact ExtTreeSet.not_mem_empty written
  | entry => exact proper.writes callee written
  | statement k =>
    rw [writesFrom] at written
    cases found : p.facts[k]? with
    | none =>
      rw [found] at written
      exact ExtTreeSet.not_mem_empty written
    | some f =>
      rw [found] at written
      exact (noStar.facts f (Array.mem_of_getElem? found)).globalWrites written

/-- Evaluating tame expressions uses and binds only single names. -/
theorem clear_evaluation (noStar : p.NoStar) (proper : env.Proper settings)
    (star : allNames ∉ names) (tame : ∀ e ∈ es, Tame settings names e) :
      (∀ e ∈ es, ∀ r ∈ e.reads env.isPure .bare, r.id ≠ allNames) ∧
      ∀ e ∈ es, ∀ d ∈ p.evaluationDefinitions env e, d.name ≠ allNames := by
  constructor
  · rintro e among r member same
    exact star (same ▸ (tame e among).2 r.id (Node.reads_subset member))
  · rintro e among d member same
    rcases Sane.named_evaluationDefinitions (tame e among).2 d member with own | ⟨callee, written⟩
    · exact star (same ▸ own)
    · exact noStar.star_writesOf proper callee (same ▸ written)

theorem uses (noStar : p.NoStar) (i : Nat) {us : List Use} (others : ∀ u ∈ us, u.name ≠ allNames) :
    (us.foldl (fun p u => p.use i u) p).NoStar := by
  induction us generalizing p with
  | nil => exact noStar
  | cons u rest ih =>
    obtain ⟨own, others⟩ := forall_mem_cons.mp others
    exact ih (noStar.use i own) others

theorem defineAll (noStar : p.NoStar) (i : Nat) {ds : List Definition}
    (others : ∀ d ∈ ds, d.name ≠ allNames) : (p.defineAll i ds).NoStar := by
  induction ds generalizing p with
  | nil => exact noStar
  | cons d rest ih =>
    obtain ⟨own, others⟩ := forall_mem_cons.mp others
    exact ih (noStar.define i own) others

/-- Clear actions keep an analysis noStar. -/
theorem act (noStar : p.NoStar) (proper : env.Proper settings) (star : allNames ∉ names)
    {a : Action} (clear : a.Clear settings names) : (p.act env i a).NoStar := by
  cases a with
  | evaluate es =>
    obtain ⟨reads, definitions⟩ := noStar.clear_evaluation proper star clear
    have known : ∀ e ∈ es, e.runsUnknown env.settings = false := by
      rw [proper.settings]
      exact fun e among => (clear e among).1
    rw [Progress.act, evaluate_eq_acts env i known noStar.pending, evaluationActions, acts_append,
      acts_uses, acts_defines]
    refine (noStar.uses i fun u member => ?_).defineAll i fun d member => ?_
    · obtain ⟨e, among, member⟩ := mem_flatMap.mp member
      obtain ⟨r, read, rfl⟩ := mem_map.mp member
      exact reads e among r read
    · obtain ⟨e, among, member⟩ := mem_flatMap.mp member
      exact definitions e among d member
  | define d => exact noStar.define i fun same => star (same ▸ clear)
  | use u => exact noStar.use i clear
  | close free writes =>
    refine noStar.revise i fun f held => ⟨held.dynamic, held.external, fun member => ?_⟩
    rcases ExtTreeSet.mem_union_iff.mp member with member | member
    · exact held.globalWrites member
    · exact star (clear _ member)
  | «break» =>
    refine { noStar with breaks := ?_ }
    exact forall_mem_append.mpr ⟨noStar.breaks, forall_mem_singleton.mpr noStar.state⟩
  | «continue» =>
    refine { noStar with continues := ?_ }
    exact forall_mem_append.mpr ⟨noStar.continues, forall_mem_singleton.mpr noStar.state⟩

theorem acts (noStar : p.NoStar) (proper : env.Proper settings) (star : allNames ∉ names)
    {actions : List Action} (clear : ∀ a ∈ actions, a.Clear settings names) :
    (p.acts env i actions).NoStar := by
  induction actions generalizing p with
  | nil => exact noStar
  | cons a rest ih =>
    obtain ⟨own, others⟩ := forall_mem_cons.mp clear
    exact ih (noStar.act proper star own) others

/-- In a noStar analysis nothing is left to be done when a statement is left. -/
theorem leave (noStar : p.NoStar) (i : Nat) (n : Node) (entry : State) : p.leave i n entry = p := by
  unfold Progress.leave
  refine if_neg ?_
  cases found : p.facts[i]? with
  | none => exact Bool.false_ne_true
  | some f =>
    rw [Option.map_some, Option.getD_some, (noStar.facts f (Array.mem_of_getElem? found)).dynamic]
    exact Bool.false_ne_true

theorem restore (noStar : q.NoStar) (around : p.NoStar) (i : Nat) {head : State}
    (plain : head.Plain) : (settledAt p i head q).NoStar := by
  refine { noStar with state := plain, heads := ?_, breaks := around.breaks, continues :=
    around.continues }
  intro k s found
  rw [settledAt, ExtTreeMap.getElem?_insert] at found
  split at found
  · exact Option.some.inj found ▸ plain
  · exact noStar.heads k s found

end NoStar

end Progress

end Lineage.Flow
