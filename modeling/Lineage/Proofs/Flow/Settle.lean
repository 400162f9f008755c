import Lineage.Proofs.Flow.Binding
import Lineage.Proofs.Flow.Place

/-!
Loops settle. All states that the analysis of a block comes across give origins only to the names of
the block, and only origins among its statements, so a state is a selection from a finite list of
slots, one for each name and origin. The head of a loop fills at least one more slot in every pass
but the last, and the passes that a loop may take are more than there are slots.
-/

namespace Lineage.Flow

open List Std

variable {a : Action} {d : Definition} {env : Env} {code : List Node} {loc : Location}
  {names : NameSet} {i : Nat} {e n : Node} {p : Progress} {s : State} {name : String} {α : Type}

/-- What the states of a block range over: the names that may get a value in it, those of them that
are parameters, and the number of its statements. -/
structure Scope where
  names : NameSet
  params : NameSet
  bound : Nat

namespace State

/-- A state in a scope. It gives origins only to the names of the scope and only origins from the
scope, and every name that it holds has got a value. -/
structure Within (scope : Scope) (s : State) : Prop where
  outside : ∀ name, name ∉ scope.names → s.reaching name = untouched
  statements : ∀ name k, .statement k ∈ s.reaching name → k < scope.bound
  parameters : ∀ name, .parameter ∈ s.reaching name → name ∈ scope.params
  grounded : ∀ name, name ∈ s → ∃ origin ∈ s.reaching name, origin ≠ .entry

variable {scope : Scope}

theorem within_empty (scope : Scope) : Within scope ∅ where
  outside name _ := reaching_empty name
  statements name k member := by
    rw [reaching_empty, mem_untouched] at member
    exact nomatch member
  parameters name member := by
    rw [reaching_empty, mem_untouched] at member
    exact nomatch member
  grounded name member := absurd member ExtTreeMap.not_mem_empty

theorem Within.merge {a b : State} (left : a.Within scope) (right : b.Within scope) :
    (a.merge b).Within scope where
  outside name foreign := by
    rw [reaching_merge, left.outside name foreign, right.outside name foreign]
    ext origin
    rw [ExtTreeSet.mem_union_iff, or_self]
  statements name k member := by
    rcases mem_reaching_merge.mp member with member | member
    · exact left.statements name k member
    · exact right.statements name k member
  parameters name member := by
    rcases mem_reaching_merge.mp member with member | member
    · exact left.parameters name member
    · exact right.parameters name member
  grounded name member := by
    rcases mem_merge.mp member with member | member
    · obtain ⟨origin, reaches, other⟩ := left.grounded name member
      exact ⟨origin, mem_reaching_merge.mpr (Or.inl reaches), other⟩
    · obtain ⟨origin, reaches, other⟩ := right.grounded name member
      exact ⟨origin, mem_reaching_merge.mpr (Or.inr reaches), other⟩

theorem Within.define (within : s.Within scope) (below : i < scope.bound)
    (known : d.name ∈ scope.names) :
    (s.define i d).Within scope where
  outside name foreign := by
    rw [reaching_define, if_neg]
    · exact within.outside name foreign
    · rintro rfl
      exact foreign known
  statements name k member := by
    rcases mem_reaching_define.mp member with ⟨_, same⟩ | ⟨_, member⟩
    · obtain rfl := Origin.statement.inj same
      exact below
    · exact within.statements name k member
  parameters name member := by
    rcases mem_reaching_define.mp member with ⟨_, other⟩ | ⟨_, member⟩
    · exact nomatch other
    · exact within.parameters name member
  grounded name member := by
    by_cases same : d.name = name
    · exact ⟨.statement i, mem_reaching_define.mpr (Or.inl ⟨same, rfl⟩), nofun⟩
    · obtain ⟨origin, reaches, other⟩ :=
        within.grounded name ((mem_define.mp member).resolve_left same)
      exact ⟨origin, mem_reaching_define.mpr (Or.inr ⟨fun both => same both.1, reaches⟩), other⟩

/-- Every pair of a name and an origin. -/
def slots (scope : Scope) : List (String × Origin) :=
  scope.names.toList.flatMap fun name =>
    (.parameter :: .entry :: (List.range scope.bound).map Origin.statement).map
      fun origin => (name, origin)

theorem length_slots (scope : Scope) :
    (slots scope).length = scope.names.size * (scope.bound + 2) := by
  unfold slots
  rw [← ExtTreeSet.length_toList]
  induction scope.names.toList with
  | nil => simp
  | cons name rest ih =>
    rw [flatMap_cons, length_append, ih]
    simp only [length_map, length_cons, length_range]
    rw [Nat.succ_mul, Nat.add_comm]

/-- How many slots a state fills. -/
def rank (scope : Scope) (s : State) : Nat :=
  (slots scope).countP fun slot => (s.reaching slot.1).contains slot.2

theorem rank_le (scope : Scope) (s : State) :
    s.rank scope ≤ scope.names.size * (scope.bound + 2) := by
  rw [← length_slots]
  exact countP_le_length

theorem mem_slots (within : s.Within scope) {origin : Origin} (known : name ∈ scope.names)
    (reaches : origin ∈ s.reaching name) : (name, origin) ∈ slots scope := by
  refine mem_flatMap.mpr ⟨name, ExtTreeSet.mem_toList.mpr known, mem_map.mpr ⟨origin, ?_, rfl⟩⟩
  cases origin with
  | parameter => exact mem_cons_self ..
  | entry => exact mem_cons_of_mem _ (mem_cons_self ..)
  | statement k =>
    refine mem_cons_of_mem _ (mem_cons_of_mem _ (mem_map_of_mem ?_))
    exact mem_range.mpr (within.statements name k reaches)

theorem countP_lt_countP {p q : α → Bool} {xs : List α} (imp : ∀ x ∈ xs, p x = true → q x = true)
    {x : α} (member : x ∈ xs) (not : p x = false) (now : q x = true) :
    xs.countP p < xs.countP q := by
  induction xs with
  | nil => exact absurd member not_mem_nil
  | cons y rest ih =>
    obtain ⟨own, others⟩ := forall_mem_cons.mp imp
    rw [countP_cons, countP_cons]
    rcases mem_cons.mp member with rfl | member
    · have less : rest.countP p ≤ rest.countP q := countP_mono_left others
      rw [not, now]
      simp only [Bool.false_eq_true, if_false, if_true]
      omega
    · have less := ih others member
      by_cases held : p y = true
      · rw [if_pos held, if_pos (own held)]
        omega
      · rw [if_neg held]
        omega

/-- A state above another that is not the same fills more slots. -/
theorem rank_lt {t : State} (below : s.Below t) (withinS : s.Within scope)
    (withinT : t.Within scope) (other : t.same s = false) : s.rank scope < t.rank scope := by
  have differ : ¬ ∀ name, t.reaching name = s.reaching name := by
    rw [← same_iff, other]
    exact Bool.false_ne_true
  obtain ⟨name, apart⟩ := Classical.not_forall.mp differ
  -- The name is a known one, and some origin of it is new.
  have known : name ∈ scope.names := by
    refine Classical.byContradiction fun foreign => apart ?_
    rw [withinT.outside name foreign, withinS.outside name foreign]
  obtain ⟨origin, reaches, new⟩ : ∃ origin, origin ∈ t.reaching name ∧
      origin ∉ s.reaching name := by
    refine Classical.byContradiction fun none => apart ?_
    ext origin
    constructor
    · intro reaches
      exact Classical.byContradiction fun new => none ⟨origin, reaches, new⟩
    · exact below name origin
  refine countP_lt_countP (x := (name, origin)) ?_ (mem_slots withinT known reaches) ?_ ?_
  · rintro ⟨name, origin⟩ _ held
    exact ExtTreeSet.contains_iff_mem.mpr (below name origin (ExtTreeSet.contains_iff_mem.mp held))
  · exact Bool.eq_false_iff.mpr fun held => new (ExtTreeSet.contains_iff_mem.mp held)
  · exact ExtTreeSet.contains_iff_mem.mpr reaches

end State

namespace StatementFacts

/-- The second facts have the same entry as the first and know of the same assignments outside. -/
structure Alike (f g : StatementFacts) : Prop where
  entry : g.entry = f.entry
  globalWrites : g.globalWrites = f.globalWrites

theorem Alike.refl (f : StatementFacts) : Alike f f := ⟨rfl, rfl⟩

theorem Alike.trans {f g h : StatementFacts} (first : Alike f g) (second : Alike g h) : Alike f h :=
  ⟨second.entry.trans first.entry, second.globalWrites.trans first.globalWrites⟩

theorem alike_dependOn (f : StatementFacts) (kind : EdgeKind) (source : StatementFacts)
    (name : Option String) : Alike f (f.dependOn kind source name) := by
  unfold dependOn
  split <;> exact ⟨rfl, rfl⟩

theorem alike_useOrigin (all : Array StatementFacts) (name : String) (f : StatementFacts)
    (origin : Origin) : Alike f (f.useOrigin all name origin) := by
  cases origin with
  | parameter => exact .refl f
  | entry => exact ⟨rfl, rfl⟩
  | statement k =>
    rw [useOrigin]
    split
    · exact .refl f
    · exact alike_dependOn _ _ _ _

theorem alike_foldl {step : StatementFacts → α → StatementFacts}
    (alike : ∀ (f : StatementFacts) (x : α), Alike f (step f x)) (xs : List α)
    (f : StatementFacts) : Alike f (xs.foldl step f) := by
  induction xs generalizing f with
  | nil => exact .refl f
  | cons x rest ih => exact (alike f x).trans (ih (step f x))

theorem alike_useEverything (all : Array StatementFacts) (s : State) (f : StatementFacts) :
    Alike f (f.useEverything all s) := by
  have each : ∀ (g : StatementFacts) (held : String × Origins), Alike g (held.2.toList.foldl
      (fun g origin => if origin = .entry then g else g.useOrigin all held.1 origin) g) := by
    intro g held
    refine alike_foldl (fun g origin => ?_) _ g
    split
    · exact .refl g
    · exact alike_useOrigin _ _ _ _
  have used := alike_foldl each s.toList
      { f with uses := addNew f.uses ⟨allNames, allNames, .everything, f.location⟩ }
  exact ⟨used.entry, used.globalWrites⟩

theorem alike_use (all : Array StatementFacts) (s : State) (f : StatementFacts) (u : Use) :
    Alike f (f.use all s u) := by
  unfold use
  split
  · exact alike_useEverything all s f
  · have used := alike_foldl (fun f origin => alike_useOrigin all u.name f origin)
      (origins s u.name).toList { f with uses := addNew f.uses u }
    exact ⟨used.entry, used.globalWrites⟩

end StatementFacts

/-- All names that stand in a tree are among the names. -/
def NamedIn (names : NameSet) (n : Node) : Prop :=
  ∀ name ∈ n.identifiers, name ∈ names

theorem NamedIn.below {m : Node} (named : NamedIn names n) (below : m ∈ n.nodes) :
    NamedIn names m :=
  fun name member => named name (Node.identifiers_subset below member)

/-- All names that an action comes across are among the names. -/
def Action.NamedIn (names : NameSet) : Action → Prop
  | .evaluate es => ∀ e ∈ es, Flow.NamedIn names e
  | .define d => d.name ∈ names
  | .close _ writes => ∀ name ∈ writes, name ∈ names
  | _ => True

/-- What a statement does comes across names that stand in it, or all names. -/
theorem Action.Done.namedIn (done : a.Done env n) (named : Flow.NamedIn names n)
    (star : allNames ∈ names) (below : a.parts ⊆ n.nodes) : a.NamedIn names := by
  cases a with
  | evaluate es => exact fun e member => named.below (below member)
  | define d =>
    rcases done with own | ⟨_, all⟩
    · exact named d.name own
    · exact (all ▸ star : d.name ∈ names)
  | close free writes => exact fun name written => named name (done.2 name written)
  | _ => trivial

theorem NamedIn.flatActions (named : NamedIn names n) (star : allNames ∈ names) (env : Env) :
    ∀ a ∈ flatActions env n, a.NamedIn names := by
  intro a member
  refine (done_flatActions env n a member).namedIn named star
    fun e part => Node.evaluatedParts_subset n ?_
  rw [← parts_flatActions env n]
  exact mem_flatMap.mpr ⟨a, member, part⟩

/-- The names cover what a statement may bind without naming it. -/
structure Env.Known (names : NameSet) (env : Env) : Prop where
  star : allNames ∈ names
  written : ∀ callee name, name ∈ env.writes.getD callee ∅ → name ∈ names

/-- Names that are gathered step by step. -/
theorem mem_foldl_names {step : NameSet → α → NameSet} (adds : α → Prop)
    (each : ∀ names x, name ∈ step names x ↔ name ∈ names ∨ adds x) (xs : List α)
    (names : NameSet) : name ∈ xs.foldl step names ↔ name ∈ names ∨ ∃ x ∈ xs, adds x := by
  induction xs generalizing names with
  | nil => simp
  | cons x rest ih =>
    rw [foldl_cons, ih, each, or_assoc]
    simp only [mem_cons, exists_eq_or_imp]

/-- Calling what a name holds assigns what calling it assigns wherever it may come from. -/
theorem Progress.mem_writesOf {callee : String} :
    name ∈ p.writesOf env callee ↔ ∃ origin ∈ p.state.reaching callee, name ∈ p.writesFrom env
    callee origin := by
  rw [writesOf, mem_foldl_names (fun origin => name ∈ p.writesFrom env callee origin)
    (fun _ _ => ExtTreeSet.mem_union_iff), or_iff_right ExtTreeSet.not_mem_empty]
  simp only [ExtTreeSet.mem_toList]

/-- An analysis under way that has come across no other names, and no statements at a bound or
beyond it. -/
structure Progress.Sane (scope : Scope) (p : Progress) : Prop where
  state : p.state.Within scope
  heads : ∀ (k : Nat) (s : State), p.heads[k]? = some s → s.Within scope
  breaks : ∀ s ∈ p.breaks, s.Within scope
  continues : ∀ s ∈ p.continues, s.Within scope
  entries : ∀ f ∈ p.facts, f.entry.Within scope
  written : ∀ f ∈ p.facts, ∀ name ∈ f.globalWrites, name ∈ scope.names
  pending : ∀ d ∈ p.pending, d.name ∈ scope.names

namespace Progress.Sane

variable {scope : Scope} {i : Nat} {p : Progress} {env : Env}

theorem start (within : s.Within scope) : Sane scope (.start s) where
  state := within
  heads k s found := by simp [Progress.start] at found
  breaks := forall_mem_nil _
  continues := forall_mem_nil _
  entries f member := by simp [Progress.start] at member
  written f member := by simp [Progress.start] at member
  pending := forall_mem_nil _

section

variable (sane : p.Sane scope)

include sane

theorem resume (within : s.Within scope) : (p.resume s).Sane scope :=
  { sane with state := within }

theorem revise (i : Nat) {change : StatementFacts → StatementFacts}
    (reached : ∀ f : StatementFacts, f.entry.Within scope → (change f).entry.Within scope)
    (keeps : ∀ f : StatementFacts, ∀ name ∈ (change f).globalWrites, name ∈ f.globalWrites ∨
    name ∈ scope.names) : (p.revise i change).Sane scope := by
  have each : ∀ f ∈ (p.revise i change).facts, ∃ g ∈ p.facts, f = g ∨ f = change g := by
    intro f member
    obtain ⟨k, inside, rfl⟩ := Array.mem_iff_getElem.mp member
    simp only [Progress.revise, Array.size_modify] at inside
    simp only [Progress.revise, Array.getElem_modify]
    refine ⟨p.facts[k], Array.getElem_mem _, ?_⟩
    split
    · exact Or.inr rfl
    · exact Or.inl rfl
  refine { sane with entries := ?_, written := ?_ }
  · intro f member
    obtain ⟨g, among, rfl | rfl⟩ := each f member
    · exact sane.entries _ among
    · exact reached g (sane.entries g among)
  · intro f member name written
    obtain ⟨g, among, rfl | rfl⟩ := each f member
    · exact sane.written _ among name written
    · exact (keeps g name written).elim (sane.written g among name) id

/-- A revision that leaves the entry and the assignments outside alone. -/
theorem alike (i : Nat) {change : StatementFacts → StatementFacts}
    (alike : ∀ f : StatementFacts, f.Alike (change f)) : (p.revise i change).Sane scope := by
  refine sane.revise i (fun f within => ?_) fun f name written => Or.inl ?_
  · rwa [(alike f).entry]
  · rwa [(alike f).globalWrites] at written

theorem define (below : i < scope.bound) (known : d.name ∈ scope.names) :
    (p.define i d).Sane scope := by
  have revised : (p.revise i fun f => f.define d).Sane scope :=
    sane.alike i fun _ => ⟨rfl, rfl⟩
  exact { revised with state := sane.state.define below known }

theorem defineAll (below : i < scope.bound) {ds : List Definition}
    (known : ∀ d ∈ ds, d.name ∈ scope.names) : (p.defineAll i ds).Sane scope := by
  induction ds generalizing p with
  | nil => exact sane
  | cons d rest ih =>
    obtain ⟨own, others⟩ := forall_mem_cons.mp known
    exact ih (sane.define below own) others

theorem use (u : Use) : (p.use i u).Sane scope :=
  sane.alike i fun f => f.alike_use p.facts p.state u

theorem uses (us : List Use) :
    (us.foldl (fun p u => p.use i u) p).Sane scope := by
  induction us generalizing p with
  | nil => exact sane
  | cons u rest ih => exact ih (sane.use u)

theorem flush (below : i < scope.bound) : (p.flush i).Sane scope := by
  have emptied : Sane scope { p with pending := [] } := { sane with pending := forall_mem_nil _ }
  exact emptied.defineAll below sane.pending

theorem written_writesOf (known : env.Known scope.names) {callee : String}
    (member : name ∈ p.writesOf env callee) : name ∈ scope.names := by
  obtain ⟨origin, _, written⟩ := mem_writesOf.mp member
  cases origin with
  | parameter => exact absurd written ExtTreeSet.not_mem_empty
  | entry => exact known.written callee name written
  | statement k =>
    rw [writesFrom] at written
    cases found : p.facts[k]? with
    | none =>
      rw [found] at written
      exact absurd written ExtTreeSet.not_mem_empty
    | some f =>
      rw [found] at written
      exact sane.written f (Array.mem_of_getElem? found) name written

end

theorem named_mutationOf (named : NamedIn names e) (found : mutationOf loc e = some d) :
    d.name ∈ names := by
  obtain ⟨root, rootFound, rfl⟩ := Option.map_eq_some_iff.mp found
  exact named root (Node.rootName_mem_identifiers rootFound)

/-- What a call may change has a name from the tree, or one that a function is known to assign. -/
theorem named_callDefinitions (named : NamedIn names e) :
    ∀ d ∈ p.callDefinitions env e, d.name ∈ names ∨ ∃ callee, d.name ∈ p.writesOf env callee := by
  cases e
  case call loc func args keywords =>
    intro d member
    rcases mem_append.mp member with member | member
    · obtain ⟨name, among, rfl⟩ := mem_map.mp member
      cases func
      case name loc callee _ => exact Or.inr ⟨callee, ExtTreeSet.mem_toList.mp among⟩
      all_goals exact absurd among not_mem_nil
    · split at member
      · exact absurd member not_mem_nil
      · obtain ⟨arg, among, found⟩ := mem_filterMap.mp member
        refine Or.inl (named_mutationOf (named.below ?_) found)
        simp only [mem_append] at among
        rcases among with (receiver | arg) | keyword
        · have callee : func ∈ (Node.call loc func args keywords).nodes :=
            Node.children_subset _ (mem_append_left _ (mem_cons_self ..))
          refine Node.nodes_subset callee (Node.children_subset func ?_)
          cases func
          case member => exact receiver
          all_goals exact absurd receiver not_mem_nil
        · exact Node.children_subset _ (mem_append_left _ (mem_cons_of_mem _ arg))
        · exact Node.children_subset _ (mem_append_right _ keyword)
  all_goals exact forall_mem_nil _

/-- What evaluating an expression binds has a name from the tree, or one that a function is known to
assign. -/
theorem named_evaluationDefinitions (named : NamedIn names e) :
    ∀ d ∈ p.evaluationDefinitions env e, d.name ∈ names ∨
    ∃ callee, d.name ∈ p.writesOf env callee := by
  intro d member
  rcases mem_append.mp member with member | member
  · obtain ⟨m, evaluated, member⟩ := mem_flatMap.mp member
    exact named_callDefinitions (named.below (Node.walk_subset _ e evaluated)) d member
  · obtain ⟨o, among, rfl⟩ := mem_map.mp member
    exact Or.inl (named o.id (Node.walruses_subset e (mem_map_of_mem among)))

section

variable (sane : p.Sane scope)

include sane

theorem read (known : env.Known scope.names) (named : NamedIn scope.names e) :
    (p.read env i e).Sane scope := by
  unfold Progress.read
  have flagged : (if e.evaluated.any env.settings.runsUnknown then
      p.revise i fun f => { f with dynamic := true } else p).Sane scope := by
    split
    · exact sane.alike i fun _ => ⟨rfl, rfl⟩
    · exact sane
  have used := flagged.uses (i := i) ((e.reads env.isPure .bare).map useOfRead)
  refine { used with pending := ?_ }
  intro d member
  rcases mem_append.mp member with member | member
  · exact used.pending d member
  · rcases named_evaluationDefinitions named d member with own | ⟨callee, written⟩
    · exact own
    · exact sane.written_writesOf known written

theorem readAll (known : env.Known scope.names) {es : List Node}
    (named : ∀ e ∈ es, NamedIn scope.names e) : (p.readAll env i es).Sane scope := by
  induction es generalizing p with
  | nil => exact sane
  | cons e rest ih =>
    obtain ⟨own, others⟩ := forall_mem_cons.mp named
    exact ih (sane.read known own) others

theorem evaluate (known : env.Known scope.names) (below : i < scope.bound) {es : List Node}
    (named : ∀ e ∈ es, NamedIn scope.names e) : (p.evaluate env i es).Sane scope :=
  (sane.readAll known named).flush below

theorem act (known : env.Known scope.names) (below : i < scope.bound)
    (named : a.NamedIn scope.names) : (p.act env i a).Sane scope := by
  cases a with
  | evaluate es => exact sane.evaluate known below named
  | define d => exact sane.define below named
  | use u => exact sane.use u
  | close free writes =>
    refine sane.revise i (fun _ within => within) fun f name written => ?_
    exact (ExtTreeSet.mem_union_iff.mp written).imp id (named name)
  | «break» =>
    exact { sane with breaks := forall_mem_append.mpr ⟨sane.breaks,
        forall_mem_singleton.mpr sane.state⟩ }
  | «continue» =>
    exact { sane with continues := forall_mem_append.mpr ⟨sane.continues,
        forall_mem_singleton.mpr sane.state⟩ }

theorem acts (known : env.Known scope.names) (below : i < scope.bound) {actions : List Action}
    (named : ∀ a ∈ actions, a.NamedIn scope.names) : (p.acts env i actions).Sane scope := by
  induction actions generalizing p with
  | nil => exact sane
  | cons a rest ih =>
    obtain ⟨own, others⟩ := forall_mem_cons.mp named
    exact ih (sane.act known below own) others

theorem push {f : StatementFacts} (reached : f.entry.Within scope)
    (written : ∀ name ∈ f.globalWrites, name ∈ scope.names) :
    Sane scope { p with facts := p.facts.push f } := by
  refine { sane with entries := ?_, written := ?_ }
  · intro g member
    rcases Array.mem_push.mp member with member | rfl
    · exact sane.entries g member
    · exact reached
  · intro g member
    rcases Array.mem_push.mp member with member | rfl
    · exact sane.written g member
    · exact written

theorem enter (parent : Option Nat) (i : Nat) (n : Node) :
    (p.enter parent i n).Sane scope := by
  unfold Progress.enter
  split
  · exact sane.revise i (fun _ within => within.merge sane.state) fun _ _ written => Or.inl written
  · have nothing : ∀ name ∈ (StatementFacts.fresh i n parent p.state).globalWrites,
        name ∈ scope.names :=
      fun _ member => absurd member ExtTreeSet.not_mem_empty
    dsimp only
    split
    · exact sane.push sane.state nothing
    · rename_i source _
      have alike := StatementFacts.alike_dependOn (.fresh i n parent p.state) .control source none
      refine sane.push ?_ ?_
      · rw [alike.entry]
        exact sane.state
      · rw [alike.globalWrites]
        exact nothing

theorem leave (known : env.Known scope.names) (below : i < scope.bound) (n : Node)
    {entry : State} (within : entry.Within scope) : (p.leave i n entry).Sane scope := by
  unfold Progress.leave
  split
  · have used : (p.revise i fun f => f.useEverything p.facts entry).Sane scope :=
      sane.alike i fun f => f.alike_useEverything p.facts entry
    dsimp only
    split
    · exact used
    · have cleared : ((p.revise i fun f => f.useEverything p.facts entry).revise i fun f =>
          { f with definitions := [] }).Sane scope :=
        used.alike i fun _ => ⟨rfl, rfl⟩
      have back : Progress.Sane scope { (p.revise i fun f => f.useEverything p.facts entry).revise i
          fun f =>
          { f with definitions := [] } with state := entry } := { cleared with state := within }
      exact back.define below known.star
  · exact sane

theorem perform (known : env.Known scope.names) (below : i < scope.bound)
    (named : NamedIn scope.names n) : (p.perform env i n).Sane scope := by
  rcases p.perform_cases env i n with ⟨_, same⟩ | ⟨_, same⟩ <;> rw [same]
  · exact sane.alike i fun _ => ⟨rfl, rfl⟩
  · exact sane.acts known below (named.flatActions known.star env)

end

end Progress.Sane

section Visits

variable {scope : Scope} {env : Env}

theorem below_loopStart (env : Env) (i : Nat) (p : Progress) :
    p.state.Below (loopStart env i p) := by
  unfold loopStart
  cases (if env.keepHeads then p.heads[i]? else none) with
  | none => exact .refl _
  | some kept => exact State.below_merge_right kept p.state

theorem Progress.Sane.aside (sane : p.Sane scope) :
    Progress.Sane scope { p with breaks := [], continues := [] } :=
  { sane with breaks := forall_mem_nil _, continues := forall_mem_nil _ }

/-- A loop that has settled is left with its head noted and the jumps of the loop around. -/
theorem Progress.Sane.restore {q : Progress} (sane : q.Sane scope) (around : p.Sane scope) (i : Nat)
    {head : State} (within : head.Within scope) :
    Progress.Sane scope
      { q with state := head, heads := q.heads.insert i head, breaks := p.breaks, continues :=
        p.continues } := by
  refine { sane with state := within, heads := ?_, breaks := around.breaks, continues :=
    around.continues }
  intro k s found
  rw [ExtTreeMap.getElem?_insert] at found
  split at found
  · obtain rfl := Option.some.inj found
    exact within
  · exact sane.heads k s found

/-- A loop has settled on a head: the head lies above the state in which the loop began, the last
pass began from it, and it takes in what comes back from the body's end and from every
`continue`. -/
structure Settled (holds : Progress → State → Prop) (body : Progress → Progress)
    (start head : State) (q : Progress) : Prop where
  above : start.Below head
  pass : ∃ r, holds r head ∧ q = body (r.resume head)
  back : q.state.Below head
  again : ∀ s ∈ q.continues, s.Below head

/-- With more passes than there are slots left to fill, a loop settles. What `holds` stands for is
anything that a pass from a head keeps, for the head that is taken from it as well. -/
theorem settled_settle {holds : Progress → State → Prop} {body : Progress → Progress}
    (within : ∀ p s, holds p s → s.Within scope)
    (keeps : ∀ p s, holds p s → holds (body (p.resume s))
      (State.join (s :: (body (p.resume s)).state :: (body (p.resume s)).continues))) {passes : Nat}
      {head : State}
    (held : holds p head) (enough : scope.names.size * (scope.bound + 2) <
      head.rank scope + passes) :
    Settled holds body head (Progress.settle body passes head p).1
        (Progress.settle body passes head p).2 := by
  induction passes generalizing head p with
  | zero =>
    have most := head.rank_le scope
    omega
  | succ passes ih =>
    have passed := keeps p head held
    rw [Progress.settle]
    split
    · rename_i same
      have back := State.below_of_same same
      refine ⟨.refl head, ⟨p, held, rfl⟩, ?_, ?_⟩
      · exact (State.below_join (mem_cons_of_mem _ (mem_cons_self ..))).trans back
      · intro s member
        exact (State.below_join (mem_cons_of_mem _ (mem_cons_of_mem _ member))).trans back
    · rename_i other
      -- The head grows, so one slot more is filled.
      have above : head.Below (State.join (head :: (body (p.resume head)).state ::
          (body (p.resume head)).continues)) :=
        State.below_join (mem_cons_self ..)
      have more := State.rank_lt above (within p head held) (within _ _ passed)
        (Bool.eq_false_iff.mpr other)
      have rest := ih passed (by omega)
      exact ⟨above.trans rest.above, rest.pass, rest.back, rest.again⟩

end Visits

theorem code_subset_nodes (tree : Node) : tree.code ⊆ tree.nodes := by
  cases tree
  case module loc code => exact Node.children_subset (.module loc code)
  all_goals
    intro c member
    obtain rfl := List.mem_singleton.mp member
    exact Node.mem_nodes_self _

/-- The vocabulary of a block has all names, the parameters, what the statements mention and what
functions assign. -/
theorem mem_vocabulary {writes : GlobalWrites} {params : List String} :
    name ∈ vocabulary writes params code ↔ name = allNames ∨ name ∈ params ∨
      (∃ c ∈ code, name ∈ c.mentioned) ∨ ∃ callee, name ∈ writes.getD callee ∅ := by
  have written : (∃ callee, name ∈ writes.getD callee ∅) ↔
      ∃ callee names, (callee, names) ∈ writes.toList ∧ name ∈ names.toList := by
    constructor
    · rintro ⟨callee, member⟩
      rw [ExtTreeMap.getD_eq_getD_getElem?] at member
      cases found : writes[callee]? with
      | none =>
        rw [found] at member
        exact absurd member ExtTreeSet.not_mem_empty
      | some names =>
        rw [found] at member
        refine ⟨callee, names, ?_, ExtTreeSet.mem_toList.mpr member⟩
        exact ExtTreeMap.mem_toList_iff_getElem?_eq_some.mpr found
    · rintro ⟨callee, names, listed, among⟩
      refine ⟨callee, ?_⟩
      rw [ExtTreeMap.getD_eq_getD_getElem?, ExtTreeMap.mem_toList_iff_getElem?_eq_some.mp listed]
      exact ExtTreeSet.mem_toList.mp among
  rw [vocabulary, ExtTreeSet.mem_ofList, contains_iff_mem, written]
  simp only [mem_append, mem_cons, mem_flatMap, Prod.exists, or_assoc]

theorem passLimit_pos (writes : GlobalWrites) (params : List String) (code : List Node) :
    0 < passLimit writes params code :=
  Nat.succ_pos _

/-- What the analysis of a module is given. -/
def Env.ofModule (settings : Settings) (writes : GlobalWrites) (code : List Node) : Env :=
  ⟨settings, writes, passLimit writes [] code, true⟩

/-- The vocabulary of a block covers what the statements in it may bind. -/
theorem known_vocabulary (writes : GlobalWrites) (params : List String) (code : List Node)
    (same : env.writes = writes) : env.Known (vocabulary writes params code) where
  star := mem_vocabulary.mpr (Or.inl rfl)
  written callee _ member := mem_vocabulary.mpr (Or.inr (Or.inr (Or.inr ⟨callee, same ▸ member⟩)))

theorem namedIn_vocabulary (writes : GlobalWrites) (params : List String) {c : Node}
    (member : c ∈ code) : NamedIn (vocabulary writes params code) c := by
  intro name own
  exact mem_vocabulary.mpr
    (Or.inr (Or.inr (Or.inl ⟨c, member, Node.identifiers_subset_mentioned c own⟩)))

end Lineage.Flow
