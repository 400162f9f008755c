import Lineage.Proofs.Flow.Settle

/-!
What a statement does by itself draws on the state it starts from. The states it leaves behind have
no other origins than that state and the statement itself, and the edges it gets come from what the
state offers. It records nothing about what reaches any statement. This is said of every operation
at an index, up to the whole of what a statement without blocks does.
-/

namespace Lineage.Flow

open List Std

variable {s t : State} {i : Nat}

namespace State

/-- The second state has no origins but those of the first and the statement with the index. -/
def Supplies (i : Nat) (s t : State) : Prop :=
  ∀ name origin, origin ∈ t.reaching name → origin ∈ s.reaching name ∨ origin = .statement i

theorem supplies_of_below (below : t.Below s) : s.Supplies i t :=
  fun name origin reaches => Or.inl (below name origin reaches)

theorem Supplies.define (supplies : s.Supplies i t) (d : Definition) :
    s.Supplies i (t.define i d) := by
  intro name origin reaches
  rcases mem_reaching_define.mp reaches with ⟨_, own⟩ | ⟨_, before⟩
  · exact Or.inr own
  · exact supplies name origin before

end State

/-- The edge is one that a state offers a statement with an index: it comes from another statement,
which reaches the name that is read, or may have bound any name. -/
def Edge.Offered (edge : Edge) (index : Nat) (all : Array StatementFacts) (s : State) : Prop :=
  ∃ name k source, edge.kind = .data ∧ edge.name = some name ∧ source.index ≠ index ∧
    all[k]? = some source ∧ edge.source = source.location ∧
    (.statement k ∈ s.reaching name ∨ .statement k ∈ s.reaching allNames)

namespace StatementFacts

/-- The second facts are of the same statement as the first, and what they have more of edges the
state offers. -/
structure Gets (all : Array StatementFacts) (s : State) (f g : StatementFacts) : Prop where
  index : g.index = f.index
  inbound : ∀ edge ∈ g.inbound, edge ∈ f.inbound ∨ edge.Offered f.index all s

namespace Gets

variable {all : Array StatementFacts} {s : State} {f g h : StatementFacts}

theorem refl (all : Array StatementFacts) (s : State) (f : StatementFacts) : Gets all s f f :=
  ⟨rfl, fun _ member => Or.inl member⟩

theorem trans (first : Gets all s f g) (second : Gets all s g h) : Gets all s f h where
  index := second.index.trans first.index
  inbound edge member := by
    rcases second.inbound edge member with member | offered
    · exact first.inbound edge member
    · rw [first.index] at offered
      exact Or.inr offered

theorem foldl {α : Type} {step : StatementFacts → α → StatementFacts} {xs : List α}
    (gets : ∀ x ∈ xs, ∀ f, Gets all s f (step f x)) (f : StatementFacts) :
    Gets all s f (xs.foldl step f) := by
  induction xs generalizing f with
  | nil => exact refl all s f
  | cons x rest ih =>
    obtain ⟨own, others⟩ := forall_mem_cons.mp gets
    exact (own f).trans (ih others (step f x))

/-- A statement gets no edges from itself, so what a state supplies offers no more than the
state. -/
theorem of_supplies (gets : Gets all t f g) (own : all[i]? = some f) (supplies : s.Supplies i t) :
    Gets all s f g := by
  refine ⟨gets.index, fun edge member => ?_⟩
  rcases gets.inbound edge member with member | ⟨name, k, source, kind, named, other, found, place,
    reaches⟩
  · exact Or.inl member
  · have apart : Origin.statement k ≠ .statement i := by
      intro same
      rw [Origin.statement.inj same, own] at found
      exact other (congrArg StatementFacts.index (Option.some.inj found).symm)
    refine Or.inr ⟨name, k, source, kind, named, other, found, place, ?_⟩
    exact reaches.imp (fun h => (supplies _ _ h).resolve_right apart)
      fun h => (supplies _ _ h).resolve_right apart

end Gets

theorem eq_or_mem_of_mem_addNew {α : Type} [DecidableEq α] {xs : List α} {x y : α}
    (member : y ∈ addNew xs x) : y = x ∨ y ∈ xs := by
  unfold addNew at member
  split at member
  · exact Or.inr member
  · rcases mem_append.mp member with member | member
    · exact Or.inr member
    · exact Or.inl (List.mem_singleton.mp member)

theorem gets_useOrigin {all : Array StatementFacts} {name : String} {origin : Origin}
    (reaches : origin ∈ s.reaching name ∨ origin ∈ s.reaching allNames) (f : StatementFacts) :
    Gets all s f (f.useOrigin all name origin) := by
  cases origin with
  | parameter => exact .refl all s f
  | entry => exact ⟨rfl, fun _ member => Or.inl member⟩
  | statement k =>
    rw [useOrigin]
    split
    · exact .refl all s f
    · rename_i source found
      unfold dependOn
      split
      · exact .refl all s f
      · rename_i other
        refine ⟨rfl, fun edge member => ?_⟩
        rcases eq_or_mem_of_mem_addNew member with rfl | member
        · exact Or.inr ⟨name, k, source, rfl, rfl, other, found, rfl, reaches⟩
        · exact Or.inl member

theorem mem_origins {name : String} {origin : Origin} (member : origin ∈ origins s name) :
    origin ∈ s.reaching name ∨ origin ∈ s.reaching allNames := by
  unfold origins at member
  split at member
  · exact Or.inl member
  · rename_i anything found
    rcases ExtTreeSet.mem_union_iff.mp member with member | member
    · exact Or.inl member
    · refine Or.inr ?_
      rw [State.reaching_eq_getD, found]
      exact ExtTreeSet.mem_of_mem_erase member

theorem gets_useEverything (all : Array StatementFacts) (s : State) (f : StatementFacts) :
    Gets all s f (f.useEverything all s) := by
  have used :
      ∀ g, Gets all s g (s.toList.foldl (fun f (held : String × Origins) => held.2.toList.foldl
        (fun f origin => if origin = .entry then f else f.useOrigin all held.1 origin) f) g) := by
    refine Gets.foldl fun held listed f => Gets.foldl (fun origin among f => ?_) f
    split
    · exact .refl all s f
    · refine gets_useOrigin (Or.inl ?_) f
      have found : s[held.1]? = some held.2 := ExtTreeMap.mem_toList_iff_getElem?_eq_some.mp listed
      rw [State.reaching_eq_getD, found]
      exact ExtTreeSet.mem_toList.mp among
  have all := used { f with uses := addNew f.uses ⟨allNames, allNames, .everything, f.location⟩ }
  exact ⟨all.index, all.inbound⟩

theorem gets_use (all : Array StatementFacts) (s : State) (f : StatementFacts) (u : Use) :
    Gets all s f (f.use all s u) := by
  unfold use
  split
  · exact gets_useEverything all s f
  · have used : ∀ g, Gets all s g
        ((origins s u.name).toList.foldl (fun f origin => f.useOrigin all u.name origin) g) :=
      Gets.foldl fun origin member => gets_useOrigin (mem_origins (ExtTreeSet.mem_toList.mp member))
    have more := used { f with uses := addNew f.uses u }
    exact ⟨more.index, more.inbound⟩

end StatementFacts

namespace Progress

/-- From the first to the second a statement works by itself and draws on a state. -/
structure Draws (s : State) (i : Nat) (p q : Progress) : Prop where
  works : Works i p q
  state : s.Supplies i q.state
  heads : q.heads = p.heads
  breaks : ∀ t ∈ q.breaks, t ∈ p.breaks ∨ s.Supplies i t
  continues : ∀ t ∈ q.continues, t ∈ p.continues ∨ s.Supplies i t
  own : ∀ f g, p.facts[i]? = some f → q.facts[i]? = some g →
    g.entry = f.entry ∧ ∀ edge ∈ g.inbound, edge ∈ f.inbound ∨ edge.Offered f.index p.facts s

namespace Draws

variable {s : State} {i : Nat} {p q : Progress} {env : Env}

theorem refl (i : Nat) {p : Progress} (supplies : s.Supplies i p.state) : Draws s i p p where
  works := .refl i p
  state := supplies
  heads := rfl
  breaks _ member := Or.inl member
  continues _ member := Or.inl member
  own f g found same := by
    obtain rfl := Option.some.inj (found.symm.trans same)
    exact ⟨rfl, fun _ member => Or.inl member⟩

theorem start (i : Nat) (p : Progress) : Draws p.state i p p :=
  .refl i (State.supplies_of_below (.refl _))

section

variable (draws : Draws s i p q)

include draws

/-- A change of the statement's own facts that leaves what reaches it alone and gives it edges that
the state offers. -/
theorem revise {change : StatementFacts → StatementFacts}
    (grows : ∀ g : StatementFacts, g.Grows (change g))
    (entry : ∀ g : StatementFacts, (change g).entry = g.entry)
    (gets : ∀ g : StatementFacts, q.facts[i]? = some g → g.Gets q.facts s (change g)) :
    Draws s i p (q.revise i change) := by
  refine { draws with works := draws.works.trans (q.works_revise i grows), own := ?_ }
  intro f h found foundH
  obtain ⟨g, foundG, growsG⟩ := draws.works.own f found
  have revised : (q.revise i change).facts[i]? = some (change g) := by
    rw [Progress.revise, Array.getElem?_modify, if_pos rfl, foundG]
    rfl
  obtain rfl := Option.some.inj (revised.symm.trans foundH)
  obtain ⟨same, edges⟩ := draws.own f g found foundG
  refine ⟨(entry g).trans same, fun edge member => ?_⟩
  rcases (gets g foundG).inbound edge member with member | ⟨name, k, source, kind, named, other,
    foundK, rest⟩
  · exact edges edge member
  · by_cases own : k = i
    · rw [own, foundG] at foundK
      rw [Option.some.inj foundK] at other
      exact absurd rfl other
    · rw [growsG.index] at other
      exact Or.inr ⟨name, k, source, kind, named, other,
        (draws.works.frame k own).symm.trans foundK, rest⟩

/-- A change of the statement's own facts that has nothing to do with its edges. -/
theorem annotate {change : StatementFacts → StatementFacts}
    (grows : ∀ g : StatementFacts, g.Grows (change g))
    (entry : ∀ g : StatementFacts, (change g).entry = g.entry)
    (inbound : ∀ g : StatementFacts, (change g).inbound = g.inbound) :
    Draws s i p (q.revise i change) := by
  refine draws.revise grows entry fun g _ => ⟨(grows g).index, fun edge member => Or.inl ?_⟩
  rwa [inbound] at member

theorem resume (supplies : s.Supplies i t) : Draws s i p (q.resume t) :=
  { draws with works := draws.works.with_state t q.pending, state := supplies }

theorem await (ds : List Definition) : Draws s i p { q with pending := ds } :=
  { draws with works := draws.works.with_state q.state ds }

theorem use (u : Use) : Draws s i p (q.use i u) :=
  draws.revise (fun g => g.grows_use _ _ u) (fun g => (g.alike_use _ _ u).entry)
    fun g found => (g.gets_use q.facts q.state u).of_supplies found draws.state

theorem uses (us : List Use) : Draws s i p (us.foldl (fun q u => q.use i u) q) := by
  induction us generalizing q with
  | nil => exact draws
  | cons u rest ih => exact ih (draws.use u)

theorem define (d : Definition) : Draws s i p (q.define i d) := by
  have noted := draws.annotate (fun g => g.grows_define d) (fun _ => rfl) fun _ => rfl
  exact noted.resume (draws.state.define d)

theorem defineAll (ds : List Definition) : Draws s i p (q.defineAll i ds) := by
  induction ds generalizing q with
  | nil => exact draws
  | cons d rest ih => exact ih (draws.define d)

theorem setDynamic : Draws s i p (q.revise i fun f => { f with dynamic := true }) :=
  draws.annotate (fun _ => ⟨rfl, rfl, rfl, .refl _, fun _ h => h, fun _ => rfl, rfl⟩) (fun _ => rfl)
    fun _ => rfl

theorem flush : Draws s i p (q.flush i) :=
  (draws.await []).defineAll q.pending

theorem read (env : Env) (e : Node) : Draws s i p (q.read env i e) := by
  unfold Progress.read
  refine (uses ?_ _).await _
  split
  · exact draws.setDynamic
  · exact draws

theorem readAll (env : Env) (es : List Node) : Draws s i p (q.readAll env i es) := by
  induction es generalizing q with
  | nil => exact draws
  | cons e rest ih => exact ih (draws.read env e)

theorem evaluate (env : Env) (es : List Node) : Draws s i p (q.evaluate env i es) :=
  (draws.readAll env es).flush

theorem act (env : Env) (a : Action) : Draws s i p (q.act env i a) := by
  cases a with
  | evaluate es => exact draws.evaluate env es
  | define d => exact draws.define d
  | use u => exact draws.use u
  | close => exact draws.annotate (fun _ => ⟨rfl, rfl, rfl, .refl _, fun _ => id,
      id, rfl⟩) (fun _ => rfl) fun _ => rfl
  | «break» =>
    refine { draws with works := draws.works.trans (q.works_act env i .break), breaks := ?_ }
    exact forall_mem_append.mpr ⟨draws.breaks, forall_mem_singleton.mpr (Or.inr draws.state)⟩
  | «continue» =>
    refine { draws with works := draws.works.trans (q.works_act env i .continue), continues := ?_ }
    exact forall_mem_append.mpr ⟨draws.continues, forall_mem_singleton.mpr (Or.inr draws.state)⟩

theorem acts (env : Env) (actions : List Action) : Draws s i p (q.acts env i actions) := by
  induction actions generalizing q with
  | nil => exact draws
  | cons a rest ih => exact ih (draws.act env a)

theorem catchError (env : Env) (header : Location) (type : Option Node)
    (name : Option String) : Draws s i p (q.catchError env i header type name) :=
  (draws.evaluate env _).defineAll _

theorem perform (env : Env) (n : Node) : Draws s i p (q.perform env i n) := by
  rcases q.perform_cases env i n with ⟨_, same⟩ | ⟨_, same⟩ <;> rw [same]
  · exact draws.setDynamic
  · exact draws.acts env _

theorem leave (n : Node) {entry : State} (supplies : s.Supplies i entry) :
    Draws s i p (q.leave i n entry) := by
  unfold Progress.leave
  split
  · have used : Draws s i p (q.revise i fun f => f.useEverything q.facts entry) :=
      draws.revise (fun g => g.grows_useEverything _ _) (fun g => (g.alike_useEverything _ _).entry)
        fun g found => (g.gets_useEverything q.facts entry).of_supplies found supplies
    dsimp only
    split
    · exact used
    · have cleared : Draws s i p ((q.revise i fun f => f.useEverything q.facts entry).revise i
          fun f =>
          { f with definitions := [] }) :=
        used.annotate (fun _ => ⟨rfl, rfl, rfl, .refl _, fun _ h => h, id, rfl⟩) (fun _ => rfl)
          fun _ => rfl
      exact (cleared.resume supplies).define _
  · exact draws

end

end Draws

theorem draws_act (env : Env) (i : Nat) (p : Progress) (action : Action) :
    Draws p.state i p (p.act env i action) :=
  (Draws.start i p).act env action

end Progress

end Lineage.Flow
