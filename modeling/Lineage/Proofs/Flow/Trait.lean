import Lineage.Proofs.Flow.PlanInvariant
import Lineage.Proofs.Flow.Settle
import Lineage.Proofs.Flow.Under

/-!
What is kept all along an analysis. A trait says what is to hold of the facts found so far and of
every state that stands next to them. If it survives each of the things that plans are made of, it
survives every plan. On the way facts only rise, those of statements elsewhere stay as they are, and
jumps are only added.
-/

namespace Lineage.Flow

open List

variable {s : State} {n : Node}

namespace Progress

theorem heads_acts (env : Env) (i : Nat) (actions : List Action) (p : Progress) :
    (p.acts env i actions).heads = p.heads := by
  induction actions generalizing p with
  | nil => rfl
  | cons action rest ih => exact (ih (p.act env i action)).trans (p.draws_act env i action).heads

/-- What keeps the jumps at each step keeps them all the way. -/
theorem jumps_foldl {α : Type} {step : Progress → α → Progress}
    (same : ∀ p x, (step p x).breaks = p.breaks ∧ (step p x).continues = p.continues) (xs : List α)
    (p : Progress) : (xs.foldl step p).breaks = p.breaks ∧ (xs.foldl step p).continues =
    p.continues := by
  induction xs generalizing p with
  | nil => exact ⟨rfl, rfl⟩
  | cons x rest ih => exact ⟨(ih _).1.trans (same p x).1, (ih _).2.trans (same p x).2⟩

theorem jumps_evaluate (env : Env) (i : Nat) (es : List Node) (p : Progress) :
    (p.evaluate env i es).breaks = p.breaks ∧ (p.evaluate env i es).continues = p.continues := by
  have read : ∀ (p : Progress) (e : Node), (p.read env i e).breaks = p.breaks ∧
      (p.read env i e).continues = p.continues := by
    intro p e
    have used : ∀ q : Progress, _ := jumps_foldl (fun (q : Progress) (u : Use) => (⟨rfl, rfl⟩ :
      (q.use i u).breaks = q.breaks ∧ (q.use i u).continues = q.continues))
      ((e.reads env.isPure .bare).map useOfRead)
    unfold Progress.read
    split <;> exact used _
  have bound : ∀ q : Progress, _ := jumps_foldl
    (fun (q : Progress) (d : Definition) => (⟨rfl, rfl⟩ : (q.define i d).breaks = q.breaks ∧
      (q.define i d).continues = q.continues)) (p.readAll env i es).pending
  obtain ⟨breaks, continues⟩ := jumps_foldl read es p
  exact ⟨(bound _).1.trans breaks, (bound _).2.trans continues⟩

theorem heads_leave (i : Nat) (n : Node) (entry : State) (p : Progress) :
    (p.leave i n entry).heads = p.heads := by
  unfold leave
  split
  · dsimp only
    split <;> rfl
  · rfl

theorem breaks_leave (i : Nat) (n : Node) (entry : State) (p : Progress) :
    (p.leave i n entry).breaks = p.breaks := by
  unfold leave
  split
  · dsimp only
    split <;> rfl
  · rfl

theorem continues_leave (i : Nat) (n : Node) (entry : State) (p : Progress) :
    (p.leave i n entry).continues = p.continues := by
  unfold leave
  split
  · dsimp only
    split <;> rfl
  · rfl

end Progress

/-! ### Traits -/

/-- What is to hold of the facts found so far, and of the states next to them. -/
structure Trait where
  facts : Array StatementFacts → Prop
  state : Array StatementFacts → State → Prop

/-- An analysis under way has the trait, with nothing left to bind. -/
structure Trait.Held (t : Trait) (p : Progress) : Prop where
  settled : p.pending = []
  facts : t.facts p.facts
  state : t.state p.facts p.state
  heads : ∀ (k : Nat) (s : State), p.heads[k]? = some s → t.state p.facts s
  breaks : ∀ s ∈ p.breaks, t.state p.facts s
  continues : ∀ s ∈ p.continues, t.state p.facts s

/-- The trait survives that compound statements are entered, act at their heads and are left, and
whole visits of statements without blocks. -/
structure Trait.Steady (t : Trait) (env : Env) (good : Nat → Node → Prop) (fine : Action → Prop) :
    Prop where
  mono : ∀ {p q : Progress} {s : State}, p.Under True q → t.state p.facts s → t.state q.facts s
  merge : ∀ {facts : Array StatementFacts} {s u : State}, t.state facts s → t.state facts u →
    t.state facts (s.merge u)
  here : ∀ {facts : Array StatementFacts} {i : Nat} {n : Node} {f : StatementFacts}, t.facts facts →
    good i n → facts[i]? = some f → f.node = n
  enter : ∀ {i : Nat} {n : Node} {p : Progress} (parent : Option Nat), good i n →
    n.kind.isCompound = true → i ≤ p.facts.size → t.Held p → t.facts (p.enter parent i n).facts
  act : ∀ {i : Nat} {p : Progress} {f : StatementFacts} {action : Action}, p.facts[i]? = some f →
    f.node.kind.isCompound = true → fine action → action.parts ⊆ f.node.headParts → t.Held p →
    t.Held (p.act env i action)
  leave : ∀ {i : Nat} {p : Progress} {f : StatementFacts} {s : State}, p.facts[i]? = some f →
    f.node.kind.isCompound = true → t.Held p → t.state p.facts s →
    t.facts (p.revise i fun f => f.useEverything p.facts s).facts
  flat : ∀ {i : Nat} {n : Node} {p : Progress} (parent : Option Nat), good i n →
    n.kind.isCompound = false → i ≤ p.facts.size → t.Held p →
      t.Held (((p.enter parent i n).perform env i n).leave i n p.state) ∧
      p.Under True (((p.enter parent i n).perform env i n).leave i n p.state)

/-- The statement around, if there is one, is compound, stands in front of the index, and evaluates
the expressions. -/
def Progress.Holds (own : Option Nat) (a : Nat) (asks : List Node) (p : Progress) : Prop :=
  ∀ i, own = some i → i < a ∧ ∃ f, p.facts[i]? = some f ∧ f.node.kind.isCompound = true ∧
    asks ⊆ f.node.headParts

theorem Progress.Holds.mono {own : Option Nat} {a b : Nat} {asks parts : List Node} {p q : Progress}
    (holds : p.Holds own a asks) (under : p.Under True q) (le : a ≤ b) (part : parts ⊆ asks) :
    q.Holds own b parts := by
  intro i same
  obtain ⟨before, f, found, compound, inside⟩ := holds i same
  obtain ⟨g, foundG, above⟩ := under i f found
  refine ⟨Nat.lt_of_lt_of_le before le, g, foundG, ?_⟩
  rw [above.node]
  exact ⟨compound, fun _ member => inside (part member)⟩

/-- What analysing the statements with the indices from `a` up to `b` in the statement `own` does.
The trait is kept, only facts of these statements and of the one around change, jumps are only
added, and the statement around has been found to run unknown code if one of the expressions
does. -/
structure Leads (t : Trait) (env : Env) (own : Option Nat) (a b : Nat) (asks : List Node)
    (p q : Progress) : Prop where
  kept : t.Held q
  size : b ≤ q.facts.size
  under : p.Under True q
  frame : ∀ k < a, own ≠ some k → q.facts[k]? = p.facts[k]?
  flags : ∀ i, own = some i → Progress.Flags i (asks.any (Node.runsUnknown env.settings)) p q
  breaks : p.breaks ⊆ q.breaks
  continues : p.continues ⊆ q.continues

/-- The statements from the index `a` on may be analysed next in the statement `own`. -/
structure Trait.Ready (t : Trait) (own : Option Nat) (a : Nat) (asks : List Node) (p : Progress) :
    Prop where
  kept : t.Held p
  size : a ≤ p.facts.size
  holds : p.Holds own a asks

section

variable {t : Trait} {env : Env} {good : Nat → Node → Prop} {fine : Action → Prop}
  {own : Option Nat} {a b c i : Nat} {asks parts : List Node} {p q r : Progress}

theorem Trait.Held.resume (held : t.Held p) (next : t.state p.facts s) : t.Held (p.resume s) :=
  { held with state := next }

theorem Trait.Held.aside (held : t.Held p) : t.Held { p with breaks := [], continues := [] } :=
  { held with breaks := forall_mem_nil _, continues := forall_mem_nil _ }

namespace Leads

theorem refl (kept : t.Held p) (size : a ≤ p.facts.size) : Leads t env own a a [] p p :=
  ⟨kept, size, .refl p, fun _ _ _ => rfl, fun i _ => .refl i p, fun _ => id, fun _ => id⟩

theorem trans (first : Leads t env own a b asks p q) (second : Leads t env own b c parts q r)
    (le : a ≤ b) : Leads t env own a c (asks ++ parts) p r where
  kept := second.kept
  size := second.size
  under := first.under.trans second.under
  frame k before other := (second.frame k (Nat.lt_of_lt_of_le before le) other).trans
    (first.frame k before other)
  flags i same := by
    rw [any_append]
    exact (first.flags i same).trans (second.flags i same)
  breaks := List.Subset.trans first.breaks second.breaks
  continues := List.Subset.trans first.continues second.continues

/-- Doing the same once more, or more of it. -/
theorem again (first : Leads t env own a b asks p q) (second : Leads t env own a c asks q r) :
    Leads t env own a c asks p r where
  kept := second.kept
  size := second.size
  under := first.under.trans second.under
  frame k before other := (second.frame k before other).trans (first.frame k before other)
  flags i same := by
    have both := (first.flags i same).trans (second.flags i same)
    rwa [Bool.or_self] at both
  breaks := List.Subset.trans first.breaks second.breaks
  continues := List.Subset.trans first.continues second.continues

theorem resume (leads : Leads t env own a b asks p q) (next : t.state q.facts s) :
    Leads t env own a b asks p (q.resume s) :=
  { leads with kept := leads.kept.resume next }

/-- Where it starts from does not matter. -/
theorem of_resume (leads : Leads t env own a b asks (p.resume s) q) :
    Leads t env own a b asks p q :=
  { leads with }

/-- A statement around which nothing happens. -/
theorem enclose (first : Leads t env (some a) (a + 1) b asks p q) (own : Option Nat)
    (held : ∀ k, own = some k → k < a) : Leads t env own a b [] p q := by
  have frame : ∀ k < a, q.facts[k]? = p.facts[k]? := fun k before =>
    first.frame k (Nat.lt_succ_of_lt before) fun same => absurd (Option.some.inj same)
      (Nat.ne_of_gt before)
  refine { first with frame := fun k before _ => frame k before, flags := fun k same f found => ?_ }
  exact ⟨f, (frame k (held k same)).trans found, (Bool.or_false _).symm⟩

end Leads

namespace Trait

/-- What is kept, as an invariant of plans. -/
def invariant (t : Trait) (env : Env) : PlanInvariant := ⟨t.Ready, t.state, Leads t env⟩

namespace Ready

theorem before (ready : t.Ready own a asks p) (k : Nat) (same : own = some k) : k < a :=
    (ready.holds k same).1

theorem less (ready : t.Ready own a asks p) (part : parts ⊆ asks) : t.Ready own a parts p :=
  { ready with holds := ready.holds.mono (.refl p) (Nat.le_refl a) part }

theorem next (ready : t.Ready own a parts p) (leads : Leads t env own a b asks p q) (le : a ≤ b) :
    t.Ready own b parts q :=
  ⟨leads.kept, leads.size, ready.holds.mono leads.under le fun _ => id⟩

theorem again (ready : t.Ready own a parts p) (leads : Leads t env own a b asks p q) (le : a ≤ b) :
    t.Ready own a parts q :=
  ⟨leads.kept, Nat.le_trans le leads.size, ready.holds.mono leads.under (Nat.le_refl a) fun _ => id⟩

theorem resume (ready : t.Ready own a asks p) (next : t.state p.facts s) :
    t.Ready own a asks (p.resume s) :=
  { ready with kept := ready.kept.resume next }

theorem aside (ready : t.Ready own a asks p) :
    t.Ready own a asks { p with breaks := [], continues := [] } :=
  { ready with kept := ready.kept.aside }

end Ready

end Trait

namespace Trait.Steady

section

variable (steady : t.Steady env good fine)

include steady

/-- Facts that have risen, with the same states next to them. -/
theorem raise (held : t.Held p) (under : p.Under True q) (facts : t.facts q.facts)
    (pending : q.pending = p.pending) (state : q.state = p.state) (heads : q.heads = p.heads)
    (breaks : q.breaks = p.breaks) (continues : q.continues = p.continues) : t.Held q where
  settled := pending.trans held.settled
  facts := facts
  state := state ▸ steady.mono under held.state
  heads k s found := steady.mono under (held.heads k s (heads ▸ found))
  breaks s member := steady.mono under (held.breaks s (breaks ▸ member))
  continues s member := steady.mono under (held.continues s (continues ▸ member))

/-- A compound statement with an index is entered. -/
theorem enters (ready : t.Ready own i asks p) (parent : Option Nat) (here : good i n)
    (compound : n.kind.isCompound = true) : Leads t env own i (i + 1) [] p (p.enter parent i n) ∧
      ∀ parts : List Node, (∀ e ∈ parts, e ∈ n.headParts) → (p.enter parent i n).Holds (some i)
      (i + 1) parts := by
  have size := ready.size
  have under : p.Under True (p.enter parent i n) := Progress.under_enter parent n size
  have entered := steady.enter parent here compound size ready.kept
  refine ⟨⟨steady.raise ready.kept under entered (pending_enter ..) (state_enter ..)
    (heads_enter ..) (breaks_enter ..) (continues_enter ..), le_size_enter parent n size, under, ?_,
    ?_, ?_, ?_⟩, ?_⟩
  · exact fun k less _ => frame_enter parent n size (Nat.ne_of_lt less)
  · intro k same f found
    exact ⟨f, (frame_enter parent n size (Nat.ne_of_lt (ready.before k same))).trans found,
      (Bool.or_false _).symm⟩
  · rw [breaks_enter]
    exact fun _ => id
  · rw [continues_enter]
    exact fun _ => id
  · rintro parts inside _ ⟨⟩
    obtain ⟨f, found, _⟩ := Progress.facts_enter parent n size
    obtain rfl := steady.here entered here found
    exact ⟨Nat.lt_succ_self i, f, found, compound, inside⟩

theorem entered (ready : t.Ready own i asks p) (parent : Option Nat) (here : good i n)
    (compound : n.kind.isCompound = true) (inside : ∀ e ∈ parts, e ∈ n.headParts) :
    t.Ready (some i) (i + 1) parts (p.enter parent i n) := by
  obtain ⟨entered, holds⟩ := steady.enters ready parent here compound
  exact ⟨entered.kept, entered.size, holds _ inside⟩

/-- Something that a compound statement does at its head. -/
theorem acting {action : Action} (able : fine action)
    (ready : t.Ready (some i) a action.parts p) :
    Leads t env (some i) a a action.parts p (p.act env i action) := by
  obtain ⟨_, f, found, compound, inside⟩ := ready.holds i rfl
  have draws := p.draws_act env i action
  refine ⟨steady.act found compound able inside ready.kept, draws.works.size ▸ ready.size,
    p.under_act env i action, ?_, ?_, draws.works.breaks.subset, draws.works.continues.subset⟩
  · exact fun k _ other => draws.works.frame k fun same => other (same ▸ rfl)
  · rintro _ ⟨⟩
    exact p.flags_act env i action

/-- A compound statement may use everything when it is left. -/
theorem leaves (leads : Leads t env (some i) a b asks p q) (holds : q.Holds (some i) a [])
    (compound : n.kind.isCompound = true) {entry : State} (before : t.state q.facts entry) :
    Leads t env (some i) a b asks p (q.leave i n entry) := by
  have flags := q.flags_leave i n entry
  have left : q.leave i n entry = q ∨ q.leave i n entry = q.revise i
      fun f => f.useEverything q.facts entry := by
    unfold Progress.leave
    rw [compound, Bool.true_or]
    split
    · exact Or.inr rfl
    · exact Or.inl rfl
  rcases left with same | same
  · rw [same]
    exact leads
  · obtain ⟨_, f, found, own, _⟩ := holds i rfl
    have works := q.works_revise i fun f : StatementFacts => f.grows_useEverything q.facts entry
    have under : q.Under True (q.revise i fun f => f.useEverything q.facts entry) :=
      q.under_revise i fun f _ => (f.notes_useEverything q.facts entry).under
    rw [same] at flags ⊢
    refine ⟨steady.raise leads.kept under (steady.leave found own leads.kept before) rfl rfl rfl
      rfl rfl, works.size.symm ▸ leads.size, leads.under.trans under, fun k less other => ?_, ?_,
      leads.breaks, leads.continues⟩
    · exact (works.frame k fun same => other (same ▸ rfl)).trans (leads.frame k less other)
    · rintro _ ⟨⟩
      have both := (leads.flags i rfl).trans flags
      rwa [Bool.or_false] at both

/-- A statement without blocks. -/
theorem visits (ready : t.Ready own i asks p) (parent : Option Nat) (here : good i n)
    (simple : n.kind.isCompound = false) :
    Leads t env own i (i + 1) [] p (((p.enter parent i n).perform env i n).leave i n p.state) := by
  have size := ready.size
  obtain ⟨done, under⟩ := steady.flat parent here simple size ready.kept
  have works := (Progress.works_perform env i n (p.enter parent i n)).trans
    (Progress.works_leave i n p.state _)
  have frame : ∀ k < i, (((p.enter parent i n).perform env i n).leave i n p.state).facts[k]? =
      p.facts[k]? :=
    fun k less => (works.frame k (Nat.ne_of_lt less)).trans
      (frame_enter parent n size (Nat.ne_of_lt less))
  refine ⟨done, works.size ▸ le_size_enter parent n size, under, fun k less _ => frame k less,
    ?_, ?_, ?_⟩
  · exact fun k same f found => ⟨f, (frame k (ready.before k same)).trans found,
      (Bool.or_false _).symm⟩
  · exact breaks_enter parent i n p ▸ works.breaks.subset
  · exact continues_enter parent i n p ▸ works.continues.subset

/-- A loop that has settled is left with its head noted and the jumps of the loop around. -/
theorem restores (around : t.Held p)
    (leads : Leads t env own a b asks { p with breaks := [], continues := [] } q) (i : Nat)
    {head : State} (fits : t.state q.facts head) :
    Leads t env own a b asks p (settledAt p i head q) := by
  refine ⟨⟨leads.kept.settled, leads.kept.facts, fits, fun k s noted => ?_, ?_, ?_⟩, leads.size,
    leads.under, leads.frame, leads.flags, fun _ => id, fun _ => id⟩
  · rw [settledAt, Std.ExtTreeMap.getElem?_insert] at noted
    split at noted
    · exact Option.some.inj noted ▸ fits
    · exact leads.kept.heads k s noted
  · exact fun s member => steady.mono leads.under (around.breaks s member)
  · exact fun s member => steady.mono leads.under (around.continues s member)

/-- What survives every part of a plan survives the plan. -/
theorem invariant : (t.invariant env).Kept env (fun _ => good) fine where
  merge := steady.merge
  state ready := ready.kept.state
  head ready found := ready.kept.heads _ _ found
  jumps leads _ := forall_mem_append.mpr ⟨leads.kept.breaks, leads.kept.continues⟩
  ends leads := leads.kept.state
  mono leads := steady.mono leads.under
  less := Ready.less
  next leads le ready := ready.next leads le
  again leads le ready := ready.again leads le
  resume ready fits := ready.resume fits
  aside := Ready.aside
  nothing ready := .refl ready.kept ready.size
  append first second le _ := first.trans second le
  twice := Leads.again
  resumed leads fits := leads.resume fits
  of_resume := Leads.of_resume
  settled ready leads fits := steady.restores ready.kept leads _ fits
  act := steady.acting
  enter here compound inside ready := steady.entered ready _ here compound inside
  leave {own _ _ _ _ _ _} here compound ready leads _ := by
    obtain ⟨entered, holds⟩ := steady.enters ready _ here compound
    have left := steady.leaves leads ((holds _ (forall_mem_nil _)).mono leads.under (Nat.le_refl _)
      (fun _ => id)) compound (steady.mono (entered.under.trans leads.under) ready.kept.state)
    exact entered.again (left.enclose own ready.before)
  flat here simple _ ready := steady.visits ready _ here simple

end

end Trait.Steady

end

end Lineage.Flow
