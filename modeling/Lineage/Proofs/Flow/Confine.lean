import Lineage.Proofs.Flow.Draw
import Lineage.Proofs.Flow.PlanInvariant

/-!
Visits are confined. A visit of some statements makes up no origins: all that it records and all
states it comes across have only origins that were there when it began, and the statements that it
visits.
-/

namespace Lineage.Flow

variable {s : State} {i : Nat} {p : Progress}

/-- All origins that a state gives to names are allowed. -/
def State.Allowed (allowed : String → Origin → Prop) (s : State) : Prop :=
  ∀ name origin, origin ∈ s.reaching name → allowed name origin

namespace State

variable {allowed : String → Origin → Prop}

theorem Allowed.merge {t : State} (first : s.Allowed allowed) (second : t.Allowed allowed) :
    (s.merge t).Allowed allowed :=
  fun name origin reaches => (mem_reaching_merge.mp reaches).elim (first name origin)
    (second name origin)

theorem Allowed.supplies {t : State} (all : s.Allowed allowed)
    (own : ∀ name, allowed name (.statement i)) (supplies : s.Supplies i t) :
    t.Allowed allowed := by
  intro name origin reaches
  rcases supplies name origin reaches with before | rfl
  · exact all name origin before
  · exact own name

end State

namespace Progress

/-- What has been recorded to reach a statement. -/
def Reaches (p : Progress) (k : Nat) (name : String) (origin : Origin) : Prop :=
  ∃ f, p.facts[k]? = some f ∧ origin ∈ f.entry.reaching name

/-- What has been recorded to reach a statement, or the head of a loop. -/
def Notes (p : Progress) (k : Nat) (name : String) (origin : Origin) : Prop :=
  p.Reaches k name origin ∨ ∃ head, p.heads[k]? = some head ∧ origin ∈ head.reaching name

/-- What reaches a statement is recorded when it is entered. -/
theorem reaches_enter {parent : Option Nat} {n : Node} (bound : i ≤ p.facts.size) {k : Nat}
    {name : String} {origin : Origin} : (p.enter parent i n).Reaches k name origin ↔
      p.Reaches k name origin ∨ k = i ∧ origin ∈ p.state.reaching name := by
  unfold Reaches
  by_cases same : k = i
  · subst same
    by_cases again : k < p.facts.size
    · have found := Array.getElem?_eq_getElem again
      have entered : (p.enter parent k n).facts[k]? =
          some { p.facts[k] with entry := p.facts[k].entry.merge p.state } := by
        rw [enter, if_pos again, revise, Array.getElem?_modify, if_pos rfl, found]
        rfl
      simp only [entered, found, Option.some.injEq, exists_eq_left', State.mem_reaching_merge,
        true_and]
    · obtain ⟨f, entry, entered⟩ : ∃ f : StatementFacts, f.entry = p.state ∧
          (p.enter parent k n).facts[k]? = some f := by
        have last : p.facts.size = k := by omega
        rw [enter, if_neg again]
        dsimp only
        split
        · exact ⟨_, rfl, by rw [← last, Array.getElem?_push_size]⟩
        · refine ⟨_, ?_, by rw [← last, Array.getElem?_push_size]⟩
          exact (StatementFacts.alike_dependOn ..).entry
      have absent : p.facts[k]? = none := Array.getElem?_eq_none (by omega)
      simp only [entered, absent, Option.some.injEq, exists_eq_left', entry, true_and, reduceCtorEq,
        false_and, exists_false, false_or]
  · rw [frame_enter parent n bound same]
    simp [same]

theorem notes_enter {parent : Option Nat} {n : Node} (bound : i ≤ p.facts.size) {k : Nat}
    {name : String} {origin : Origin} : (p.enter parent i n).Notes k name origin ↔
      p.Notes k name origin ∨ k = i ∧ origin ∈ p.state.reaching name := by
  unfold Notes
  rw [heads_enter, reaches_enter bound]
  exact or_right_comm

end Progress

/-- What a visit is confined to: the statements that are visited, and the origins that may be
recorded, which these statements are among. -/
structure Fence where
  inside : Nat → Prop
  allowed : String → Origin → Prop
  own : ∀ k, inside k → ∀ name, allowed name (.statement k)

namespace Progress

/-- An analysis that has been confined. Facts stand for all statements below a bound. -/
structure Confined (fence : Fence) (bound : Nat) (p : Progress) : Prop where
  notes : ∀ k, fence.inside k → ∀ name origin, p.Notes k name origin → fence.allowed name origin
  state : p.state.Allowed fence.allowed
  reach : bound ≤ p.facts.size

/-- Jumps are added only from states with origins that are allowed. -/
def Jumps (allowed : String → Origin → Prop) (p q : Progress) : Prop :=
  ∀ s ∈ q.breaks ++ q.continues, s ∈ p.breaks ++ p.continues ∨ s.Allowed allowed

theorem Jumps.trans {allowed : String → Origin → Prop} {q r : Progress} (first : p.Jumps allowed q)
    (second : q.Jumps allowed r) : p.Jumps allowed r :=
  fun s member => (second s member).elim (first s) Or.inr

namespace Confined

variable {fence : Fence} {bound : Nat} {p q : Progress} {i : Nat}

theorem mono {smaller : Nat} (confined : Confined fence bound p) (less : smaller ≤ bound) :
    Confined fence smaller p :=
  { confined with reach := Nat.le_trans less confined.reach }

theorem resume (confined : Confined fence bound p) (fine : s.Allowed fence.allowed) :
    Confined fence bound (p.resume s) :=
  { confined with state := fine }

/-- A statement that is inside works by itself and draws on a state that is allowed. -/
theorem draws (confined : Confined fence bound p) (among : fence.inside i)
    (fine : s.Allowed fence.allowed) (draws : Draws s i p q) :
    Confined fence bound q ∧ p.Jumps fence.allowed q := by
  refine ⟨⟨fun k member name origin noted => ?_, fine.supplies (fence.own i among) draws.state,
    draws.works.size.symm ▸ confined.reach⟩, fun t member => ?_⟩
  · refine confined.notes k member name origin (noted.imp ?_ ?_)
    · rintro ⟨g, found, reaches⟩
      by_cases same : k = i
      · subst same
        have present : k < p.facts.size := by
          rw [← draws.works.size]
          exact (Array.getElem?_eq_some_iff.mp found).1
        have before := Array.getElem?_eq_getElem present
        refine ⟨p.facts[k], before, ?_⟩
        rwa [← (draws.own _ g before found).1]
      · exact ⟨g, (draws.works.frame k same).symm.trans found, reaches⟩
    · rintro ⟨head, found, reaches⟩
      rw [draws.heads] at found
      exact ⟨head, found, reaches⟩
  · rcases List.mem_append.mp member with broke | continued
    · exact (draws.breaks t broke).imp (List.mem_append_left _) (fine.supplies (fence.own i among))
    · exact (draws.continues t continued).imp (List.mem_append_right _)
        (fine.supplies (fence.own i among))

theorem enter (confined : Confined fence i p) (parent : Option Nat) (n : Node) :
    Confined fence (i + 1) (p.enter parent i n) where
  notes k member name origin noted := by
    rcases (notes_enter confined.reach).mp noted with before | ⟨_, reaches⟩
    · exact confined.notes k member name origin before
    · exact confined.state name origin reaches
  state := by
    rw [state_enter]
    exact confined.state
  reach := le_size_enter parent n confined.reach

theorem leave (confined : Confined fence bound p) (among : fence.inside i) (n : Node)
    {entry : State} (fine : entry.Allowed fence.allowed) :
    Confined fence bound (p.leave i n entry) ∧ p.Jumps fence.allowed (p.leave i n entry) := by
  refine confined.draws among (confined.state.merge fine) ?_
  exact (Draws.refl i (State.supplies_of_below (State.below_merge_left _ _))).leave n
    (State.supplies_of_below (State.below_merge_right _ _))

/-- A loop that has settled notes its head. -/
theorem settled (confined : Confined fence bound q) (i : Nat) (p : Progress) {head : State}
    (fine : head.Allowed fence.allowed) : Confined fence bound (settledAt p i head q) := by
  refine ⟨fun k member name origin noted => ?_, fine, confined.reach⟩
  rcases noted with found | ⟨noted, found, reaches⟩
  · exact confined.notes k member name origin (Or.inl found)
  · rw [settledAt, Std.ExtTreeMap.getElem?_insert] at found
    split at found
    · obtain rfl := Option.some.inj found
      exact fine name origin reaches
    · exact confined.notes k member name origin (Or.inr ⟨noted, found, reaches⟩)

end Confined

end Progress

/-! ### Visits -/

/-- Visits keep within a fence. -/
def PlanInvariant.confined (fence : Fence) : PlanInvariant where
  ready own a _ p := p.Confined fence a ∧ ∀ i, own = some i → fence.inside i
  fits _ s := s.Allowed fence.allowed
  leads _ _ b _ p q := q.Confined fence b ∧ p.Jumps fence.allowed q

theorem PlanInvariant.kept_confined (env : Env) (fence : Fence) :
    (PlanInvariant.confined fence).Kept env (fun _ i _ => fence.inside i) (fun _ => True) where
  merge := State.Allowed.merge
  state ready := ready.1.state
  head ready found name origin reaches :=
    ready.1.notes _ (ready.2 _ rfl) name origin (Or.inr ⟨_, found, reaches⟩)
  jumps leads fits s member := (leads.2 s member).elim (fits s) id
  ends leads := leads.1.state
  mono _ := id
  less ready _ := ready
  next leads _ ready := ⟨leads.1, ready.2⟩
  again leads le ready := ⟨leads.1.mono le, ready.2⟩
  resume ready fine := ⟨ready.1.resume fine, ready.2⟩
  aside ready := ⟨{ ready.1 with }, ready.2⟩
  nothing ready := ⟨ready.1, fun _ => Or.inl⟩
  append first second _ _ := ⟨second.1, first.2.trans second.2⟩
  twice first second := ⟨second.1, first.2.trans second.2⟩
  resumed leads fine := ⟨leads.1.resume fine, leads.2⟩
  of_resume leads := leads
  settled _ leads fine := ⟨leads.1.settled _ _ fine, fun _ => Or.inl⟩
  act _ ready := ready.1.draws (ready.2 _ rfl) ready.1.state (Progress.draws_act ..)
  enter {_ _ i n _ _} among _ _ ready :=
    ⟨ready.1.enter _ n, fun k same => Option.some.inj same ▸ among⟩
  leave among _ ready leads _ := by
    obtain ⟨left, jumps⟩ := leads.1.leave among _ ready.1.state
    refine ⟨left, Progress.Jumps.trans (fun s member => ?_) jumps⟩
    have before := leads.2 s member
    rwa [breaks_enter, continues_enter] at before
  flat {_ parent i n p} among _ _ ready := by
    have entered := ready.1.enter parent n
    obtain ⟨performed, first⟩ := entered.draws among entered.state
      ((Progress.Draws.start i _).perform env n)
    obtain ⟨left, second⟩ := performed.leave among n ready.1.state
    refine ⟨left, fun s member => ?_⟩
    have before := first.trans second s member
    rwa [breaks_enter, continues_enter] at before

/-- Every visit of a block is confined. -/
theorem confined_blockPlan {env : Env} (some : 0 < env.passes) {fence : Fence} {code : List Node}
    (plain : ∀ c ∈ code, c.ModuleFree) (own : Option (Nat × Node))
    (inside : ∀ k, i ≤ k → k < i + blockExtent code → fence.inside k)
    (confined : p.Confined fence i) : ((blockPlan (own.map Prod.fst) i code).run env p).Confined
    fence (i + blockExtent code) := by
  have all : Goods (fun _ i _ => fence.inside i) (blockPlaces own i code) := by
    intro place member
    obtain ⟨above, below, _⟩ := mem_blockPlaces member
    exact inside _ above (Nat.lt_of_lt_of_le (Nat.lt_add_of_pos_right (Nat.succ_pos _)) below)
  have lies : (blockPlan (own.map Prod.fst) i code).Lies _ (fun _ => True) none i
      (i + blockExtent code) :=
    standing_blockPlan
      (fun c member => standing (fun _ _ _ _ _ _ => trivial) c (plain c member)) all
  exact ((PlanInvariant.kept_confined env fence).run some lies
    ⟨confined, fun _ same => nomatch same⟩).1.1

end Lineage.Flow
