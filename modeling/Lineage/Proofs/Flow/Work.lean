import Lineage.Proofs.Flow.Action
import Lineage.Proofs.Flow.Order

/-!
What a statement does by itself, its blocks apart: it works on its own facts, which only grow, and
leaves those of all other statements alone. Every operation of an analysis at an index is such work,
and so is all that a statement without blocks does between being entered and being left.
-/

namespace Lineage.Flow

open List

namespace StatementFacts

/-- The edges by which a statement depends on the one around it. -/
def controls (f : StatementFacts) : List Edge :=
  f.inbound.filter fun edge => edge.kind = .control

/-- The second facts are later ones of the same statement: they say where it stands in the same way,
and what was known to reach it or to be needed by it is still known. -/
structure Grows (f g : StatementFacts) : Prop where
  index : g.index = f.index
  node : g.node = f.node
  parent : g.parent = f.parent
  entry : f.entry.Below g.entry
  inbound : f.inbound ⊆ g.inbound
  dynamic : f.dynamic = true → g.dynamic = true
  controls : g.controls = f.controls

theorem Grows.refl (f : StatementFacts) : f.Grows f :=
  ⟨rfl, rfl, rfl, .refl _, fun _ h => h, id, rfl⟩

theorem Grows.trans {f g h : StatementFacts} (first : f.Grows g) (second : g.Grows h) :
    f.Grows h where
  index := second.index.trans first.index
  node := second.node.trans first.node
  parent := second.parent.trans first.parent
  entry := first.entry.trans second.entry
  inbound := List.Subset.trans first.inbound second.inbound
  dynamic := second.dynamic ∘ first.dynamic
  controls := second.controls.trans first.controls

theorem grows_foldl {α : Type} {step : StatementFacts → α → StatementFacts}
    (grows : ∀ (f : StatementFacts) (x : α), f.Grows (step f x)) (xs : List α)
    (f : StatementFacts) : f.Grows (xs.foldl step f) := by
  induction xs generalizing f with
  | nil => exact .refl f
  | cons x rest ih => exact (grows f x).trans (ih (step f x))

theorem subset_addNew {α : Type} [DecidableEq α] (xs : List α) (x : α) : xs ⊆ addNew xs x := by
  unfold addNew
  split
  · exact fun _ h => h
  · exact subset_append_left xs [x]

theorem mem_addNew {α : Type} [DecidableEq α] (xs : List α) (x : α) : x ∈ addNew xs x := by
  unfold addNew
  split
  · assumption
  · exact mem_append_right xs (mem_singleton_self x)

theorem grows_define (f : StatementFacts) (d : Definition) : f.Grows (f.define d) :=
  ⟨rfl, rfl, rfl, .refl _, fun _ h => h, id, rfl⟩

theorem grows_dependOn (f source : StatementFacts) (name : Option String) :
    f.Grows (f.dependOn .data source name) := by
  unfold dependOn
  split
  · exact .refl f
  · refine ⟨rfl, rfl, rfl, .refl _, subset_addNew _ _, id, ?_⟩
    unfold controls addNew
    split
    · rfl
    · simp

theorem grows_addExternal (f : StatementFacts) (name : String) :
    f.Grows { f with external := f.external.insert name } :=
  ⟨rfl, rfl, rfl, .refl _, fun _ h => h, id, rfl⟩

theorem grows_useOrigin (all : Array StatementFacts) (name : String) (f : StatementFacts)
    (origin : Origin) : f.Grows (f.useOrigin all name origin) := by
  cases origin with
  | parameter => exact .refl f
  | entry => exact f.grows_addExternal name
  | statement k =>
    rw [useOrigin]
    split
    · exact .refl f
    · exact f.grows_dependOn _ _

/-- Noting a use only adds to the uses. -/
theorem grows_addUse (f : StatementFacts) (u : Use) : f.Grows { f with uses := addNew f.uses u } :=
  ⟨rfl, rfl, rfl, .refl _, fun _ h => h, id, rfl⟩

theorem grows_useEverything (all : Array StatementFacts) (s : State) (f : StatementFacts) :
    f.Grows (f.useEverything all s) := by
  unfold useEverything
  refine Grows.trans ?_ (grows_addExternal _ allNames)
  refine (f.grows_addUse _).trans (grows_foldl ?_ _ _)
  intro f entry
  refine grows_foldl ?_ _ _
  intro f origin
  split
  · exact .refl f
  · exact f.grows_useOrigin _ _ _

theorem grows_use (all : Array StatementFacts) (s : State) (f : StatementFacts) (u : Use) :
    f.Grows (f.use all s u) := by
  unfold use
  split
  · exact f.grows_useEverything all s
  · exact (f.grows_addUse u).trans (grows_foldl (fun f origin => f.grows_useOrigin _ _ origin) _ _)

end StatementFacts

namespace Progress

/-- Work on the facts of one statement; jumps may be added. -/
structure Works (i : Nat) (p q : Progress) : Prop where
  frame : ∀ k, k ≠ i → q.facts[k]? = p.facts[k]?
  own : ∀ f, p.facts[i]? = some f → ∃ g, q.facts[i]? = some g ∧ f.Grows g
  size : q.facts.size = p.facts.size
  breaks : p.breaks <+: q.breaks
  continues : p.continues <+: q.continues

namespace Works

variable {i : Nat} {p q r : Progress}

theorem refl (i : Nat) (p : Progress) : Works i p p :=
  ⟨fun _ _ => rfl, fun f h => ⟨f, h, .refl f⟩, rfl, prefix_refl _, prefix_refl _⟩

theorem trans (first : Works i p q) (second : Works i q r) : Works i p r where
  frame k other := (second.frame k other).trans (first.frame k other)
  own f found := by
    obtain ⟨g, foundG, growsG⟩ := first.own f found
    obtain ⟨h, foundH, growsH⟩ := second.own g foundG
    exact ⟨h, foundH, growsG.trans growsH⟩
  size := second.size.trans first.size
  breaks := first.breaks.trans second.breaks
  continues := first.continues.trans second.continues

theorem foldl {α : Type} {step : Progress → α → Progress} (works : ∀ p x, Works i p (step p x))
    (xs : List α) (p : Progress) : Works i p (xs.foldl step p) := by
  induction xs generalizing p with
  | nil => exact .refl i p
  | cons x rest ih => exact (works p x).trans (ih (step p x))

/-- The state and what is pending are no facts. -/
theorem with_state (works : Works i p q) (s : State) (ds : List Definition) :
    Works i p { q with state := s, pending := ds } :=
  ⟨works.frame, works.own, works.size, works.breaks, works.continues⟩

end Works

theorem works_revise (p : Progress) (i : Nat) {f : StatementFacts → StatementFacts}
    (grows : ∀ g : StatementFacts, g.Grows (f g)) : Works i p (p.revise i f) where
  frame k other := by
    rw [revise, Array.getElem?_modify, if_neg (Ne.symm other)]
  own g found := by
    refine ⟨f g, ?_, grows g⟩
    rw [revise, Array.getElem?_modify, if_pos rfl, found]
    rfl
  size := Array.size_modify
  breaks := prefix_refl _
  continues := prefix_refl _

theorem works_use (p : Progress) (i : Nat) (u : Use) : Works i p (p.use i u) :=
  p.works_revise i fun f => f.grows_use _ _ u

theorem works_define (p : Progress) (i : Nat) (d : Definition) : Works i p (p.define i d) :=
  (p.works_revise i fun f => f.grows_define d).with_state _ _

theorem works_defineAll (p : Progress) (i : Nat) (ds : List Definition) :
    Works i p (p.defineAll i ds) :=
  Works.foldl (fun p d => p.works_define i d) ds p

theorem works_flush (p : Progress) (i : Nat) : Works i p (p.flush i) :=
  ((Works.refl i p).with_state _ _).trans (works_defineAll _ i _)

theorem works_setDynamic (p : Progress) (i : Nat) :
    Works i p (p.revise i fun f => { f with dynamic := true }) :=
  p.works_revise i fun _ => ⟨rfl, rfl, rfl, .refl _, fun _ h => h, fun _ => rfl, rfl⟩

theorem works_read (env : Env) (i : Nat) (e : Node) (p : Progress) :
    Works i p (p.read env i e) := by
  unfold read
  refine Works.with_state ?_ _ _
  refine Works.trans ?_ (Works.foldl (fun q u => q.works_use i u) _ _)
  split
  · exact p.works_setDynamic i
  · exact .refl i p

theorem works_readAll (env : Env) (i : Nat) (es : List Node) (p : Progress) :
    Works i p (p.readAll env i es) :=
  Works.foldl (fun p e => p.works_read env i e) es p

theorem works_evaluate (env : Env) (i : Nat) (es : List Node) (p : Progress) :
    Works i p (p.evaluate env i es) :=
  (p.works_readAll env i es).trans (works_flush _ i)

theorem works_act (env : Env) (i : Nat) (p : Progress) (a : Action) :
    Works i p (p.act env i a) := by
  cases a with
  | evaluate es => exact p.works_evaluate env i es
  | define d => exact p.works_define i d
  | use u => exact p.works_use i u
  | close => exact p.works_revise i fun _ => ⟨rfl, rfl, rfl, .refl _, fun _ h => h, id, rfl⟩
  | «break» => exact ⟨fun _ _ => rfl, (Works.refl i p).own, rfl, prefix_append _ _, prefix_refl _⟩
  | «continue» => exact ⟨fun _ _ => rfl, (Works.refl i p).own, rfl, prefix_refl _,
      prefix_append _ _⟩

theorem works_acts (env : Env) (i : Nat) (actions : List Action) (p : Progress) :
    Works i p (p.acts env i actions) :=
  Works.foldl (fun p a => p.works_act env i a) actions p

theorem works_perform (env : Env) (i : Nat) (n : Node) (p : Progress) :
    Works i p (p.perform env i n) := by
  rcases p.perform_cases env i n with marks | acts
  · rw [marks.2]
    exact p.works_setDynamic i
  · rw [acts.2]
    exact p.works_acts env i _

theorem works_leave (i : Nat) (n : Node) (entry : State) (p : Progress) :
    Works i p (p.leave i n entry) := by
  unfold leave
  split
  · have used := p.works_revise i fun f => f.grows_useEverything p.facts entry
    dsimp only
    split
    · exact used
    · have cleared := works_revise (p.revise i fun f => f.useEverything p.facts entry) i
        (f := fun f => { f with definitions := [] }) fun _ => ⟨rfl, rfl, rfl, .refl _, fun _ h => h,
          id, rfl⟩
      exact ((used.trans cleared).with_state _ _).trans (works_define _ i _)
  · exact .refl i p

end Progress

/-! ### Entering a statement -/

section Enter

variable {i k : Nat} {p : Progress} {f : StatementFacts}

/-- A statement that is reached again keeps its facts, with more reaching it. -/
theorem works_enter (parent : Option Nat) (n : Node) (again : i < p.facts.size) :
    Progress.Works i p (p.enter parent i n) := by
  rw [Progress.enter, if_pos again]
  exact p.works_revise i fun f => ⟨rfl, rfl, rfl, State.below_merge_left _ _, fun _ h => h, id, rfl⟩

/-- Entering a statement leaves all other facts alone. -/
theorem frame_enter (parent : Option Nat) (n : Node) (bound : i ≤ p.facts.size) (other : k ≠ i) :
    (p.enter parent i n).facts[k]? = p.facts[k]? := by
  by_cases again : i < p.facts.size
  · exact (works_enter parent n again).frame k other
  · rw [Progress.enter, if_neg again, Array.getElem?_push, if_neg (by omega)]

theorem grows_enter (parent : Option Nat) (i : Nat) (n : Node) (p : Progress)
    (found : p.facts[k]? = some f) : ∃ g, (p.enter parent i n).facts[k]? = some g ∧ f.Grows g := by
  have inside : k < p.facts.size := (Array.getElem?_eq_some_iff.mp found).1
  by_cases again : i < p.facts.size
  · by_cases same : k = i
    · subst same
      exact (works_enter parent n again).own f found
    · exact ⟨f, ((works_enter parent n again).frame k same).trans found, .refl f⟩
  · refine ⟨f, ?_, .refl f⟩
    rw [Progress.enter, if_neg again, Array.getElem?_push, if_neg (by omega), found]

theorem size_enter (parent : Option Nat) (n : Node) (next : p.facts.size = i) :
    (p.enter parent i n).facts.size = i + 1 := by
  rw [Progress.enter, if_neg (by omega), Array.size_push, next]

theorem le_size_enter (parent : Option Nat) (n : Node) (bound : i ≤ p.facts.size) :
    i + 1 ≤ (p.enter parent i n).facts.size := by
  by_cases again : i < p.facts.size
  · rw [(works_enter parent n again).size]
    exact again
  · exact Nat.le_of_eq (size_enter parent n (by omega)).symm

@[simp] theorem state_enter (parent : Option Nat) (i : Nat) (n : Node) (p : Progress) :
    (p.enter parent i n).state = p.state := by
  rw [Progress.enter]
  split <;> rfl

@[simp] theorem pending_enter (parent : Option Nat) (i : Nat) (n : Node) (p : Progress) :
    (p.enter parent i n).pending = p.pending := by
  rw [Progress.enter]
  split <;> rfl

@[simp] theorem breaks_enter (parent : Option Nat) (i : Nat) (n : Node) (p : Progress) :
    (p.enter parent i n).breaks = p.breaks := by
  rw [Progress.enter]
  split <;> rfl

@[simp] theorem continues_enter (parent : Option Nat) (i : Nat) (n : Node) (p : Progress) :
    (p.enter parent i n).continues = p.continues := by
  rw [Progress.enter]
  split <;> rfl

@[simp] theorem heads_enter (parent : Option Nat) (i : Nat) (n : Node) (p : Progress) :
    (p.enter parent i n).heads = p.heads := by
  rw [Progress.enter]
  split <;> rfl

end Enter

/-! ### Loops -/

/-- The state in which a loop begins: what reaches it, with the head on which it settled before if
that is kept. -/
def loopStart (env : Env) (i : Nat) (p : Progress) : State :=
  ((if env.keepHeads then p.heads[i]? else none).map fun kept => State.merge kept p.state).getD
    p.state

/-- Where a loop that has settled on a head goes on with its `else` clause. -/
def settledAt (p : Progress) (i : Nat) (head : State) (q : Progress) : Progress :=
  { q with state := head, heads := q.heads.insert i head, breaks := p.breaks, continues :=
    p.continues }

/-- A loop settles, and then its `else` clause is visited. -/
theorem loop_eq {env : Env} {p : Progress} (i : Nat) (body orelse : Progress → Progress)
    {head : State} {q : Progress} (found : Progress.settle body env.passes (loopStart env i p)
      { p with breaks := [], continues := [] } = (head, q)) :
    p.loop env i body orelse = (orelse (settledAt p i head q)).resume
      (State.join ((orelse (settledAt p i head q)).state :: q.breaks)) := by
  have head' := congrArg Prod.fst found
  have q' := congrArg Prod.snd found
  subst head' q'
  rfl

end Lineage.Flow
