import Lineage.Proofs.Flow.Regular
import Lineage.Proofs.Flow.Upheld

/-!
What an analysis records of what a statement does by itself. The uses that are recorded of a
statement are exactly those of the expressions that it evaluates and of what else it asks for,
however often it is visited; and what its expressions bind and change is among its definitions
unless it runs unknown code.
-/

namespace Lineage

open List

namespace Node

/-- What evaluating a node by itself binds or may change, whatever functions assign: what is
assigned in an expression, and the objects handed to a call that is not known to leave them
alone. -/
def effects (pure : Node → Bool) : Node → List Flow.Definition
  | .call loc func args keywords =>
    if pure func then []
    else (Flow.receivers func ++ args ++ keywords.map Keyword.value).filterMap (Flow.mutationOf loc)
  | n => n.walrusNames.map fun o => ⟨o.id, o.id, .assignment, o.loc⟩

end Node

namespace Flow

variable {env : Env} {ds : List Definition} {asks : List Node} {us : List Use} {i k : Nat}
  {n : Node} {p : Progress} {f : StatementFacts}

/-- How a use is recorded of a statement: a use of the name for all names is one of everything. -/
def Use.recorded (loc : Location) (u : Use) : Use :=
  if u.name = allNames then ⟨allNames, allNames, .everything, loc⟩ else u

namespace StatementFacts

theorem uses_useOrigin (all : Array StatementFacts) (name : String) (f : StatementFacts)
    (origin : Origin) : (f.useOrigin all name origin).uses = f.uses := by
  cases origin with
  | parameter => rfl
  | entry => rfl
  | statement k =>
    simp only [useOrigin]
    split
    · rfl
    · unfold dependOn
      split <;> rfl

theorem uses_foldl {α : Type} {step : StatementFacts → α → StatementFacts}
    (same : ∀ (f : StatementFacts) (x : α), (step f x).uses = f.uses) (xs : List α)
    (f : StatementFacts) : (xs.foldl step f).uses = f.uses := by
  induction xs generalizing f with
  | nil => rfl
  | cons x rest ih => exact (ih (step f x)).trans (same f x)

theorem uses_useEverything (all : Array StatementFacts) (s : State) (f : StatementFacts) :
    (f.useEverything all s).uses = addNew f.uses ⟨allNames, allNames, .everything, f.location⟩ := by
  unfold useEverything
  refine (uses_foldl ?_ _ _).trans rfl
  intro f entry
  refine uses_foldl ?_ _ _
  intro f origin
  split
  · rfl
  · exact uses_useOrigin _ _ f origin

theorem uses_use (all : Array StatementFacts) (s : State) (f : StatementFacts) (u : Use) :
    (f.use all s u).uses = addNew f.uses (u.recorded f.location) := by
  unfold use Use.recorded
  split
  · exact uses_useEverything all s f
  · exact uses_foldl (fun f origin => uses_useOrigin _ _ f origin) _ _

/-- The second facts are later ones of the same statement. Of uses exactly these have been added,
and at least these definitions; nothing has been lost. -/
structure Collects (us : List Use) (ds : List Definition) (f g : StatementFacts) : Prop where
  node : g.node = f.node
  uses : ∀ u, u ∈ g.uses ↔ u ∈ f.uses ∨ ∃ v ∈ us, u = v.recorded f.location
  definitions : f.definitions ⊆ g.definitions
  added : ds ⊆ g.definitions
  dynamic : f.dynamic = true → g.dynamic = true

namespace Collects

variable {us vs : List Use} {ds es : List Definition} {f g h : StatementFacts}

theorem refl (f : StatementFacts) : f.Collects [] [] f :=
  ⟨rfl, fun u => by simp, List.Subset.refl _, nil_subset _, id⟩

theorem trans (first : f.Collects us ds g) (second : g.Collects vs es h) :
    f.Collects (us ++ vs) (ds ++ es) h where
  node := second.node.trans first.node
  uses u := by
    have same : g.location = f.location := congrArg Node.loc first.node
    rw [second.uses, first.uses, same]
    simp only [mem_append, or_and_right, exists_or, or_assoc]
  definitions := List.Subset.trans first.definitions second.definitions
  added := append_subset.mpr ⟨List.Subset.trans first.added second.definitions, second.added⟩
  dynamic := second.dynamic ∘ first.dynamic

/-- Only which uses and definitions there are counts. -/
theorem congr (collects : f.Collects us ds g) (same : ∀ u, u ∈ us ↔ u ∈ vs) (part : es ⊆ ds) :
    f.Collects vs es g :=
  { collects with
    uses := fun u => by simp only [collects.uses, same]
    added := List.Subset.trans part collects.added }

end Collects

end StatementFacts

namespace Progress

/-- The facts of a statement gain these uses and definitions. -/
def Collects (i : Nat) (us : List Use) (ds : List Definition) (p q : Progress) : Prop :=
  ∀ f, p.facts[i]? = some f → ∃ g, q.facts[i]? = some g ∧ f.Collects us ds g

namespace Collects

variable {i : Nat} {us vs : List Use} {ds es : List Definition} {p q r : Progress}

theorem trans (first : Collects i us ds p q) (second : Collects i vs es q r) :
    Collects i (us ++ vs) (ds ++ es) p r := by
  intro f found
  obtain ⟨g, found, collected⟩ := first f found
  obtain ⟨h, found, more⟩ := second g found
  exact ⟨h, found, collected.trans more⟩

theorem congr (collects : Collects i us ds p q) (same : ∀ u, u ∈ us ↔ u ∈ vs) (part : es ⊆ ds) :
    Collects i vs es p q := by
  intro f found
  obtain ⟨g, found, collected⟩ := collects f found
  exact ⟨g, found, collected.congr same part⟩

/-- What happens elsewhere collects nothing. -/
theorem of_eq (same : q.facts[i]? = p.facts[i]?) : Collects i [] [] p q :=
  fun f found => ⟨f, same.trans found, .refl f⟩

/-- Gaining the same once more. -/
theorem again (first : Collects i us ds p q) (second : Collects i us ds q r) :
    Collects i us ds p r :=
  (first.trans second).congr (fun u => by rw [mem_append, or_self]) (subset_append_left _ _)

theorem then_nothing (first : Collects i us ds p q) (second : Collects i [] [] q r) :
    Collects i us ds p r :=
  (first.trans second).congr (fun u => by rw [append_nil]) (subset_append_left _ _)

theorem after_nothing (first : Collects i [] [] p q) (second : Collects i us ds q r) :
    Collects i us ds p r :=
  (first.trans second).congr (fun _ => Iff.rfl) (List.Subset.refl _)

end Collects

theorem collects_revise (p : Progress) (i : Nat) {c : StatementFacts → StatementFacts}
    (collects : ∀ f : StatementFacts, f.Collects us ds (c f)) :
    Collects i us ds p (p.revise i c) := by
  intro f found
  refine ⟨c f, ?_, collects f⟩
  rw [revise, Array.getElem?_modify, if_pos rfl, found]
  rfl

theorem mem_addNew_iff {α : Type} [DecidableEq α] {xs : List α} {x y : α} :
    y ∈ addNew xs x ↔ y ∈ xs ∨ y = x := by
  unfold addNew
  split
  · rename_i inside
    exact ⟨Or.inl, fun either => either.elim id fun same => same ▸ inside⟩
  · rw [mem_append, List.mem_singleton]

theorem collects_use (p : Progress) (i : Nat) (u : Use) : Collects i [u] [] p (p.use i u) := by
  refine p.collects_revise i fun f => ?_
  have notes := f.notes_use p.facts p.state u
  refine ⟨notes.node, fun v => ?_, ?_, nil_subset _, fun flag => notes.dynamic.trans flag⟩
  · rw [f.uses_use, mem_addNew_iff]
    simp
  · rw [notes.definitions]
    exact List.Subset.refl _

theorem collects_uses (p : Progress) (i : Nat) (us : List Use) :
    Collects i us [] p (us.foldl (fun p u => p.use i u) p) := by
  induction us generalizing p with
  | nil => exact .of_eq rfl
  | cons u rest ih => exact (p.collects_use i u).trans (ih _)

theorem collects_define (p : Progress) (i : Nat) (d : Definition) :
    Collects i [] [d] p (p.define i d) := by
  refine p.collects_revise i fun f => ⟨rfl, fun u => by simp [StatementFacts.define], ?_, ?_, id⟩
  · exact StatementFacts.subset_addNew _ d
  · exact cons_subset.mpr ⟨StatementFacts.mem_addNew _ d, nil_subset _⟩

theorem collects_defineAll (p : Progress) (i : Nat) (ds : List Definition) :
    Collects i [] ds p (p.defineAll i ds) := by
  induction ds generalizing p with
  | nil => exact .of_eq rfl
  | cons d rest ih => exact (p.collects_define i d).trans (ih _)

end Progress

/-- The uses of evaluating expressions. -/
def readUses (env : Env) (es : List Node) : List Use :=
  es.flatMap fun e => (e.reads env.isPure .bare).map Progress.useOfRead

/-- What evaluating expressions binds and changes, whatever functions assign. -/
def partEffects (env : Env) (es : List Node) : List Definition :=
  es.flatMap fun e => e.evaluated.flatMap (Node.effects env.isPure)

theorem readUses_append (env : Env) (es others : List Node) :
    readUses env (es ++ others) = readUses env es ++ readUses env others :=
  flatMap_append

theorem partEffects_append (env : Env) (es others : List Node) :
    partEffects env (es ++ others) = partEffects env es ++ partEffects env others :=
  flatMap_append

/-- The uses that an action asks for. -/
def Action.uses (env : Env) : Action → List Use
  | .evaluate es => readUses env es
  | .use u => [u]
  | _ => []

/-- What an action binds and changes for certain. -/
def Action.effects (env : Env) : Action → List Definition
  | .evaluate es => partEffects env es
  | .define d => [d]
  | _ => []

namespace Progress

theorem effects_subset (env : Env) (p : Progress) (e : Node) :
    e.evaluated.flatMap (Node.effects env.isPure) ⊆ p.evaluationDefinitions env e := by
  intro d member
  obtain ⟨m, evaluated, member⟩ := mem_flatMap.mp member
  have walrus : d ∈ (m.walrusNames.map fun o => ⟨o.id, o.id, .assignment, o.loc⟩ : List
      Definition) → d ∈ p.evaluationDefinitions env e := by
    intro member
    obtain ⟨o, bound, rfl⟩ := mem_map.mp member
    exact mem_append_right _ (mem_map_of_mem (mem_flatMap.mpr ⟨m, evaluated, bound⟩))
  cases m
  case call loc func args keywords =>
    exact mem_append_left _ (mem_flatMap.mpr ⟨_, evaluated, mem_append_right _ member⟩)
  all_goals exact walrus member

theorem collects_read (env : Env) (i : Nat) (e : Node) (p : Progress) :
    Collects i (readUses env [e]) [] p (p.read env i e) := by
  have flagged : Collects i [] [] p (if e.evaluated.any env.settings.runsUnknown then
      p.revise i fun f => { f with dynamic := true } else p) := by
    split
    · exact p.collects_revise i fun f => ⟨rfl,
        fun u => by simp, List.Subset.refl _, nil_subset _, fun _ => rfl⟩
    · exact .of_eq rfl
  rw [readUses, flatMap_singleton]
  exact flagged.after_nothing (collects_uses _ i _)

theorem collects_readAll (env : Env) (i : Nat) (es : List Node) (p : Progress) :
    Collects i (readUses env es) [] p (p.readAll env i es) := by
  induction es generalizing p with
  | nil => exact .of_eq rfl
  | cons e rest ih => exact readUses_append env [e] rest ▸ (p.collects_read env i e).trans (ih _)

theorem effects_readAll (env : Env) (i : Nat) (es : List Node) (p : Progress) :
    p.pending ++ partEffects env es ⊆ (p.readAll env i es).pending := by
  induction es generalizing p with
  | nil =>
    rw [partEffects, flatMap_nil, append_nil]
    exact List.Subset.refl _
  | cons e rest ih =>
    have first : p.pending ++ partEffects env [e] ⊆ (p.read env i e).pending := by
      rw [pending_read, partEffects, flatMap_singleton]
      exact append_subset.mpr ⟨subset_append_left _ _,
        subset_append_of_subset_right _ (effects_subset env p e)⟩
    obtain ⟨before, later⟩ := append_subset.mp (ih (p.read env i e))
    refine append_subset.mpr ⟨?_, ?_⟩
    · exact List.Subset.trans (append_subset.mp first).1 before
    · rw [show partEffects env (e :: rest) = _ from partEffects_append env [e] rest]
      exact append_subset.mpr ⟨List.Subset.trans (append_subset.mp first).2 before, later⟩

theorem collects_evaluate (env : Env) (i : Nat) (es : List Node) (p : Progress) :
    Collects i (readUses env es) (partEffects env es) p (p.evaluate env i es) := by
  have flushed := collects_defineAll { p.readAll env i es with pending := [] } i
    (p.readAll env i es).pending
  refine ((p.collects_readAll env i es).trans flushed).congr (fun u => by rw [append_nil]) ?_
  exact (append_subset.mp (effects_readAll env i es p)).2

theorem collects_act (env : Env) (i : Nat) (p : Progress) (action : Action) :
    Collects i (action.uses env) (action.effects env) p (p.act env i action) := by
  cases action with
  | evaluate es => exact p.collects_evaluate env i es
  | define d => exact p.collects_define i d
  | use u => exact p.collects_use i u
  | close free writes =>
    exact p.collects_revise i fun f => ⟨rfl,
      fun u => by simp [Action.uses], List.Subset.refl _, nil_subset _, id⟩
  | «break» => exact .of_eq rfl
  | «continue» => exact .of_eq rfl

theorem collects_acts (env : Env) (i : Nat) (actions : List Action) (p : Progress) :
    Collects i (actions.flatMap (Action.uses env)) (actions.flatMap (Action.effects env)) p
    (p.acts env i actions) := by
  induction actions generalizing p with
  | nil => exact .of_eq rfl
  | cons action rest ih => exact (p.collects_act env i action).trans (ih _)

/-- Reaching another statement collects nothing. -/
theorem collects_enter (other : k ≠ i) (parent : Option Nat) (n : Node) (p : Progress) :
    Collects k [] [] p (p.enter parent i n) := by
  intro f found
  have inside : k < p.facts.size := (Array.getElem?_eq_some_iff.mp found).1
  refine ⟨f, ?_, .refl f⟩
  unfold enter
  split
  · rw [revise, Array.getElem?_modify, if_neg (Ne.symm other)]
    exact found
  · rw [Array.getElem?_push, if_neg (Nat.ne_of_lt inside)]
    exact found

end Progress

namespace Plan

/-- An action that asks for nothing but what the expressions that it evaluates use. -/
def Bare (action : Action) : Prop :=
  ∀ u, action ≠ .use u

theorem uses_of_bare {action : Action} (bare : Bare action) :
    action.uses env = readUses env action.parts := by
  cases action with
  | use u => exact absurd rfl (bare u)
  | _ => rfl

theorem effects_of_parts (action : Action) : partEffects env action.parts ⊆ action.effects env := by
  cases action with
  | evaluate es => exact List.Subset.refl _
  | _ => exact nil_subset _

end Plan

/-- The statement with the index `k` collects what is asked for it, and nothing else. -/
def PlanInvariant.serves (env : Env) (k : Nat) : PlanInvariant where
  ready _ _ _ _ := True
  fits _ _ := True
  leads own a _ asks p q := k < a → (own = some k →
    p.Collects k (readUses env asks) (partEffects env asks) q) ∧
    (own ≠ some k → p.Collects k [] [] q)

/-- A statement that is entered and left does not matter to one in front of it. -/
theorem Progress.collects_elsewhere {q : Progress} (other : k ≠ i) (parent : Option Nat)
    (collects : (p.enter parent i n).Collects k [] [] q) (entry : State) :
    p.Collects k [] [] (q.leave i n entry) :=
  ((Progress.collects_enter other parent n p).then_nothing collects).then_nothing
    (.of_eq ((Progress.works_leave i n entry q).frame k other))

theorem PlanInvariant.kept_serves (env : Env) (k : Nat) :
    (PlanInvariant.serves env k).Kept env (fun _ _ _ => True) Plan.Bare where
  merge _ _ := trivial
  state _ := trivial
  head _ _ := trivial
  jumps _ _ _ _ := trivial
  ends _ := trivial
  mono _ _ := trivial
  less _ _ := trivial
  next _ _ _ := trivial
  again _ _ _ := trivial
  resume _ _ := trivial
  aside _ := trivial
  nothing _ _ := ⟨fun _ => .of_eq rfl, fun _ => .of_eq rfl⟩
  append first second le _ below := by
    have first := first below
    have second := second (Nat.lt_of_lt_of_le below le)
    refine ⟨fun own => ?_, fun other => (first.2 other).then_nothing (second.2 other)⟩
    rw [readUses_append, partEffects_append]
    exact (first.1 own).trans (second.1 own)
  twice first second below := ⟨fun own => ((first below).1 own).again ((second below).1 own),
    fun other => ((first below).2 other).again ((second below).2 other)⟩
  resumed leads _ := leads
  of_resume leads := leads
  settled _ leads _ := leads
  act {i _ p action} bare _ _ := by
    refine ⟨fun own => ?_, fun other => .of_eq
      ((p.works_act env i action).frame k fun same => other (congrArg some same.symm))⟩
    obtain rfl := Option.some.inj own
    refine (p.collects_act env i action).congr (fun u => ?_) (Plan.effects_of_parts action)
    rw [Plan.uses_of_bare bare]
  enter _ _ _ _ := trivial
  leave {_ parent _ _ p _ _} _ _ _ leads _ below := by
    have other := Nat.ne_of_lt below
    have inside := (leads (Nat.lt_succ_of_lt below)).2 fun same => other (Option.some.inj same).symm
    have done := Progress.collects_elsewhere other parent inside p.state
    exact ⟨fun _ => done, fun _ => done⟩
  flat {_ parent i n p} _ _ _ _ below := by
    have other := Nat.ne_of_lt below
    have done := Progress.collects_elsewhere other parent
      (.of_eq ((Progress.works_perform env i n (p.enter parent i n)).frame k other)) p.state
    exact ⟨fun _ => done, fun _ => done⟩

/-- What compound statements do at the heads of their clauses asks for nothing but expressions. -/
theorem bare_headActions (n : Node) : ∀ action ∈ n.headActions, Plan.Bare action := by
  intro action member u same
  have binds := binds_headActions n action member
  rw [same] at binds
  exact binds

/-! ### Visits -/

/-- What a statement asks for by itself. -/
def ownUses (env : Env) (n : Node) : List Use :=
  if n.kind.isCompound then readUses env n.ownParts else (flatActions env n).flatMap
    (Action.uses env)

/-- The use of a statement that runs unknown code. -/
def Use.everything (loc : Location) : Use :=
  ⟨allNames, allNames, .everything, loc⟩

/-- The facts tell exactly what the statement uses by itself, and at least what its expressions bind
and change. -/
structure StatementFacts.Recorded (env : Env) (f : StatementFacts) : Prop where
  uses : ∀ u, u ∈ f.uses ↔
    (∃ v ∈ ownUses env f.node, u = v.recorded f.location) ∨ f.dynamic = true ∧
    u = .everything f.location
  effects : f.dynamic = false → partEffects env f.node.ownParts ⊆ f.definitions

namespace Progress

theorem uses_enter (parent : Option Nat) (n : Node) (fits : i ≤ p.facts.size)
    (none : p.facts[i]? = none) (found : (p.enter parent i n).facts[i]? = some f) :
    f.uses = [] := by
  have last : i = p.facts.size := Nat.le_antisymm fits (Array.getElem?_eq_none_iff.mp none)
  rw [enter, if_neg (Nat.not_lt.mpr (Nat.le_of_eq last.symm)), last,
    Array.getElem?_push_size] at found
  obtain rfl := Option.some.inj found
  split
  · rfl
  · unfold StatementFacts.dependOn
    split <;> rfl

/-- A statement that is left uses everything if it runs unknown code; otherwise nothing changes. -/
theorem collects_leave (found : p.facts[i]? = some f) (n : Node) (entry : State) :
    ∃ g, (p.leave i n entry).facts[i]? = some g ∧ g.node = f.node ∧ g.dynamic = f.dynamic ∧
      (f.dynamic = false → g.definitions = f.definitions) ∧
      ∀ u, u ∈ g.uses ↔ u ∈ f.uses ∨ f.dynamic = true ∧ u = .everything f.location := by
  have flag : (p.facts[i]?.map StatementFacts.dynamic).getD false = f.dynamic := by rw [found]; rfl
  have notes := f.notes_useEverything p.facts entry
  have uses : ∀ u, u ∈ (f.useEverything p.facts entry).uses ↔ u ∈ f.uses ∨
      u = .everything f.location := by
    intro u
    rw [f.uses_useEverything, mem_addNew_iff]
    rfl
  unfold leave
  rw [flag]
  by_cases dynamic : f.dynamic = true
  · have known : ∀ u, u ∈ (f.useEverything p.facts entry).uses ↔ u ∈ f.uses ∨ f.dynamic = true ∧
        u = .everything f.location :=
      fun u => by rw [uses, dynamic, eq_self, true_and]
    have never : ∀ ds : List Definition, f.dynamic = false → ds = f.definitions := fun _ clear =>
      absurd (dynamic.symm.trans clear) nofun
    rw [if_pos dynamic]
    by_cases keeps : (n.kind.isCompound || n.kind.isDefinition) = true
    · refine ⟨f.useEverything p.facts entry, ?_, notes.node, notes.dynamic, never _, known⟩
      simp only [keeps, if_true, revise, Array.getElem?_modify, found, Option.map_some]
    · refine ⟨{ f.useEverything p.facts entry with definitions :=
        [⟨allNames, allNames, .unknown, n.loc⟩] }, ?_, notes.node, notes.dynamic, never _, known⟩
      simp only [keeps, Bool.false_eq_true, if_false, define, revise, Array.getElem?_modify, found,
        Option.map_some]
      rfl
  · rw [if_neg dynamic]
    exact ⟨f, found, rfl, rfl, fun _ => rfl,
      fun u => (or_iff_left fun claim => dynamic claim.1).symm⟩

/-- If a statement collects what it does by itself between being entered and being left, its facts
tell that. -/
theorem recorded_visit {q : Progress} {parent : Option Nat} (fits : i ≤ p.facts.size)
    (before : ∀ f, p.facts[i]? = some f → f.node = n ∧ f.Recorded env)
    (collects : Collects i (ownUses env n) (partEffects env n.ownParts) (p.enter parent i n) q)
    (entry : State) : ∀ h, (q.leave i n entry).facts[i]? = some h → h.node = n ∧
    h.Recorded env := by
  obtain ⟨f, foundF, origin⟩ := facts_enter parent n fits
  have entered : f.node = n ∧ ∀ u ∈ f.uses,
      (∃ v ∈ ownUses env n, u = v.recorded n.loc) ∨ f.dynamic = true ∧ u = .everything n.loc := by
    rcases origin with ⟨old, foundOld, rfl⟩ | ⟨none, _, node, _⟩
    · obtain ⟨rfl, recorded⟩ := before old foundOld
      exact ⟨rfl, fun u member => (recorded.uses u).mp member⟩
    · rw [uses_enter parent n fits none foundF]
      exact ⟨node, fun _ none => nomatch none⟩
  obtain ⟨rfl, bounded⟩ := entered
  obtain ⟨g, foundG, collected⟩ := collects f foundF
  obtain ⟨h, foundH, node, dynamic, definitions, uses⟩ := collects_leave foundG f.node entry
  intro h' found
  obtain rfl := Option.some.inj (foundH.symm.trans found)
  have same : h.node = f.node := node.trans collected.node
  have place : h.location = f.location := congrArg Node.loc same
  have placeG : g.location = f.location := congrArg Node.loc collected.node
  refine ⟨same, fun u => ?_, fun clear => ?_⟩
  · rw [uses, collected.uses, same, place, placeG, dynamic]
    constructor
    · rintro ((member | asked) | everything)
      · exact (bounded u member).imp_right fun ⟨flag, all⟩ => ⟨collected.dynamic flag, all⟩
      · exact Or.inl asked
      · exact Or.inr everything
    · exact Or.imp_left Or.inr
  · rw [definitions (dynamic ▸ clear), same]
    exact collected.added

theorem collects_perform (flat : n.kind.isCompound = false) (env : Env) (i : Nat) (p : Progress) :
    Collects i (ownUses env n) (partEffects env n.ownParts) p (p.perform env i n) := by
  rw [ownUses, if_neg (Bool.not_eq_true _ ▸ flat), ownParts_flat flat, ← parts_flatActions env n]
  by_cases verbatim : n.kind = .verbatim
  · have same : decide (n.kind = .verbatim) = true := decide_eq_true verbatim
    cases n
    case verbatim =>
      exact p.collects_revise i fun f =>
        ⟨rfl, fun u => by simp [flatActions, simpleActions], List.Subset.refl _, nil_subset _,
          fun _ => rfl⟩
    all_goals exact absurd same Bool.false_ne_true
  · rw [perform_eq_acts env i n p verbatim]
    refine (p.collects_acts env i (flatActions env n)).congr (fun _ => Iff.rfl) fun d member => ?_
    rw [partEffects, flatMap_assoc] at member
    obtain ⟨action, among, member⟩ := mem_flatMap.mp member
    exact mem_flatMap.mpr ⟨action, among, Plan.effects_of_parts action member⟩

/-- A compound statement collects what the expressions at the heads of its clauses do. -/
theorem collects_heads {q : Progress} (compound : n.kind.isCompound = true)
    (all : ∀ e, e ∈ asks ↔ e ∈ n.headParts)
    (collects : Collects i (readUses env asks) (partEffects env asks) p q) :
    Collects i (ownUses env n) (partEffects env n.ownParts) p q := by
  have same : ∀ e, e ∈ asks ↔ e ∈ n.ownParts := fun e => (all e).trans (mem_headParts compound)
  rw [ownUses, if_pos compound]
  refine collects.congr (fun u => ?_) fun d member => ?_
  · simp only [readUses, mem_flatMap, same]
  · simpa only [partEffects, mem_flatMap, same] using member

end Progress

/-- Every visit of a statement leaves facts that tell what the statement does by itself. -/
theorem recorded_of_visit (allowed : 0 < env.passes) (plain : n.ModuleFree)
    (parent : Option Nat) (fits : i ≤ p.facts.size)
    (before : ∀ f, p.facts[i]? = some f → f.node = n ∧ f.Recorded env) :
    ∀ h, ((nodePlan parent i n).run env p).facts[i]? = some h → h.node = n ∧ h.Recorded env := by
  by_cases compound : n.kind.isCompound = true
  · obtain ⟨around, rfl⟩ := exists_around parent
    have lies : (nodePlan (around.map Prod.fst) i n).Lies (fun _ _ _ => True) Plan.Bare none i
      (i + n.extent) :=
      standing (fun _ _ n _ => bare_headActions n) n plain none around i fun _ _ => trivial
    obtain ⟨asks, q, parts, leads, run⟩ :=
      (PlanInvariant.kept_serves env i).node allowed compound lies trivial
    have collects := (leads (Nat.lt_succ_self i)).1 rfl
    rw [run]
    exact Progress.recorded_visit fits before
      (Progress.collects_heads compound parts collects) p.state
  · have flat := Bool.eq_false_iff.mpr compound
    rw [nodePlan_flat flat]
    exact Progress.recorded_visit fits before (Progress.collects_perform flat env i _) p.state

/-! ### Blocks -/

/-- What the analysis of a block finds, if the parameters have their values in front of it: of a
module, or of the body of a function or class. -/
def blockResult (env : Env) (params : List String) (code : List Node) : Result :=
  (visitBlock (env.forBlock params code) none 0 code (.start (parameterState params))).result

theorem upheld_recorded (allowed : 0 < env.passes) :
    Upheld env fun i n p => ∀ f, p.facts[i]? = some f → f.node = n ∧ f.Recorded env where
  within := fun {i n _ _} alike _ recorded f found =>
    recorded f
      (((alike i (Nat.le_refl i) (Nat.lt_add_of_pos_right
        (Nat.succ_pos n.statements.length))).1).symm.trans found)
  visit := fun plain parent _ _ fits _ recorded => recorded_of_visit allowed plain parent fits
    recorded

/-- The facts of every statement of a block tell what the statement does by itself. -/
theorem recorded_blockResult (env : Env) (params : List String) {code : List Node}
    (plain : ∀ c ∈ code, c.ModuleFree)
    (member : f ∈ (blockResult env params code).statements) : f.Recorded env := by
  have allowed : 0 < (env.forBlock params code).passes := Nat.succ_pos _
  obtain ⟨k, found⟩ := Array.mem_iff_getElem?.mp member
  obtain ⟨place, spot, _⟩ := (filled_visitBlock allowed plain (parameterState params)).1 k f found
  have stated := stated_blockPlaces ∅ [] (mem_of_getElem? spot)
  rw [index_of_getElem? spot] at stated
  obtain ⟨_, uses, effects⟩ := upheld_visitBlock (upheld_recorded allowed) allowed plain
    (fun _ _ _ none => nomatch none) stated.here f found
  refine ⟨fun u => ?_, effects⟩
  rw [uses, ownUses, flatActions_forBlock]
  rfl

end Flow

end Lineage
