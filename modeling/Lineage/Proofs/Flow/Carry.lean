import Lineage.Proofs.Flow.Regular
import Lineage.Proofs.Flow.NoStarPlan
import Mathlib.Data.List.Forall2

/-!
The analysis of a block behind another. Analysed alone, a block finds some names to have their value
from before it; behind another block, these have the origins from the end of that block, and all
indices are greater. Both analyses go side by side: since what reaches the end of the first block is
never nothing and lies below the indices of the second, two states of the second block differ alone
if and only if they differ behind the first, so all loops take the same number of passes.
-/

namespace Lineage.Flow

open List Std

variable {a i : Nat} {earlier : Origins} {f g : StatementFacts}

/-- An origin in a block as it is seen behind so many statements. -/
def Origin.shift (a : Nat) : Origin → Origin
  | .statement k => .statement (a + k)
  | other => other

/-- The origins of a name in a block as they are behind another block of so many statements: what
the name has from before is what the other block leaves it. -/
def Origins.behind (own : Origins) (a : Nat) (earlier : Origins) : Origins :=
  ExtTreeSet.ofList ((own.erase .entry).toList.map (Origin.shift a)) ∪
    if .entry ∈ own then earlier else ∅

theorem Origins.mem_behind {own : Origins} {origin : Origin} :
    origin ∈ own.behind a earlier ↔
      (∃ o ∈ own, o ≠ .entry ∧ o.shift a = origin) ∨ (.entry ∈ own ∧ origin ∈ earlier) := by
  unfold behind
  rw [ExtTreeSet.mem_union_iff]
  refine or_congr ?_ ?_
  · simp only [ExtTreeSet.mem_ofList, contains_iff_mem, mem_map, ExtTreeSet.mem_toList,
      ExtTreeSet.mem_erase, ne_eq, Std.LawfulEqOrd.compare_eq_iff_eq]
    constructor
    · rintro ⟨o, ⟨other, member⟩, same⟩
      exact ⟨o, member, fun entry => other entry.symm, same⟩
    · rintro ⟨o, member, other, same⟩
      exact ⟨o, ⟨fun entry => other entry.symm, member⟩, same⟩
  · by_cases inherited : .entry ∈ own
    · simp [inherited]
    · simp [inherited]

theorem Origins.entry_mem_behind {own : Origins} : .entry ∈ own.behind a earlier ↔ .entry ∈ own ∧
    .entry ∈ earlier := by
  rw [mem_behind]
  refine or_iff_right ?_
  rintro ⟨o, _, other, same⟩
  cases o
  case entry => exact other rfl
  all_goals exact nomatch same

theorem Origins.behind_union (one two : Origins) (a : Nat) (earlier : Origins) :
    (one ∪ two).behind a earlier = one.behind a earlier ∪ two.behind a earlier := by
  ext origin
  simp only [mem_behind, ExtTreeSet.mem_union_iff, or_and_right, exists_or]
  grind

/-- The origins come from before a block, or from its statements, of which there are so many. -/
def Origins.Ends (a : Nat) (earlier : Origins) : Prop :=
  (∃ o, o ∈ earlier) ∧ ∀ o ∈ earlier, o = .entry ∨ ∃ k < a, o = .statement k

theorem Origins.mem_of_behind {one two : Origins} (ends : earlier.Ends a)
    (below : ∀ o ∈ one.behind a earlier, o ∈ two.behind a earlier) {origin : Origin}
    (member : origin ∈ one) : origin ∈ two := by
  by_cases inherited : origin = .entry
  · -- What the other block leaves is something, and no statement of the own block.
    subst inherited
    obtain ⟨⟨o, inside⟩, bounded⟩ := ends
    rcases mem_behind.mp (below o (mem_behind.mpr (Or.inr ⟨member, inside⟩))) with ⟨moved, _, other,
      same⟩ | ⟨own, _⟩
    · rcases bounded o inside with rfl | ⟨k, less, rfl⟩
      · cases moved
        case entry => exact absurd rfl other
        all_goals exact nomatch same
      · cases moved
        case statement l =>
          have sum := Origin.statement.inj same
          omega
        all_goals exact nomatch same
    · exact own
  · rcases mem_behind.mp (below _ (mem_behind.mpr (Or.inl ⟨origin, member, inherited, rfl⟩))) with
      ⟨moved, own, other, same⟩ | ⟨_, inside⟩
    · cases origin <;> cases moved <;> simp_all [Origin.shift]
    · rcases ends.2 _ inside with same | ⟨k, less, same⟩
      · cases origin
        case entry => exact absurd rfl inherited
        all_goals exact nomatch same
      · cases origin
        case statement l =>
          have sum := Origin.statement.inj same
          omega
        all_goals exact nomatch same

/-- UnderLeader a block, origins are the same only if they are the same alone. -/
theorem Origins.behind_inj {one two : Origins} (ends : earlier.Ends a) :
    one.behind a earlier = two.behind a earlier ↔ one = two := by
  constructor
  · intro same
    ext origin
    exact ⟨mem_of_behind ends fun o member => same ▸ member, mem_of_behind ends
      fun o member => same ▸ member⟩
  · rintro rfl
    rfl

/-- An analysis that has come to the end of a block. -/
structure Progress.Ended (base : Progress) : Prop where
  index : ∀ (k : Nat) (f : StatementFacts), base.facts[k]? = some f → f.index < base.facts.size
  state : ∀ name, (base.state.reaching name).Ends base.facts.size

namespace State

/-- The second state is the first as it is behind a block that has been analysed. -/
def Carried (base : Progress) (s t : State) : Prop :=
  ∀ name, t.reaching name = (s.reaching name).behind base.facts.size (base.state.reaching name)

variable {base : Progress} {s t s' t' : State}

theorem Carried.merge (first : s.Carried base t) (second : s'.Carried base t') :
    (s.merge s').Carried base (t.merge t') := by
  intro name
  rw [reaching_merge, reaching_merge, first name, second name, Origins.behind_union]

theorem Carried.define (carried : s.Carried base t) (i : Nat) (d : Definition) :
    (s.define i d).Carried base (t.define (base.facts.size + i) d) := by
  intro name
  ext origin
  rw [Origins.mem_behind]
  simp only [mem_reaching_define, carried name, Origins.mem_behind]
  constructor
  · rintro (⟨own, rfl⟩ | ⟨other, ⟨o, reaches, apart, rfl⟩ | ⟨inherited, inside⟩⟩)
    · exact Or.inl ⟨.statement i, Or.inl ⟨own, rfl⟩, nofun, rfl⟩
    · exact Or.inl ⟨o, Or.inr ⟨other, reaches⟩, apart, rfl⟩
    · exact Or.inr ⟨Or.inr ⟨other, inherited⟩, inside⟩
  · rintro (⟨o, ⟨own, rfl⟩ | ⟨other, reaches⟩, apart, rfl⟩ | ⟨⟨_, none⟩ | ⟨other, inherited⟩,
      inside⟩)
    · exact Or.inl ⟨own, rfl⟩
    · exact Or.inr ⟨other, Or.inl ⟨o, reaches, apart, rfl⟩⟩
    · exact nomatch none
    · exact Or.inr ⟨other, Or.inr ⟨inherited, inside⟩⟩

/-- States are the same behind a block if and only if they are the same alone. -/
theorem Carried.same (ended : base.Ended) (first : s.Carried base t) (second : s'.Carried base t') :
    t.same t' = s.same s' := by
  rw [Bool.eq_iff_iff, same_iff, same_iff]
  refine forall_congr' fun name => ?_
  rw [first name, second name, Origins.behind_inj (ended.state name)]

/-- States of both analyses that belong together, each without anything said of all names at once,
and the first in the scope of its block. -/
structure Tied (base : Progress) (scope : Scope) (s t : State) : Prop where
  carried : s.Carried base t
  plain : s.Plain
  other : t.Plain
  within : s.Within scope

variable {scope : Scope}

theorem Tied.merge (first : s.Tied base scope t) (second : s'.Tied base scope t') :
    (s.merge s').Tied base scope (t.merge t') :=
  ⟨first.carried.merge second.carried, first.plain.merge second.plain,
    first.other.merge second.other, first.within.merge second.within⟩

theorem Tied.join (first : s.Tied base scope t) {states others : List State}
    (rest : List.Forall₂ (Tied base scope) states others) :
    (State.join (s :: states)).Tied base scope (State.join (t :: others)) := by
  induction rest generalizing s t with
  | nil => rwa [join_singleton, join_singleton]
  | cons head _ ih =>
    rw [join_cons (cons_ne_nil _ _), join_cons (cons_ne_nil _ _)]
    exact first.merge (ih head)

end State

/-- What is known of a statement in both analyses. UnderLeader the block, it depends on those
statements of the block that reach a name of which it reads the value from before. -/
structure StatementFacts.Carried (base : Progress) (f g : StatementFacts) : Prop where
  index : g.index = base.facts.size + f.index
  node : g.node = f.node
  entry : f.entry.Carried base g.entry
  globalWrites : g.globalWrites = f.globalWrites
  external : ∀ name, name ∈ g.external ↔ name ∈ f.external ∧ .entry ∈ base.state.reaching name
  inbound : ∀ edge, edge ∈ g.inbound ↔ edge ∈ f.inbound ∨ ∃ name ∈ f.external, ∃ k source,
    .statement k ∈ base.state.reaching name ∧ base.facts[k]? = some source ∧
      edge = ⟨.data, source.location, f.location, some name⟩

theorem StatementFacts.Carried.location {base : Progress} (carried : f.Carried base g) :
    g.location = f.location :=
  congrArg Node.loc carried.node

namespace Progress

/-- Both analyses have come to the same place: the first that of a block alone, the second that of
the block behind another. In front of the block there were the jumps of the second already. -/
structure Together (base : Progress) (scope : Scope) (breaks continues : List State)
    (p q : Progress) : Prop where
  state : p.state.Tied base scope q.state
  heads : ∀ k : Nat, Option.Rel (State.Tied base scope) p.heads[k]? q.heads[base.facts.size + k]?
  breaks : ∃ late, q.breaks = breaks ++ late ∧ List.Forall₂ (State.Tied base scope) p.breaks late
  continues : ∃ late, q.continues = continues ++ late ∧
    List.Forall₂ (State.Tied base scope) p.continues late
  size : q.facts.size = base.facts.size + p.facts.size
  before : ∀ k < base.facts.size, q.facts[k]? = base.facts[k]?
  facts : ∀ (k : Nat) (f g : StatementFacts), p.facts[k]? = some f → q.facts[base.facts.size + k]? =
    some g → f.Carried base g
  noStar : p.NoStar
  other : q.NoStar
  sane : p.Sane scope

namespace Together

variable {base : Progress} {scope : Scope} {breaks continues : List State} {p q : Progress}

section

variable (together : Together base scope breaks continues p q)

include together

theorem partner {k : Nat} (found : p.facts[k]? = some f) :
    ∃ g, q.facts[base.facts.size + k]? = some g ∧ f.Carried base g := by
  obtain ⟨inside, _⟩ := Array.getElem?_eq_some_iff.mp found
  have bound : base.facts.size + k < q.facts.size := by
    rw [together.size]
    omega
  exact ⟨_, Array.getElem?_eq_getElem bound, together.facts k f _ found
    (Array.getElem?_eq_getElem bound)⟩

theorem owner {k : Nat}
    (found : q.facts[base.facts.size + k]? = some g) : ∃ f, p.facts[k]? = some f ∧
    f.Carried base g := by
  obtain ⟨inside, _⟩ := Array.getElem?_eq_some_iff.mp found
  have bound : k < p.facts.size := by
    rw [together.size] at inside
    omega
  exact ⟨_, Array.getElem?_eq_getElem bound,
    together.facts k _ g (Array.getElem?_eq_getElem bound) found⟩

theorem resume {s t : State} (tied : s.Tied base scope t) :
    Together base scope breaks continues (p.resume s) (q.resume t) :=
  { together with
    state := tied
    noStar := together.noStar.resume tied.plain
    other := together.other.resume tied.other
    sane := together.sane.resume tied.within }

theorem revise {change move : StatementFacts → StatementFacts}
    (each : ∀ f g : StatementFacts, f.Carried base g → (change f).Carried base (move g))
    (noStar : (p.revise i change).NoStar) (other : (q.revise (base.facts.size + i) move).NoStar)
    (sane : (p.revise i change).Sane scope) :
    Together base scope breaks continues (p.revise i change)
    (q.revise (base.facts.size + i) move) := by
  refine { together with
    size := ?_, before := fun k less => ?_, facts := fun k f g found there => ?_, noStar,
      other, sane }
  · simp only [Progress.revise, Array.size_modify, together.size]
  · rw [Progress.revise, Array.getElem?_modify, if_neg (by omega)]
    exact together.before k less
  · simp only [Progress.revise, Array.getElem?_modify, Nat.add_right_inj] at found there
    split at found
    · rename_i same
      subst same
      rw [if_pos rfl] at there
      obtain ⟨f', foundF, rfl⟩ := Option.map_eq_some_iff.mp found
      obtain ⟨g', foundG, rfl⟩ := Option.map_eq_some_iff.mp there
      exact each f' g' (together.facts i f' g' foundF foundG)
    · rename_i apart
      rw [if_neg apart] at there
      exact together.facts k f g found there

end

/-- The statements that reach a name behind the block are those that reach it alone, and those of
the block in front of it if the name has its value from before. -/
theorem reaches_iff (ended : base.Ended) (together : Together base scope breaks continues p q)
    {name : String} {P : StatementFacts → Prop} :
    (∃ l source, .statement l ∈ q.state.reaching name ∧ q.facts[l]? = some source ∧ P source) ↔
      (∃ k source own, .statement k ∈ p.state.reaching name ∧ p.facts[k]? = some own ∧
          q.facts[base.facts.size + k]? = some source ∧ own.Carried base source ∧ P source) ∨
        .entry ∈ p.state.reaching name ∧ ∃ k source, .statement k ∈ base.state.reaching name ∧
          base.facts[k]? = some source ∧ P source := by
  simp only [together.state.carried name, Origins.mem_behind]
  constructor
  · rintro ⟨l, source, ⟨o, reaches, moved, same⟩ | ⟨inherited, inside⟩, found, holds⟩
    · cases o
      case statement k =>
        obtain rfl := Origin.statement.inj same
        obtain ⟨own, there, carried⟩ := together.owner found
        exact Or.inl ⟨k, source, own, reaches, there, found, carried, holds⟩
      all_goals exact nomatch same
    · obtain none | ⟨k, less, same⟩ := (ended.state name).2 _ inside
      · exact nomatch none
      · obtain rfl := Origin.statement.inj same
        exact Or.inr ⟨inherited, l, source, inside, together.before l less ▸ found, holds⟩
  · rintro (⟨k, source, _, reaches, _, found, _, holds⟩ | ⟨inherited, k, source, inside,
      found, holds⟩)
    · exact ⟨base.facts.size + k, source, Or.inl ⟨.statement k, reaches, nofun, rfl⟩, found, holds⟩
    · have less := (Array.getElem?_eq_some_iff.mp found).1
      exact ⟨k, source, Or.inr ⟨inherited, inside⟩, (together.before k less).trans found, holds⟩

theorem carried_use (ended : base.Ended) (together : Together base scope breaks continues p q)
    {u : Use}
    (single : u.name ≠ allNames) (carried : f.Carried base g) :
    (f.use p.facts p.state u).Carried base (g.use q.facts q.state u) := by
  have alone := f.reads_use together.noStar.state single p.facts
  have behind := g.reads_use together.other.state single q.facts
  have stays : (f.use p.facts p.state u).location = f.location := congrArg Node.loc alone.node
  refine ⟨?_, ?_, ?_, ?_, fun name => ?_, fun edge => ?_⟩
  · rw [behind.index, alone.index, carried.index]
  · rw [behind.node, alone.node, carried.node]
  · rw [behind.entry, alone.entry]
    exact carried.entry
  · rw [behind.globalWrites, alone.globalWrites, carried.globalWrites]
  · rw [behind.external, alone.external, carried.external, together.state.carried u.name,
      Origins.entry_mem_behind]
    constructor
    · rintro (⟨read, inherited⟩ | ⟨rfl, own, inherited⟩)
      · exact ⟨Or.inl read, inherited⟩
      · exact ⟨Or.inr ⟨rfl, own⟩, inherited⟩
    · rintro ⟨read | ⟨rfl, own⟩, inherited⟩
      · exact Or.inl ⟨read, inherited⟩
      · exact Or.inr ⟨rfl, own, inherited⟩
  · rw [behind.inbound, alone.inbound, carried.inbound, reaches_iff ended together, stays]
    simp only [alone.external, carried.location]
    constructor
    · rintro ((edge | ⟨name, read, rest⟩) | ⟨k, source, own, reaches, found, _, same, apart, rfl⟩ |
        ⟨inherited, k, source, inside, found, _, rfl⟩)
      · exact Or.inl (Or.inl edge)
      · exact Or.inr ⟨name, Or.inl read, rest⟩
      · refine Or.inl (Or.inr ⟨k, own, reaches, found, fun equal => apart ?_, ?_⟩)
        · rw [same.index, carried.index, equal]
        · rw [same.location]
      · exact Or.inr ⟨u.name, Or.inr ⟨rfl, inherited⟩, k, source, inside, found, rfl⟩
    · rintro ((edge | ⟨k, own, reaches, found, apart, rfl⟩) | ⟨name, read | ⟨rfl, inherited⟩, rest⟩)
      · exact Or.inl (Or.inl edge)
      · obtain ⟨source, there, same⟩ := together.partner found
        refine Or.inr (Or.inl ⟨k, source, own, reaches, found, there, same,
          fun equal => apart ?_, ?_⟩)
        · rw [same.index, carried.index] at equal
          omega
        · rw [same.location]
      · exact Or.inl (Or.inr ⟨name, read, rest⟩)
      · obtain ⟨k, source, inside, found, rfl⟩ := rest
        refine Or.inr (Or.inr ⟨inherited, k, source, inside, found, ?_, rfl⟩)
        have less := ended.index k source found
        rw [carried.index]
        omega

theorem use (ended : base.Ended) (together : Together base scope breaks continues p q) (i : Nat)
    {u : Use} (single : u.name ≠ allNames) : Together base scope breaks continues (p.use i u)
    (q.use (base.facts.size + i) u) :=
  together.revise (fun _ _ carried => carried_use ended together single carried)
    (together.noStar.use i single) (together.other.use _ single) (together.sane.use u)

theorem define (together : Together base scope breaks continues p q) (below : i < scope.bound)
    {d : Definition} (known : d.name ∈ scope.names) (single : d.name ≠ allNames) :
    Together base scope breaks continues (p.define i d) (q.define (base.facts.size + i) d) := by
  have noStar := together.noStar.define i single
  have other := together.other.define (base.facts.size + i) single
  have sane := together.sane.define below known
  have tied : (p.state.define i d).Tied base scope (q.state.define (base.facts.size + i) d) :=
    ⟨together.state.carried.define i d, noStar.state, other.state, sane.state⟩
  have revised : Together base scope breaks continues (p.revise i fun f => f.define d)
      (q.revise (base.facts.size + i) fun f => f.define d) := by
    refine together.revise (fun f g carried => ?_) { noStar with state := together.noStar.state }
      { other with state := together.other.state } { sane with state := together.sane.state }
    exact ⟨carried.index, carried.node, carried.entry, carried.globalWrites, carried.external,
      carried.inbound⟩
  exact revised.resume tied

theorem uses (ended : base.Ended) (together : Together base scope breaks continues p q) (i : Nat)
    {us : List Use} (single : ∀ u ∈ us, u.name ≠ allNames) : Together base scope breaks continues
      (us.foldl (fun p u => p.use i u) p)
      (us.foldl (fun q u => q.use (base.facts.size + i) u) q) := by
  induction us generalizing p q with
  | nil => exact together
  | cons u rest ih =>
    obtain ⟨own, others⟩ := forall_mem_cons.mp single
    exact ih (together.use ended i own) others

section

variable (together : Together base scope breaks continues p q)

include together

theorem defineAll (below : i < scope.bound)
    {ds : List Definition} (known : ∀ d ∈ ds, d.name ∈ scope.names)
    (single : ∀ d ∈ ds, d.name ≠ allNames) : Together base scope breaks continues (p.defineAll i ds)
    (q.defineAll (base.facts.size + i) ds) := by
  induction ds generalizing p q with
  | nil => exact together
  | cons d rest ih =>
    obtain ⟨own, others⟩ := forall_mem_cons.mp single
    obtain ⟨mine, theirs⟩ := forall_mem_cons.mp known
    exact ih (together.define below mine own) theirs others

theorem push (carried : f.Carried base g)
    (noStar : NoStar { p with facts := p.facts.push f })
    (other : NoStar { q with facts := q.facts.push g })
      (sane : Sane scope { p with facts := p.facts.push f }) : Together base scope breaks continues
        { p with facts := p.facts.push f } { q with facts := q.facts.push g } := by
  refine { together with
    size := ?_, before := fun k less => ?_, facts := fun k f' g' found there => ?_, noStar,
      other, sane }
  · simp only [Array.size_push, together.size, Nat.add_assoc]
  · have apart : k ≠ q.facts.size := by
      rw [together.size]
      omega
    rw [Array.getElem?_push, if_neg apart]
    exact together.before k less
  · simp only [Array.getElem?_push, together.size, Nat.add_right_inj] at found there
    split at found
    · rename_i last
      rw [if_pos last] at there
      obtain rfl := Option.some.inj found
      obtain rfl := Option.some.inj there
      exact carried
    · rename_i apart
      rw [if_neg apart] at there
      exact together.facts k f' g' found there

theorem carried_fresh (parent other : Option Nat) (i : Nat)
    (n : Node) : (StatementFacts.fresh i n parent p.state).Carried base
      (.fresh (base.facts.size + i) n other q.state) where
  index := rfl
  node := rfl
  entry := together.state.carried
  globalWrites := rfl
  external name := by
    simp [StatementFacts.fresh]
  inbound edge := by
    simp [StatementFacts.fresh]

end

theorem carried_control {source there : StatementFacts} (carried : f.Carried base g)
    (same : source.Carried base there) :
    (f.dependOn .control source none).Carried base (g.dependOn .control there none) := by
  unfold StatementFacts.dependOn
  by_cases own : source.index = f.index
  · rw [if_pos own, if_pos (by rw [same.index, carried.index, own])]
    exact carried
  · rw [if_neg own, if_neg (by rw [same.index, carried.index]; omega)]
    refine ⟨carried.index, carried.node, carried.entry, carried.globalWrites, carried.external,
      fun edge => ?_⟩
    simp only [StatementFacts.mem_addNew_iff, carried.inbound, same.location, carried.location,
      or_assoc]
    exact or_congr_right or_comm

theorem enter (together : Together base scope breaks continues p q) (parent : Option Nat) (i : Nat)
    (n : Node) : Together base scope breaks continues (p.enter parent i n)
      (q.enter (parent.map (base.facts.size + ·)) (base.facts.size + i) n) := by
  have noStar := together.noStar.enter parent i n
  have other := together.other.enter (parent.map (base.facts.size + ·)) (base.facts.size + i) n
  have sane := together.sane.enter parent i n
  unfold Progress.enter at noStar other sane ⊢
  by_cases inside : i < p.facts.size
  · have within : base.facts.size + i < q.facts.size := by
      rw [together.size]
      omega
    rw [if_pos inside] at noStar sane
    rw [if_pos within] at other
    rw [if_pos inside, if_pos within]
    refine together.revise (fun f g carried => ?_) noStar other sane
    exact { carried with entry := carried.entry.merge together.state.carried }
  · have outside : ¬ base.facts.size + i < q.facts.size := by
      rw [together.size]
      omega
    rw [if_neg inside] at noStar sane
    rw [if_neg outside] at other
    rw [if_neg inside, if_neg outside]
    have fresh := carried_fresh together parent (parent.map (base.facts.size + ·)) i n
    refine together.push ?_ noStar other sane
    cases parent with
    | none => exact fresh
    | some k =>
      rw [Option.map_some, Option.bind_some, Option.bind_some]
      cases found : p.facts[k]? with
      | none =>
        have none : q.facts[base.facts.size + k]? = .none := by
          rw [Array.getElem?_eq_none_iff] at found ⊢
          rw [together.size]
          omega
        rw [none]
        exact fresh
      | some source =>
        obtain ⟨there, foundThere, same⟩ := together.partner found
        rw [foundThere]
        exact carried_control fresh same

end Together

end Progress

/-- Calling what a name holds assigns what the statements assign that reach it, and what is assigned
from before. -/
theorem Progress.mem_writesOf_iff {env : Env} {p : Progress} {callee name : String} :
    name ∈ p.writesOf env callee ↔ (∃ k source, .statement k ∈ p.state.reaching callee ∧
      p.facts[k]? = some source ∧ name ∈ source.globalWrites) ∨ .entry ∈ p.state.reaching callee ∧
      name ∈ env.writes.getD callee ∅ := by
  rw [mem_writesOf]
  constructor
  · rintro ⟨origin, reaches, written⟩
    cases origin with
    | parameter => exact absurd written ExtTreeSet.not_mem_empty
    | entry => exact Or.inr ⟨reaches, written⟩
    | statement k =>
      rw [writesFrom] at written
      cases found : p.facts[k]? with
      | none =>
        rw [found] at written
        exact absurd written ExtTreeSet.not_mem_empty
      | some source =>
        rw [found] at written
        exact Or.inl ⟨k, source, reaches, found, written⟩
  · rintro (⟨k, source, reaches, found, written⟩ | ⟨reaches, written⟩)
    · refine ⟨.statement k, reaches, ?_⟩
      rw [writesFrom, found]
      exact written
    · exact ⟨.entry, reaches, written⟩

/-- The environments of a block alone and behind another. What functions from before assign is, for
the block alone, what those assign that the names are bound to at the end of the other block. Alone,
loops have enough passes to settle, and behind the other block no fewer. -/
structure Boundary (settings : Settings) (names : NameSet) (base : Progress) (scope : Scope)
    (env other : Env) : Prop where
  ended : base.Ended
  star : allNames ∉ names
  named : ∀ name ∈ names, name ∈ scope.names
  proper : env.Proper settings
  likewise : other.Proper settings
  writes : ∀ callee name, name ∈ env.writes.getD callee ∅ ↔
    (∃ k source, .statement k ∈ base.state.reaching callee ∧ base.facts[k]? = some source ∧
      name ∈ source.globalWrites) ∨ .entry ∈ base.state.reaching callee ∧
      name ∈ other.writes.getD callee ∅
  known : env.Known scope.names
  enough : scope.names.size * (scope.bound + 2) < env.passes
  passes : env.passes ≤ other.passes
  keep : other.keepHeads = env.keepHeads

namespace Boundary

variable {settings : Settings} {names : NameSet} {base : Progress} {scope : Scope} {env other : Env}
  {breaks continues : List State} {p q : Progress}

section

variable (boundary : Boundary settings names base scope env other)

include boundary

theorem pure : other.isPure = env.isPure := by
  funext callee
  rw [Env.isPure, Env.isPure, boundary.proper.settings, boundary.likewise.settings]

/-- Calls assign the same. -/
theorem writesOf
    (together : Progress.Together base scope breaks continues p q) (callee : String) :
    q.writesOf other callee = p.writesOf env callee := by
  ext name
  rw [Progress.mem_writesOf_iff, Progress.mem_writesOf_iff, together.reaches_iff boundary.ended,
    together.state.carried callee, Origins.entry_mem_behind, boundary.writes]
  constructor
  · rintro ((⟨k, source, own, reaches, found, _, carried, written⟩ | ⟨inherited,
      rest⟩) | ⟨⟨inherited, inside⟩, written⟩)
    · exact Or.inl ⟨k, own, reaches, found, carried.globalWrites ▸ written⟩
    · exact Or.inr ⟨inherited, Or.inl rest⟩
    · exact Or.inr ⟨inherited, Or.inr ⟨inside, written⟩⟩
  · rintro (⟨k, own, reaches, found, written⟩ | ⟨inherited, rest | ⟨inside, written⟩⟩)
    · obtain ⟨source, there, carried⟩ := together.partner found
      exact Or.inl (Or.inl ⟨k, source, own, reaches, found, there, carried,
        carried.globalWrites.symm ▸ written⟩)
    · exact Or.inl (Or.inr ⟨inherited, rest⟩)
    · exact Or.inr ⟨⟨inherited, inside⟩, written⟩

theorem evaluate
    (together : Progress.Together base scope breaks continues p q) (below : i < scope.bound)
    {es : List Node} (tame : ∀ e ∈ es, Tame settings names e) :
      Progress.Together base scope breaks continues (p.evaluate env i es)
      (q.evaluate other (base.facts.size + i) es) := by
  obtain ⟨reads, single⟩ := together.noStar.clear_evaluation boundary.proper boundary.star tame
  have unknown : ∀ env : Env, env.Proper settings → ∀ e ∈ es, e.runsUnknown env.settings =
      false := by
    intro env proper
    rw [proper.settings]
    exact fun e among => (tame e among).1
  have definitions : q.evaluationDefinitions other = p.evaluationDefinitions env :=
    Progress.evaluationDefinitions_eq boundary.pure (boundary.writesOf together)
  rw [Progress.evaluate_eq_acts env i (unknown env boundary.proper) together.noStar.pending,
    Progress.evaluate_eq_acts other _ (unknown other boundary.likewise) together.other.pending,
    Progress.evaluationActions, Progress.evaluationActions, boundary.pure, definitions,
    Progress.acts_append, Progress.acts_append, Progress.acts_uses, Progress.acts_uses,
    Progress.acts_defines, Progress.acts_defines]
  refine (together.uses boundary.ended i fun u member => ?_).defineAll below (fun d member => ?_)
    fun d member => ?_
  · obtain ⟨e, among, member⟩ := mem_flatMap.mp member
    obtain ⟨r, read, rfl⟩ := mem_map.mp member
    exact reads e among r read
  · obtain ⟨e, among, member⟩ := mem_flatMap.mp member
    rcases Progress.Sane.named_evaluationDefinitions (tame e among).2 d member with own | ⟨callee,
      written⟩
    · exact boundary.named _ own
    · exact together.sane.written_writesOf boundary.known written
  · obtain ⟨e, among, member⟩ := mem_flatMap.mp member
    exact single e among d member

theorem act (together : Progress.Together base scope breaks continues p q)
    (below : i < scope.bound) {a : Action} (clear : a.Clear settings names) :
    Progress.Together base scope breaks continues (p.act env i a)
      (q.act other (base.facts.size + i) a) := by
  have noStar := together.noStar.act (i := i) boundary.proper boundary.star clear
  have likewise :=
    together.other.act (i := base.facts.size + i) boundary.likewise boundary.star clear
  cases a with
  | evaluate es => exact boundary.evaluate together below clear
  | define d =>
    exact together.define below (boundary.named _ clear) fun same => boundary.star (same ▸ clear)
  | use u => exact together.use boundary.ended i clear
  | close free writes =>
    refine together.revise (fun f g carried => ?_) noStar likewise ?_
    · refine ⟨carried.index, carried.node, carried.entry, ?_, carried.external, carried.inbound⟩
      rw [carried.globalWrites]
    · refine together.sane.revise i (fun f within => within) fun f name written => ?_
      exact (ExtTreeSet.mem_union_iff.mp written).imp_right
        fun own => boundary.named _ (clear name own)
  | «break» =>
    obtain ⟨late, same, tied⟩ := together.breaks
    refine { together with
      breaks := ⟨late ++ [q.state], ?_, ?_⟩, noStar, other := likewise, sane := ?_ }
    · rw [Progress.act, same, append_assoc]
    · exact rel_append tied (.cons together.state .nil)
    · refine { together.sane with breaks := ?_ }
      exact forall_mem_append.mpr
        ⟨together.sane.breaks, forall_mem_singleton.mpr together.sane.state⟩
  | «continue» =>
    obtain ⟨late, same, tied⟩ := together.continues
    refine { together with
      continues := ⟨late ++ [q.state], ?_, ?_⟩, noStar, other := likewise, sane := ?_ }
    · rw [Progress.act, same, append_assoc]
    · exact rel_append tied (.cons together.state .nil)
    · refine { together.sane with continues := ?_ }
      exact forall_mem_append.mpr
        ⟨together.sane.continues, forall_mem_singleton.mpr together.sane.state⟩

theorem loopStart
    (together : Progress.Together base scope breaks continues p q) (i : Nat) :
    (Flow.loopStart env i p).Tied base scope (Flow.loopStart other (base.facts.size + i) q) := by
  unfold Flow.loopStart
  rw [boundary.keep]
  by_cases keep : env.keepHeads = true
  · rw [if_pos keep, if_pos keep]
    have heads := together.heads i
    generalize p.heads[i]? = one at heads ⊢
    generalize q.heads[base.facts.size + i]? = two at heads ⊢
    cases heads with
    | none => exact together.state
    | some tied => exact tied.merge together.state
  · rw [if_neg keep, if_neg keep]
    exact together.state

/-- Both loops settle in the same pass. -/
theorem settle {body moved : Progress → Progress}
    (each : ∀ p q : Progress, base.Together scope [] [] p q → base.Together scope [] [] (body p)
    (moved q)) {passes more : Nat} (fewer : passes ≤ more) {head top : State}
    (enough : scope.names.size * (scope.bound + 2) < head.rank scope + passes)
    (tied : head.Tied base scope top) (together : base.Together scope [] [] p q) :
    (Progress.settle body passes head p).1.Tied base scope (Progress.settle moved more top q).1 ∧
      base.Together scope [] [] (Progress.settle body passes head p).2
      (Progress.settle moved more top q).2 := by
  induction passes generalizing more head top p q with
  | zero =>
    have most := head.rank_le scope
    omega
  | succ passes ih =>
    obtain ⟨more, rfl⟩ : ∃ rest, more = rest + 1 := ⟨more - 1, by omega⟩
    have passed := each _ _ (together.resume tied)
    obtain ⟨late, same, again⟩ := passed.continues
    rw [nil_append] at same
    have joined := tied.join (.cons passed.state (same ▸ again))
    have settled := joined.carried.same boundary.ended tied.carried
    rw [Progress.settle, Progress.settle, settled]
    by_cases done : (State.join (head :: (body (p.resume head)).state ::
      (body (p.resume head)).continues)).same head = true
    · rw [if_pos done, if_pos done]
      exact ⟨tied, passed⟩
    · rw [if_neg done, if_neg done]
      have more := State.rank_lt (State.below_join (mem_cons_self ..)) tied.within joined.within
        (Bool.eq_false_iff.mpr done)
      exact ih (by omega) (by omega) joined passed

end

/-- A loop that has settled is left with its head noted and the jumps of the loop around. -/
theorem restore {r t : Progress} (together : base.Together scope breaks continues p q)
    (inner : base.Together scope [] [] r t) (i : Nat) {head top : State}
    (tied : head.Tied base scope top) : base.Together scope breaks continues
      { r with state := head, heads := r.heads.insert i head, breaks := p.breaks, continues :=
      p.continues } { t with
        state := top, heads := t.heads.insert (base.facts.size + i) top, breaks :=
            q.breaks, continues := q.continues } where
  state := tied
  heads k := by
    rw [ExtTreeMap.getElem?_insert, ExtTreeMap.getElem?_insert]
    simp only [Std.LawfulEqOrd.compare_eq_iff_eq, Nat.add_right_inj]
    split
    · exact .some tied
    · exact inner.heads k
  breaks := together.breaks
  continues := together.continues
  size := inner.size
  before := inner.before
  facts := inner.facts
  noStar := inner.noStar.restore together.noStar i tied.plain
  other := inner.other.restore together.other _ tied.other
  sane := inner.sane.restore together.sane i tied.within

section

variable (boundary : Boundary settings names base scope env other)

include boundary

theorem loop {body moved orelse final : Progress → Progress}
    (each : ∀ p q : Progress, base.Together scope [] [] p q → base.Together scope [] [] (body p)
    (moved q)) (ends : ∀ p q : Progress, base.Together scope breaks continues p q →
      base.Together scope breaks continues (orelse p) (final q))
    (together : base.Together scope breaks continues p q) (i : Nat) :
      base.Together scope breaks continues (p.loop env i body orelse)
      (q.loop other (base.facts.size + i) moved final) := by
  have aside : base.Together scope [] [] { p with breaks := [], continues := [] }
      { q with breaks := [], continues := [] } :=
    { together with
      breaks := ⟨[], rfl, .nil⟩
      continues := ⟨[], rfl, .nil⟩
      noStar := { together.noStar with breaks := forall_mem_nil _, continues := forall_mem_nil _ }
      other := { together.other with breaks := forall_mem_nil _, continues := forall_mem_nil _ }
      sane := together.sane.aside }
  obtain ⟨tied, settled⟩ := boundary.settle each boundary.passes
    (Nat.lt_of_lt_of_le boundary.enough (Nat.le_add_left _ _)) (boundary.loopStart together i) aside
  have ended := ends _ _ (restore together settled i tied)
  obtain ⟨late, same, broken⟩ := settled.breaks
  rw [nil_append] at same
  exact ended.resume (ended.state.join (same ▸ broken))

theorem acts (below : i < scope.bound)
    {actions : List Action} (clear : ∀ a ∈ actions, a.Clear settings names)
    (together : base.Together scope breaks continues p q) :
      base.Together scope breaks continues (p.acts env i actions)
      (q.acts other (base.facts.size + i) actions) := by
  induction actions generalizing p q with
  | nil => exact together
  | cons a rest ih =>
    obtain ⟨own, others⟩ := forall_mem_cons.mp clear
    exact ih others (boundary.act together below own)

theorem flat {n : Node} (clear : Clear settings names n)
    (flat : n.kind.isCompound = false) (below : i < scope.bound)
    (together : base.Together scope breaks continues p q) :
      base.Together scope breaks continues (p.perform env i n)
      (q.perform other (base.facts.size + i) n) := by
  obtain ⟨smooth, _⟩ := Flow.smooth boundary.star n clear
  have akin : env.SameDynamicNames other := by rw [Env.SameDynamicNames, boundary.proper.settings,
    boundary.likewise.settings]
  obtain ⟨same, _⟩ := akin.flatActions_eq (clear.known.imp fun _ held => held.2.2)
  rw [Progress.perform_eq_acts env i n p clear.own.2.1,
    Progress.perform_eq_acts other _ n q clear.own.2.1, ← same]
  exact boundary.acts below ((smooth env boundary.proper).flat flat) together

end

/-- Where a statement is left, nothing is left to be done in either analysis. -/
theorem leave (together : base.Together scope breaks continues p q) (i : Nat) (n : Node)
    (s t : State) : base.Together scope breaks continues (p.leave i n s)
    (q.leave (base.facts.size + i) n t) := by
  rw [together.noStar.leave, together.other.leave]
  exact together

/-- Carrying out a plan alone and, moved, behind the other block keeps both analyses together. -/
theorem run (boundary : Boundary settings names base scope env other) {s : Plan} {own : Option Nat}
    {b : Nat} (lies : s.Lies (fun _ _ => Clear settings names) (Action.Clear settings names) own a
    b) (bound : b ≤ scope.bound) (together : base.Together scope breaks continues p q) :
    base.Together scope breaks continues (s.run env p) ((s.shift base.facts.size).run other q) ∧
      List.Forall₂ (State.Tied base scope) (s.stops env p)
      ((s.shift base.facts.size).stops other q) := by
  induction lies generalizing breaks continues p q with
  | skip =>
    simp only [Plan.shift, Plan.run, Plan.stops]
    exact ⟨together, .nil⟩
  | stop =>
    simp only [Plan.shift, Plan.run, Plan.stops]
    exact ⟨together, .cons together.state .nil⟩
  | acts below clear =>
    simp only [Plan.shift, Plan.run, Plan.stops]
    exact ⟨boundary.acts (Nat.lt_of_lt_of_le below bound) clear together, .nil⟩
  | @flat _ parent i n simple _ clear =>
    simp only [Plan.shift, Plan.run, Plan.stops]
    exact ⟨leave (boundary.flat clear simple bound (together.enter parent i n)) .., .nil⟩
  | @compound _ parent i n _ _ _ _ _ _ ih =>
    simp only [Plan.shift, Plan.run, Plan.stops]
    exact ⟨leave (ih bound (together.enter parent i n)).1 .., .nil⟩
  | @cycle _ parent i _ n before again _ _ _ _ _ clear _ _ _ body orelse ihBody ihOrelse =>
    obtain ⟨clearBefore, clearAgain⟩ := forall_mem_append.mp clear
    have inside := Nat.le_trans orelse.le bound
    have below : i < scope.bound := Nat.lt_of_lt_of_le body.le inside
    simp only [Plan.shift, Plan.run, Plan.stops]
    refine ⟨leave (boundary.loop (fun p q held => ?_) (fun p q held => ?_)
      (boundary.acts below clearBefore (together.enter parent i n)) i) .., .nil⟩
    · exact (ihBody inside (boundary.acts below clearAgain held)).1
    · exact (ihOrelse bound held).1
  | seq _ second ihFirst ihSecond =>
    obtain ⟨done, stopped⟩ := ihFirst (Nat.le_trans second.le bound) together
    obtain ⟨ended, later⟩ := ihSecond bound done
    simp only [Plan.shift, Plan.run, Plan.stops]
    exact ⟨ended, rel_append stopped later⟩
  | protect _ rescue after ihBody ihRescue ihAfter =>
    have inside := Nat.le_trans after.le bound
    obtain ⟨done, stopped⟩ := ihBody (Nat.le_trans rescue.le inside) together
    have rescued := (ihRescue inside (done.resume (together.state.join stopped))).1
    have ended := (ihAfter bound (rescued.resume done.state)).1
    simp only [Plan.shift, Plan.run, Plan.stops]
    exact ⟨ended.resume (ended.state.merge rescued.state), stopped⟩

/-- A block of clear statements alone, and behind the other block. -/
theorem visitBlock (boundary : Boundary settings names base scope env other) {code : List Node}
    (clear : ∀ c ∈ code, Clear settings names c) (bound : blockExtent code ≤ scope.bound)
    (together : base.Together scope breaks continues p q) :
    base.Together scope breaks continues (Flow.visitBlock env none 0 code p)
      (Flow.visitBlock other none base.facts.size code q) := by
  have lies := lies_of_clear (fun _ held => held) fun c member => (clear c member).throughout
  have moved : blockPlan none base.facts.size code =
      (blockPlan none 0 code).shift base.facts.size :=
    moved_blockPlan (fun c _ => moved _ c) none rfl
  rw [visitBlock_eq_plan, visitBlock_eq_plan, moved]
  rw [Nat.zero_add] at lies
  exact (boundary.run lies bound together).1

end Boundary

end Lineage.Flow
