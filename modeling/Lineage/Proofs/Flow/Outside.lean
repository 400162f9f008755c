import Lineage.Proofs.Flow.Founded

/-!
What calls never assign. No function assigns a name that stands nowhere in its text, and the
definition of a function binds no other names than its own and those that its parts and their calls
bind. So a statement that stands under the name for all names defines no function that assigns
anything.
-/

namespace Lineage.Flow

open List Std

namespace Progress

/-- A statement is not known to bind the name, and no function to assign it. -/
structure Spares (name : String) (i : Nat) (p : Progress) : Prop where
  own : ∀ f, p.facts[i]? = some f → ∀ d ∈ f.definitions, d.name ≠ name
  pending : ∀ d ∈ p.pending, d.name ≠ name
  written : ∀ (k : Nat) (f : StatementFacts), p.facts[k]? = some f → name ∉ f.globalWrites

namespace Spares

variable {env : Env} {name : String} {i : Nat} {p : Progress}

section

variable (spares : p.Spares name i)

include spares

theorem revise {c : StatementFacts → StatementFacts}
    (definitions : ∀ f : StatementFacts, ∀ d ∈ (c f).definitions, d ∈ f.definitions ∨ d.name ≠ name)
    (written : ∀ f : StatementFacts, name ∈ (c f).globalWrites → name ∈ f.globalWrites) :
    (p.revise i c).Spares name i := by
  refine ⟨fun g found d member => ?_, spares.pending, fun k g found => ?_⟩
  · rw [Progress.revise, Array.getElem?_modify, if_pos rfl] at found
    obtain ⟨f, before, rfl⟩ := Option.map_eq_some_iff.mp found
    exact (definitions f d member).elim (spares.own f before d) id
  · rw [Progress.revise, Array.getElem?_modify] at found
    split at found
    · obtain ⟨f, before, rfl⟩ := Option.map_eq_some_iff.mp found
      exact fun member => spares.written k f before (written f member)
    · exact spares.written k g found

theorem use (u : Use) : (p.use i u).Spares name i := by
  refine spares.revise (fun f d member => Or.inl ?_) fun f member => ?_
  · rwa [(f.notes_use p.facts p.state u).definitions] at member
  · rwa [(f.notes_use p.facts p.state u).globalWrites] at member

theorem define {d : Definition} (other : d.name ≠ name) : (p.define i d).Spares name i := by
  have revised : (p.revise i fun f => f.define d).Spares name i := by
    refine spares.revise (fun f e member => ?_) fun _ => id
    exact (StatementFacts.eq_or_mem_of_mem_addNew member).symm.imp_right
      fun same : e = d => same ▸ other
  exact ⟨revised.own, revised.pending, revised.written⟩

theorem not_mem_writesOf (quiet : ∀ callee, name ∉ env.writes.getD callee ∅)
    (callee : String) : name ∉ p.writesOf env callee := by
  intro member
  obtain ⟨origin, _, written⟩ := mem_writesOf.mp member
  cases origin with
  | parameter => exact ExtTreeSet.not_mem_empty written
  | entry => exact quiet callee written
  | statement k =>
    rw [writesFrom] at written
    cases found : p.facts[k]? with
    | none =>
      rw [found] at written
      exact ExtTreeSet.not_mem_empty written
    | some f =>
      rw [found] at written
      exact spares.written k f found written

/-- An expression that does not mention a name does not bind it, nor does a call in it. -/
theorem read (quiet : ∀ callee, name ∉ env.writes.getD callee ∅) {e : Node}
    (absent : name ∉ e.identifiers) : (p.read env i e).Spares name i := by
  unfold Progress.read
  have flagged : (if e.evaluated.any env.settings.runsUnknown then
      p.revise i fun f => { f with dynamic := true } else p).Spares name i := by
    split
    · exact spares.revise (fun _ _ => Or.inl) fun _ => id
    · exact spares
  have used : ∀ (us : List Use) {q : Progress}, q.Spares name i →
      (us.foldl (fun q u => q.use i u) q).Spares name i := by
    intro us
    induction us with
    | nil => exact id
    | cons u rest ih => exact fun spares => ih (spares.use u)
  have done := used ((e.reads env.isPure .bare).map useOfRead) flagged
  refine ⟨done.own, forall_mem_append.mpr ⟨done.pending, fun d member same => ?_⟩, done.written⟩
  have named : NamedIn (ExtTreeSet.ofList e.identifiers) e := by
    intro id member
    rwa [ExtTreeSet.mem_ofList, contains_iff_mem]
  rcases Sane.named_evaluationDefinitions named d member with own | ⟨callee, written⟩
  · rw [ExtTreeSet.mem_ofList, contains_iff_mem, same] at own
    exact absent own
  · exact spares.not_mem_writesOf quiet callee (same ▸ written)

theorem evaluate (quiet : ∀ callee, name ∉ env.writes.getD callee ∅) {es : List Node}
    (absent : ∀ e ∈ es, name ∉ e.identifiers) : (p.evaluate env i es).Spares name i := by
  have read : (p.readAll env i es).Spares name i := by
    induction es generalizing p with
    | nil => exact spares
    | cons e rest ih =>
      obtain ⟨own, others⟩ := forall_mem_cons.mp absent
      exact ih (spares.read quiet own) others
  have bound : ∀ (ds : List Definition) {q : Progress}, q.Spares name i →
      (∀ d ∈ ds, d.name ≠ name) → (q.defineAll i ds).Spares name i := by
    intro ds
    induction ds with
    | nil => exact fun spares _ => spares
    | cons d rest ih =>
      intro q spares others
      obtain ⟨own, others⟩ := forall_mem_cons.mp others
      exact ih (spares.define own) others
  exact bound _ ⟨read.own, forall_mem_nil _, read.written⟩ read.pending

end

end Spares

end Progress

/-- A function assigns only names that stand in its text. -/
theorem not_mem_outward {env : Env} {n : Node} {name : String} (absent : name ∉ n.identifiers) :
    name ∉ outward env n := by
  have declared : ∀ {m : Node} {code : List Node} {body : Result}, m ∈ n.nodes → code ⊆ m.children →
      name ∉ body.writesOutside (declaredOutside code) := by
    intro m code body below inside written
    rw [Result.writesOutside, ExtTreeSet.mem_ofList, contains_iff_mem] at written
    have outside := ExtTreeSet.contains_iff_mem.mp (mem_filter.mp written).2
    exact absent (Node.identifiers_subset below (declaredOutside_subset inside outside))
  cases n
  case function => exact declared (Node.mem_nodes_self _) (subset_append_right _ _)
  case decorated loc decorators definition =>
    cases definition
    case function =>
      exact declared (Node.children_subset _ (mem_append_right _ (mem_singleton_self _)))
        (subset_append_right _ _)
    all_goals exact ExtTreeSet.not_mem_empty
  all_goals exact ExtTreeSet.not_mem_empty

/-- What assigns anything outside is the definition of a function. It evaluates what stands in it
and binds its own name. -/
theorem actions_of_outward {env : Env} {n : Node} {name : String} (written : name ∈ outward env n) :
    n.kind.isDefinition = true ∧ ∃ es free d, flatActions env n =
      [.evaluate es, .close free (outward env n), .define d] ∧ es ⊆ n.nodes ∧
      d.name ∈ n.identifiers := by
  have parts := Node.evaluatedParts_subset n
  cases n
  case function => exact ⟨rfl, _, _, _, rfl, parts, Node.mem_identifiers_own rfl (mem_cons_self ..)⟩
  case decorated loc decorators definition =>
    cases definition
    case function =>
      refine ⟨rfl, _, _, _, rfl, parts, ?_⟩
      exact Node.identifiers_subset_of_child (mem_append_right _ (mem_singleton_self _))
        (Node.mem_identifiers_own (n := .function ..) rfl (mem_cons_self ..))
    all_goals exact absurd written ExtTreeSet.not_mem_empty
  all_goals exact absurd written ExtTreeSet.not_mem_empty

/-- A function is not known to be defined under the name. -/
def StatementFacts.Reserves (env : Env) (name : String) (f : StatementFacts) : Prop :=
  (∃ other, other ∈ outward env f.node) → ∀ d ∈ f.definitions, d.name ≠ name

section Module

variable {settings : Settings} {writes : GlobalWrites} {tree : Node} {name : String}

/-- Each visit of a function that assigns something binds other names than one that stands
nowhere. -/
theorem steady_reserves (settings : Settings) (absent : name ∉ tree.identifiers)
    (quiet : ∀ callee, name ∉ writes.getD callee ∅) :
    ((Trait.sound (.ofModule settings writes tree.code) (.ofBlock writes [] tree.code)
      (statementAt tree.code)).flats (StatementFacts.Reserves (.ofModule settings writes tree.code)
      name)).Steady (.ofModule settings writes tree.code)
      (Stated (.ofBlock writes [] tree.code) (statementAt tree.code))
      (Action.Plain (vocabulary writes [] tree.code)) := by
  have sound := Trait.steady_module settings writes tree.code
  refine sound.flats fun {i n p} parent stated flat fits held g found => ?_
  have entered := Progress.Kept.enter held.of_flats parent stated.here stated.below fits
  obtain ⟨f, foundF, reached⟩ := Progress.facts_enter parent n fits
  have node : f.node = n := Option.some.inj ((entered.fitting foundF).node.symm.trans stated.here)
  have works := (Progress.works_perform (.ofModule settings writes tree.code) i n
    (p.enter parent i n)).trans (Progress.works_leave i n p.state _)
  obtain ⟨_, found', grows⟩ := works.own f foundF
  obtain rfl := Option.some.inj (found.symm.trans found')
  rw [StatementFacts.Reserves, grows.node, node]
  rintro ⟨other, written⟩
  obtain ⟨defines, es, free, d, actions, inside, own⟩ := actions_of_outward written
  have missing := absent_of_statementAt absent stated.here
  have spares : (p.enter parent i n).Spares name i := by
    refine ⟨fun f' foundF' e member => ?_, ?_, fun k h foundH assigned => ?_⟩
    · obtain rfl := Option.some.inj (foundF.symm.trans foundF')
      rcases reached with ⟨before, foundB, rfl⟩ | ⟨_, _, _, _, _, _, _, _, none, _⟩
      · have known := held.facts.2 i before foundB (sound.here held.facts.1 stated foundB ▸ flat)
        exact known ⟨other, node ▸ written⟩ e member
      · exact absurd member (none ▸ not_mem_nil)
    · rw [entered.settled]
      exact forall_mem_nil _
    · have fitting := entered.fitting foundH
      exact not_mem_outward (absent_of_statementAt absent fitting.node)
        (fitting.writes name assigned)
  have performed : ((p.enter parent i n).perform (.ofModule settings writes tree.code) i n).Spares
      name i := by
    have known : n.kind ≠ .verbatim := fun verbatim => nomatch
      (congrArg Kind.isDefinition verbatim).symm.trans defines
    rw [Progress.perform_eq_acts _ _ _ _ known, actions]
    have told : ∀ callee, name ∉ (Env.ofModule settings writes tree.code).writes.getD callee ∅ :=
      quiet
    have evaluated := spares.evaluate told fun e (part : e ∈ es) mentioned =>
      missing (Node.identifiers_subset (inside part) mentioned)
    have closed : ((p.enter parent i n).acts (.ofModule settings writes tree.code) i
        [.evaluate es, .close free (outward (.ofModule settings writes tree.code) n)]).Spares
        name i := by
      refine evaluated.revise (fun _ _ => Or.inl) fun f assigned => ?_
      exact (ExtTreeSet.mem_union_iff.mp assigned).resolve_right (not_mem_outward missing)
    exact closed.define fun same => missing (same ▸ own)
  obtain ⟨inside, _⟩ := Array.getElem?_eq_some_iff.mp found
  rw [(Progress.works_leave i n p.state _).size] at inside
  obtain ⟨_, left, notes⟩ := Progress.facts_leave (Array.getElem?_eq_getElem inside) n p.state
  obtain rfl := Option.some.inj (found.symm.trans left)
  rw [notes.definitions, defines, Bool.or_true, Bool.not_true, Bool.and_false]
  exact performed.own _ (Array.getElem?_eq_getElem inside)

/-- If neither a module nor what it is told of its callees mentions a name, none of its functions
assigns it, and none that assigns anything may be found under it at the end. -/
theorem globalWrites_analyze {r : Result} (analyzed : analyze settings writes tree = .ok r)
    (absent : name ∉ tree.identifiers) (quiet : ∀ callee, name ∉ writes.getD callee ∅) :
    (∀ f ∈ r.statements, name ∉ f.globalWrites) ∧
      ∀ (k : Nat) (f : StatementFacts), r.statements[k]? = some f →
        .statement k ∈ r.exit.reaching name → ∀ other, other ∉ f.globalWrites := by
  obtain ⟨known, ending, reserves⟩ :=
    Trait.flats_analyze analyzed (steady_reserves settings absent quiet)
  refine ⟨fun f recorded assigned => ?_, fun k f found reaches other assigned => ?_⟩
  · obtain ⟨k, found⟩ := Array.mem_iff_getElem?.mp recorded
    have fitting := (known k f found).1
    exact not_mem_outward (absent_of_statementAt absent fitting.node) (fitting.writes name assigned)
  · have written := (known k f found).1.writes other assigned
    obtain ⟨g, foundG, d, defines, same⟩ := ending.founded name k reaches
    obtain rfl := Option.some.inj (found.symm.trans foundG)
    refine reserves f (Array.mem_of_getElem? found) ?_ ⟨other, written⟩ d defines same
    by_contra compound
    rw [outward_compound (Bool.not_eq_false _ ▸ compound)] at written
    exact ExtTreeSet.not_mem_empty written

end Module

end Lineage.Flow
