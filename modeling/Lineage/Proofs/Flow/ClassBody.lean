import Lineage.Proofs.Flow.Collect

/-!
What defining a class leaves behind. The body of a class runs with the definition: what it reads
from outside is used by the definition. What it changes outside is not carried over: behind the
definition, a name may have its value from it only if it is the name of the class or the expressions
in the head of the definition bind or change it.
-/

namespace Lineage

open List

variable {i : Nat} {p : Progress} {n : Node} {id : String} {code : List Node}

namespace Node

/-- The name and the body of the class that a statement defines, with or without decorators. -/
def definedClass : Node → Option (String × List Node)
  | .classDef _ id _ _ _ code => some (id, code)
  | .decorated _ _ (.classDef _ id _ _ _ code) => some (id, code)
  | _ => none

end Node

namespace Flow

namespace Progress

theorem sameWrites_revise {c : StatementFacts → StatementFacts}
    (keeps : ∀ f, (c f).globalWrites = f.globalWrites) (i : Nat) (p : Progress) :
    p.SameWrites (p.revise i c) := by
  intro k
  rw [revise, Array.getElem?_modify]
  split
  · cases p.facts[k]? with
    | none => rfl
    | some f => exact congrArg some (keeps f)
  · rfl

theorem sameWrites_uses (i : Nat) (us : List Use) (p : Progress) :
    p.SameWrites (us.foldl (fun p u => p.use i u) p) := by
  induction us generalizing p with
  | nil => exact fun _ => rfl
  | cons u rest ih => exact fun k => (ih (p.use i u) k).trans (sameWrites_use p i u k)

/-- Evaluating an expression tells nothing new about what functions assign. -/
theorem sameWrites_read (env : Env) (i : Nat) (e : Node) (p : Progress) :
    p.SameWrites (p.read env i e) := by
  intro k
  unfold read
  split
  · refine (sameWrites_uses i _ _ k).trans (sameWrites_revise ?_ i p k)
    exact fun _ => rfl
  · exact sameWrites_uses i _ p k

theorem pending_readAll (env : Env) (i : Nat) (es : List Node) (p : Progress) :
    (p.readAll env i es).pending = p.pending ++ es.flatMap (p.evaluationDefinitions env) := by
  induction es generalizing p with
  | nil => exact (append_nil _).symm
  | cons e rest ih =>
    have same := evaluationDefinitions_congr env (state_read env i e p) (sameWrites_read env i e p)
    change ((p.read env i e).readAll env i rest).pending = _
    rw [ih, pending_read, same, flatMap_cons, append_assoc]

/-- Evaluating expressions leaves what was waiting and what they bind themselves. -/
theorem state_evaluate (env : Env) (i : Nat) (es : List Node) (p : Progress) :
    (p.evaluate env i es).state = p.state.defineAll i
    (p.pending ++ es.flatMap (p.evaluationDefinitions env)) := by
  rw [evaluate, flush, state_defineAll, pending_readAll, state_readAll]

theorem state_classActions (env : Env) (i : Nat) (loc : Location) (name : String)
    (decorators bases : List Node) (keywords : List (Keyword Node)) (body : Result) (p : Progress) :
    (p.acts env i (classActions loc name decorators bases keywords body)).state =
      (p.evaluate env i (Node.decoratorParts decorators ++
        (bases ++ keywords.map Keyword.value))).state.define i ⟨name, name, .classDef, loc⟩ := by
  rw [classActions]
  change ((p.evaluate env i _).acts env i (_ ++ _)).state = _
  rw [acts_append, acts_uses]
  exact congrArg (fun s => State.define s i ⟨name, name, .classDef, loc⟩)
    (state_uses _ i body.classUses)

/-- A statement that is met for the first time is not known to assign anything when it is called. -/
theorem evaluationDefinitions_enter (env : Env) (parent : Option Nat) (n : Node)
    (fits : i ≤ p.facts.size) : (p.enter parent i n).evaluationDefinitions env =
    p.evaluationDefinitions env := by
  have same : (p.enter parent i n).writesFrom env = p.writesFrom env := by
    funext callee origin
    cases origin with
    | parameter => rfl
    | entry => rfl
    | statement k =>
      by_cases other : k = i
      · subst other
        obtain ⟨f, found, ⟨g, before, rfl⟩ | ⟨none, -, -, -, -, -, nothing, -⟩⟩ :=
        facts_enter parent n fits
        · rw [writesFrom, writesFrom, found, before]
          rfl
        · rw [writesFrom, writesFrom, found, none]
          exact nothing
      · rw [writesFrom, writesFrom, frame_enter parent n fits other]
  refine evaluationDefinitions_eq rfl fun callee => ?_
  rw [writesOf, writesOf, state_enter, same]

end Progress

theorem flatActions_class (defines : n.definedClass = some (id, code)) :
    n.kind.isCompound = false ∧ n.kind.isDefinition = true ∧ n.kind ≠ .verbatim ∧
      ∃ loc decorators bases keywords, n.ownParts = Node.decoratorParts decorators ++
      (bases ++ keywords.map Keyword.value) ∧ ∀ env, flatActions env n =
      classActions loc id decorators bases keywords (classBody env code) := by
  cases n
  case classDef loc name header bases keywords body =>
    obtain ⟨rfl, rfl⟩ := Prod.mk.inj (Option.some.inj defines)
    exact ⟨rfl, rfl, nofun, loc, [], bases, keywords, rfl, fun _ => rfl⟩
  case decorated place decorators definition =>
    cases definition
    case classDef loc name header bases keywords body =>
      obtain ⟨rfl, rfl⟩ := Prod.mk.inj (Option.some.inj defines)
      exact ⟨rfl, rfl, nofun, loc, decorators, bases, keywords, rfl, fun _ => rfl⟩
    all_goals nomatch defines
  all_goals nomatch defines

theorem name_recorded (loc : Location) (u : Use) : (u.recorded loc).name = u.name := by
  unfold Use.recorded
  split
  · rename_i all
    exact all.symm
  · rfl

/-- The state behind the definition of a class is that behind its head, and the name is bound. -/
theorem state_visit_class (env : Env) (parent : Option Nat)
    (defines : n.definedClass = some (id, code)) (settled : p.pending = [])
    (fits : i ≤ p.facts.size) : ∃ loc, (visit env parent i n p).state =
      (p.state.defineAll i (n.ownParts.flatMap (p.evaluationDefinitions env))).define i
      ⟨id, id, .classDef, loc⟩ := by
  obtain ⟨flat, definition, known, loc, decorators, bases, keywords, parts, actions⟩ :=
    flatActions_class defines
  refine ⟨loc, ?_⟩
  have kept : ∀ q : Progress, (q.leave i n p.state).state = q.state := by
    intro q
    unfold Progress.leave
    rw [definition, Bool.or_true, if_pos rfl]
    split <;> rfl
  rw [visit_flat env parent i n p flat, kept, Progress.perform_eq_acts env i n _ known, actions,
    Progress.state_classActions, ← parts, Progress.state_evaluate,
    Progress.evaluationDefinitions_enter env parent n fits, pending_enter, settled, state_enter,
    nil_append]

/-- The definition of a class uses what its body reads from outside. -/
theorem uses_visit_class (env : Env) (parent : Option Nat)
    (defines : n.definedClass = some (id, code)) (fits : i ≤ p.facts.size) :
    ∃ f, (visit env parent i n p).facts[i]? = some f ∧
      ∀ b ∈ (classBody env code).statements, ∀ name ∈ b.external, ∃ u ∈ f.uses, u.name = name := by
  obtain ⟨flat, -, -, loc, decorators, bases, keywords, -, actions⟩ := flatActions_class defines
  obtain ⟨f, entered, -⟩ := Progress.facts_enter parent n fits
  obtain ⟨g, performed, collects⟩ := Progress.collects_perform flat env i (p.enter parent i n)
    f entered
  obtain ⟨h, left, -, -, -, uses⟩ := Progress.collects_leave performed n p.state
  refine ⟨h, (congrArg (·.facts[i]?) (visit_flat env parent i n p flat)).trans left,
    fun b member name external => ?_⟩
  have asked : (⟨name, name, .direct, b.location⟩ : Use) ∈ ownUses env n := by
    rw [ownUses, if_neg (Bool.eq_false_iff.mp flat), actions]
    refine mem_flatMap.mpr ⟨.use ⟨name, name, .direct, b.location⟩, ?_, mem_singleton_self _⟩
    refine mem_cons_of_mem _ (mem_append_left _ (mem_map_of_mem ?_))
    exact mem_flatMap.mpr ⟨b, Array.mem_toList_iff.mpr member,
      mem_map.mpr ⟨name, Std.ExtTreeSet.mem_toList.mpr external, rfl⟩⟩
  exact ⟨_, (uses _).mpr (Or.inl ((collects.uses _).mpr (Or.inr ⟨_, asked, rfl⟩))),
    name_recorded _ _⟩

/-- A class is the value of its name behind its definition, and the definition uses whatever the
body reads from outside. No other name has its value from the definition unless an expression in the
head of the definition binds or changes it, or it had before: what the body changes does not
count. -/
theorem class_definition (env : Env) (parent : Option Nat) {i : Nat} {n : Node} {id : String}
    {code : List Node} (defines : n.definedClass = some (id, code)) {p : Progress}
    (settled : p.pending = []) (fits : i ≤ p.facts.size) :
      (∀ name, .statement i ∈ (visit env parent i n p).state.reaching name ↔ name = id ∨
        (∃ e ∈ n.ownParts, ∃ d ∈ p.evaluationDefinitions env e, d.name = name) ∨
        .statement i ∈ p.state.reaching name) ∧
    ∃ f, (visit env parent i n p).facts[i]? = some f ∧
      ∀ b ∈ (classBody env code).statements, ∀ name ∈ b.external, ∃ u ∈ f.uses, u.name = name := by
  refine ⟨fun name => ?_, uses_visit_class env parent defines fits⟩
  obtain ⟨loc, state⟩ := state_visit_class env parent defines settled fits
  rw [state, State.mem_reaching_define, State.mem_reaching_defineAll]
  simp only [mem_flatMap, true_and]
  grind

/-- `@mark(y)`, then `class C:` with `x.append(1)`. -/
def changingClass : Node :=
  .decorated ⟨2, 0, 4, 15⟩ [.decorator default
    (.call default (.name default "mark") [.name default "y"] [])]
      (.classDef ⟨3, 0, 4, 15⟩ "C" default [] []
        [.expression ⟨4, 4, 4, 15⟩ (.call ⟨4, 4, 4, 15⟩
          (.member default (.name default "x") "append") [.literal default (.int 1)] [])])

/-- The class and what is handed to its decorator may have their values from the definition, but not
what its body changes. -/
theorem class_definition_decorated : ∃ code, changingClass.definedClass = some ("C", code) ∧
    .statement 0 ∈ (visit ⟨⟨∅, ∅⟩, ∅, 0, true⟩ none 0 changingClass (.start ∅)).state.reaching "C" ∧
    .statement 0 ∈ (visit ⟨⟨∅, ∅⟩, ∅, 0, true⟩ none 0 changingClass (.start ∅)).state.reaching "y" ∧
    .statement 0 ∉ (visit ⟨⟨∅, ∅⟩, ∅, 0, true⟩ none 0 changingClass (.start ∅)).state.reaching "x" ∧
    ∃ f, (visit ⟨⟨∅, ∅⟩, ∅, 0, true⟩ none 0 changingClass (.start ∅)).facts[0]? = some f ∧
    ∃ u ∈ f.uses, u.name = "x" := by
  obtain ⟨reaching, f, found, uses⟩ :=
    class_definition ⟨⟨∅, ∅⟩, ∅, 0, true⟩ none (n := changingClass) rfl (p := .start ∅) rfl
      (Nat.zero_le 0)
  refine ⟨_, rfl, (reaching "C").mpr (Or.inl rfl), (reaching "y").mpr (Or.inr (Or.inl ?_)), ?_, f,
    found, ?_⟩
  · decide
  · rw [reaching]
    decide
  · exact uses _ (Array.mem_of_getElem? (i := 0) rfl) "x" (by decide)

/-- The body of a class changes an object from outside, and what reads that object later does not
depend on the class. -/
theorem class_change_lost : ∃ r f g h code, analyze ⟨∅, ∅⟩ ∅ (.module default
      [.assign ⟨1, 0, 1, 6⟩ [.name default "x"] (some (.list default [])) none none false,
        changingClass, .expression ⟨5, 0, 5, 8⟩
        (.call default (.name default "print") [.name default "x"] [])]) = .ok r ∧
    r.statements.toList = [f, g, h] ∧ g.node.definedClass = some ("C", code) ∧
    (∃ b ∈ (classBody ⟨⟨∅, ∅⟩, ∅, 0, true⟩ code).statements,
      (∃ d ∈ b.definitions, d.kind = .mutation ∧ d.name = "x") ∧ .entry ∈ b.entry.reaching "x") ∧
    .statement 1 ∉ h.entry.reaching "x" ∧ ∀ edge ∈ h.inbound, edge.source ≠ g.location := by
  obtain ⟨code, defines, change⟩ : ∃ code, changingClass.definedClass = some ("C", code) ∧
      ∃ b ∈ (classBody ⟨⟨∅, ∅⟩, ∅, 0, true⟩ code).statements,
        (∃ d ∈ b.definitions, d.kind = .mutation ∧ d.name = "x") ∧ .entry ∈ b.entry.reaching "x" :=
        ⟨_, rfl, _, Array.mem_of_getElem? (i := 0) rfl, by decide, by decide⟩
  exact ⟨_, _, _, _, code, rfl, rfl, defines, change, by decide, by decide⟩

end Flow

end Lineage
