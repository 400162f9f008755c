import Lineage.Proofs.Flow.Run
import Lineage.Proofs.Flow.Rounds

/-!
States that cover what has happened. A state covers the events of a run if, for every name, it holds
the statement that last counted as binding the name, or the mark for what was there before if there
is none. A visit of a statement without blocks takes a state that covers the events before it to one
that covers what the statement does.
-/

namespace Lineage.Flow

open List

variable {around : Body} {env : Env} {events : List Event} {bound evaluated strays : List String}
  {i : Nat} {n : Node} {own parent : Option Nat} {lo hi : Nat} {p q : Progress}
  {settings : Settings} {name : String}

theorem lastBinder_append (name : String) (before after : List Event) :
    lastBinder name (before ++ after) = (lastBinder name after).or (lastBinder name before) := by
  rw [lastBinder, reverse_append, findSome?_append]
  rfl

/-- Where only one statement acts, it is the last one to bind each name that some event binds. -/
theorem lastBinder_of_one (one : ∀ e ∈ events, ∀ b, e.binderOf name = some b → b = (i, n))
    (some : ∃ e ∈ events, (e.binderOf name).isSome) : lastBinder name events = .some (i, n) := by
  obtain ⟨e, member, counts⟩ := some
  cases found : lastBinder name events with
  | none =>
    have missing := findSome?_eq_none_iff.mp found e (mem_reverse.mpr member)
    rw [missing] at counts
    exact absurd counts Bool.false_ne_true
  | some b =>
    obtain ⟨e', member', binder⟩ := exists_of_findSome?_eq_some found
    rw [one e' (mem_reverse.mp member') b binder]

/-- A statement that acts is the last to bind each of its names. -/
theorem Acts.lastBinder_eq (acts : Acts i n evaluated bound strays events)
    (member : name ∈ evaluated ++ bound) : lastBinder name events = some (i, n) := by
  refine lastBinder_of_one ?_ ?_
  · intro e among b counts
    rcases acts.sound e among with ⟨other, _, rfl⟩ | ⟨other, _, rfl⟩ | ⟨other, _, rfl⟩
    · exact (Option.some.inj (Option.ite_none_right_eq_some.mp counts).2).symm
    · exact (Option.some.inj (Option.ite_none_right_eq_some.mp counts).2).symm
    · exact nomatch counts
  · have happens : Event.bind i n name ∈ events ∨ Event.pass i n name ∈ events := by
      rcases mem_append.mp member with member | member
      · exact acts.evaluated name member
      · exact Or.inl (acts.bound name member)
    rcases happens with happens | happens
    · exact ⟨_, happens, by simp [Event.binderOf]⟩
    · exact ⟨_, happens, by simp [Event.binderOf]⟩

theorem Acts.lastBinder_eq_none (acts : Acts i n evaluated bound strays events)
    (other : name ∉ evaluated ++ bound) : lastBinder name events = none := by
  refine findSome?_eq_none_iff.mpr fun e among => ?_
  rcases acts.sound e (mem_reverse.mp among) with ⟨own, member, rfl⟩ | ⟨own, member,
    rfl⟩ | ⟨own, _, rfl⟩
  · exact if_neg fun (same : own = name) => other (same ▸ member)
  · exact if_neg fun (same : own = name) => other (mem_append_left _ (same ▸ member))
  · rfl

theorem acts_bind (i : Nat) (n : Node) (name : String) : Acts i n [] [name] [] [.bind i n name] :=
  ⟨by simp, by simp, by simp⟩

/-- A state holds, for a name, the statement that last bound it. A statement that may bind any name
may stand under the name for all names instead. -/
def State.Holds (settings : Settings) (s : State) (name : String) : Option (Nat × Node) → Prop
  | none => .entry ∈ s.reaching name
  | some (i, n) => .statement i ∈ s.reaching name ∨
      (n.bindsAnyName settings = true ∧ .statement i ∈ s.reaching allNames)

/-- A state covers the events that have happened: for every name it holds the statement that last
bound it. -/
def State.Covers (settings : Settings) (s : State) (events : List Event) : Prop :=
  ∀ name, s.Holds settings name (lastBinder name events)

namespace State

variable {settings : Settings} {s t : State} {events : List Event}

theorem Holds.mono {binder : Option (Nat × Node)} (holds : s.Holds settings name binder)
    (own : ∀ origin ∈ s.reaching name, origin ∈ t.reaching name)
    (star : ∀ origin ∈ s.reaching allNames, origin ∈ t.reaching allNames) :
    t.Holds settings name binder := by
  cases binder with
  | none => exact own _ holds
  | some b => exact holds.imp (own _) (And.imp_right (star _))

theorem Covers.mono (covers : s.Covers settings events) (below : s.Below t) :
    t.Covers settings events :=
  fun name => (covers name).mono (below name) (below allNames)

/-- What a state that covers events holds for a name. -/
theorem Covers.told (covers : s.Covers settings events) (name : String) :
    (lastBinder name events = none → .entry ∈ s.reaching name) ∧
      ∀ i m, lastBinder name events = some (i, m) → .statement i ∈ s.reaching name ∨
        (m.bindsAnyName settings = true ∧ .statement i ∈ s.reaching allNames) := by
  have holds := covers name
  refine ⟨fun none => ?_, fun i m last => ?_⟩
  · rw [none] at holds
    exact holds
  · rw [last] at holds
    exact holds

theorem covers_start (settings : Settings) : Covers settings ∅ [] := by
  intro name
  show Origin.entry ∈ reaching ∅ name
  rw [reaching_empty, mem_untouched]

section

variable (covers : s.Covers settings events)

include covers

/-- What a statement binds is covered once the statement stands under each name that it binds. -/
theorem Covers.act {more : List Event}
    (acts : Acts i n evaluated bound strays more)
    (now : ∀ name ∈ evaluated ++ bound, .statement i ∈ t.reaching name)
    (kept : ∀ name, name ∉ evaluated ++ bound →
      ∀ origin ∈ s.reaching name, origin ∈ t.reaching name) (star : allNames ∉ evaluated ++ bound) :
      t.Covers settings (events ++ more) := by
  intro name
  rw [lastBinder_append]
  by_cases member : name ∈ evaluated ++ bound
  · rw [acts.lastBinder_eq member]
    exact Or.inl (now name member)
  · rw [acts.lastBinder_eq_none member]
    exact (covers name).mono (kept name member) (kept allNames star)

/-- Counting a statement again as binding names that it bound last changes nothing. -/
theorem Covers.again {names : List String} (binds : s.Binds i names t)
    (fresh : ∀ name ∈ names, lastBinder name events = some (i, n)) (star : allNames ∉ names) :
    t.Covers settings events := by
  intro name
  by_cases member : name ∈ names
  · rw [fresh name member]
    exact Or.inl ((binds name).1 member)
  · exact (covers name).mono ((binds name).2 member) ((binds allNames).2 star)

/-- A statement that may bind any name is covered once it stands under the name for all names. -/
theorem Covers.roam (loose : n.bindsAnyName settings = true) {more : List Event}
    (any : ∀ e ∈ more, ∃ name, e = .bind i n name) (kept : s.Below t)
    (now : .statement i ∈ t.reaching allNames) : t.Covers settings (events ++ more) := by
  intro name
  rw [lastBinder_append]
  cases found : lastBinder name more with
  | none => exact (covers.mono kept) name
  | some b =>
    obtain ⟨e, among, counts⟩ := exists_of_findSome?_eq_some found
    obtain ⟨other, rfl⟩ := any e (mem_reverse.mp among)
    obtain rfl : b = (i, n) := (Option.some.inj (Option.ite_none_right_eq_some.mp counts).2).symm
    exact Or.inr ⟨loose, now⟩

theorem Covers.arrive (i : Nat) (n : Node) :
    s.Covers settings (events ++ [.arrive i n]) := by
  intro name
  rw [lastBinder_append]
  exact covers name

end

end State

/-! ### Statements without blocks -/

/-- A statement is entered: its facts stand at its index, and the state in front of it is noted
there. -/
structure Entered (env : Env) (around : Body) (i : Nat) (n : Node) (p e : Progress) : Prop where
  kept : e.Kept (around.env env) (around.scope env) (statementAt around.code)
  state : e.state = p.state
  noted : ∃ f, e.facts[i]? = some f ∧ f.node = n ∧ p.state.Below f.entry

theorem entered_enter (kept : p.Kept (around.env env) (around.scope env) (statementAt around.code))
    (here : around.Holds env i n) (size : i ≤ p.facts.size) (parent : Option Nat) :
    Entered env around i n p (p.enter parent i n) := by
  have entered := kept.enter parent here.stated.here here.stated.below size
  obtain ⟨f, found, noted⟩ := Progress.facts_enter parent n size
  refine ⟨entered, state_enter parent i n p, f, found,
    Option.some.inj ((entered.fitting found).node.symm.trans here.stated.here), ?_⟩
  rcases noted with ⟨g, _, rfl⟩ | ⟨_, _, _, entry, _⟩
  · exact State.below_merge_right _ _
  · exact entry ▸ .refl _

section

variable (faces : Faces env around own lo hi (.flat parent i n) p)

include faces

/-- UnderLeader a statement without blocks stands what it binds; or what was in front of it and that
it may have bound any name, if it runs unknown code and defines nothing. Its facts have only
risen. -/
theorem Faces.flat :
    Entered env around i n p (p.enter parent i n) ∧
      (p.enter parent i n).Under True ((Plan.flat parent i n).run (around.env env) p) ∧
      ((Plan.flat parent i n).run (around.env env) p).state =
        if n.isOpaque env.settings && !n.kind.isDefinition then p.state.define i
        ⟨allNames, allNames, .unknown, n.loc⟩
        else ((p.enter parent i n).perform (around.env env) i n).state := by
  obtain ⟨lies, kept, size, _⟩ := faces
  cases lies with
  | flat simple _ here =>
    have entered := entered_enter kept here size parent
    obtain ⟨f, found, rfl, _⟩ := entered.noted
    have raised : (p.enter parent i f.node).Under True _ :=
      Progress.under_perform (around.env env) i f.node _
    obtain ⟨h, foundH, _⟩ := raised i f found
    have flag := entered.kept.dynamic_perform found simple foundH
    rw [Node.isUnclear, simple, if_neg Bool.false_ne_true] at flag
    refine ⟨entered, ?_, ?_⟩
    · rw [Plan.run, ← entered.state]
      exact (entered.kept.flat (around.known env) found simple here.stated.named).2
    · rw [Plan.run, Progress.state_leave_eq foundH, flag, simple, Bool.false_or]
      rfl

/-- A statement that may bind any name leaves every origin in place and stands under the name for
all names. -/
theorem Faces.loose (flat : n.kind.isCompound = false)
    (loose : n.bindsAnyName env.settings = true) :
    p.state.Below ((Plan.flat parent i n).run (around.env env) p).state ∧
      .statement i ∈ ((Plan.flat parent i n).run (around.env env) p).state.reaching allNames := by
  rw [faces.flat.2.2]
  by_cases star : n.isStarImport = true
  · cases n
    case importsFrom loc base level names =>
      have star : Alias.isStar names = true := star
      show p.state.Below (Progress.defineAll _ i (importDefinitions loc base level names)).state ∧
        .statement i ∈ (Progress.defineAll _ i
          (importDefinitions loc base level names)).state.reaching allNames
      rw [importDefinitions, if_pos star, Progress.state_defineAll, state_enter]
      show p.state.Below (p.state.define i ⟨allNames, importPath base level, .starImport, loc⟩) ∧
        .statement i ∈ (p.state.define i ⟨allNames, importPath base level, .starImport,
          loc⟩).reaching allNames
      exact ⟨State.below_define rfl i p.state, State.mem_reaching_define.mpr (Or.inl ⟨rfl, rfl⟩)⟩
    all_goals nomatch star
  · rw [Node.bindsAnyName, Bool.eq_false_iff.mpr star, Bool.false_or, Bool.and_eq_true,
      Bool.and_eq_true, Bool.not_eq_true', Bool.not_eq_true'] at loose
    rw [loose.1.2, loose.2, Bool.not_false, Bool.and_self, if_pos rfl]
    exact ⟨State.below_define rfl i p.state, State.mem_reaching_define.mpr (Or.inl ⟨rfl, rfl⟩)⟩

/-- UnderLeader any other statement without blocks stands what it binds. -/
theorem Faces.binds (flat : n.kind.isCompound = false)
    (tight : n.bindsAnyName env.settings = false) :
    p.state.Binds i (n.evaluatedParts.flatMap Node.walruses ++ n.boundNames)
      ((Plan.flat parent i n).run (around.env env) p).state := by
  obtain ⟨entered, _, state⟩ := faces.flat
  have does := Progress.does_perform (around.env env) i n entered.kept.settled
  rw [state, if_neg, ← entered.state]
  · exact does.binds
  · rw [Node.bindsAnyName, Bool.or_eq_false_iff, flat, Bool.not_false, Bool.true_and] at tight
    rw [Bool.and_comm, tight.2]
    exact Bool.false_ne_true

end

/-- What is evaluated counts as binding only names that stand in it. -/
theorem starless_parts {parts : List Node} (plain : ∀ e ∈ parts, allNames ∉ e.identifiers)
    (others : allNames ∉ bound) : allNames ∉ parts.flatMap Node.walruses ++ bound := by
  intro member
  rcases mem_append.mp member with member | member
  · obtain ⟨part, among, member⟩ := mem_flatMap.mp member
    exact plain part among (Node.walruses_subset part member)
  · exact others member

/-- The names that a statement without blocks counts as binding stand in it. -/
theorem starless_flat (star : allNames ∉ n.identifiers) :
    allNames ∉ n.evaluatedParts.flatMap Node.walruses ++ n.boundNames :=
  starless_parts
    (fun _ among own => star (Node.identifiers_subset (Node.evaluatedParts_subset n among) own))
    (fun own => star (Node.boundNames_subset n own))

/-- The statement of a block with an index. -/
def nodeAt (tree : Node) (i : Nat) : Node :=
  ((Node.blockStatements tree.code)[i]?).getD default

end Lineage.Flow
