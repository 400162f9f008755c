import Lineage.Proofs.Slice.Scene

/-!
Live definitions. A statement of an earlier execution may still be what a name holds if no execution
in between has defined the name for sure. This is said of the list of executions alone, and looking
a name up finds just these statements.
-/

namespace Lineage

open List Std Flow

variable {e : Execution} {bound : Int} {executions : List Execution} {s : State} {name : String}
  {t : Timestamp}

namespace Log

/-- A statement of an execution before an ordinal that may have defined a name, and no execution in
between has defined the name for sure. -/
def Live (l : Log) (bound : Int) (name : String) (u : Timestamp) : Prop :=
  ∃ e ∈ l.executions, e.ordinal = u.ordinal ∧ e.ordinal < bound ∧
    (∃ k : Nat, u.index = k ∧ (.statement k ∈ e.exit.reaching name ∨
    .statement k ∈ e.exit.reaching Flow.allNames)) ∧ ∀ later ∈ l.executions, e.ordinal <
    later.ordinal → later.ordinal < bound → .entry ∈ later.exit.reaching name

/-- The statements of executions before an ordinal that a name may come from. All names together
come from what any name known before comes from, and from the statements that may define any
name. -/
inductive Defines (l : Log) (bound : Int) : String → Timestamp → Prop where
  | one {name : String} {u : Timestamp} : name ≠ Flow.allNames → l.Live bound name u →
      Defines l bound name u
  | known {e : Execution} {other : String} {u : Timestamp} : e ∈ l.executions → e.ordinal < bound →
      other ∈ e.exit → other ≠ Flow.allNames → l.Live bound other u →
      Defines l bound Flow.allNames u
  | any {e : Execution} {k : Nat} : e ∈ l.executions → e.ordinal < bound →
      .statement k ∈ e.exit.reaching Flow.allNames → Defines l bound Flow.allNames ⟨e.ordinal, k⟩

/-- A name that neither an earlier execution nor the session provides. -/
def Undefined (l : Log) (bound : Int) (name : String) : Prop :=
  name ≠ Flow.allNames ∧ Slice.isImplicit name = false ∧ ∀ u, ¬ l.Live bound name u

end Log

namespace Flow.State

theorem reaching_of_getElem? {origins : Origins} (held : s[name]? = some origins) :
    s.reaching name = origins := by
  rw [reaching_eq_getD, held]
  rfl

theorem mem_of_statement {k : Nat} (reaches : .statement k ∈ s.reaching name) : name ∈ s := by
  refine Classical.byContradiction fun missing => ?_
  rw [reaching_of_not_mem missing, mem_untouched] at reaches
  exact nomatch reaches

theorem mem_of_not_entry (settled : .entry ∉ s.reaching name) : name ∈ s := by
  refine Classical.byContradiction fun missing => settled ?_
  rw [reaching_of_not_mem missing, mem_untouched]

end Flow.State

namespace Flow.StatementFacts

theorem statement_mem_origins {k : Nat} :
    .statement k ∈ origins s name ↔ .statement k ∈ s.reaching name ∨
    .statement k ∈ s.reaching Flow.allNames := by
  unfold origins
  cases held : s[Flow.allNames]? with
  | none =>
    have missing : Flow.allNames ∉ s := by simpa using held
    simp [State.reaching_of_not_mem missing]
  | some anything => simp [State.reaching_of_getElem? held, ExtTreeSet.mem_erase]

theorem entry_mem_origins : .entry ∈ origins s name ↔ .entry ∈ s.reaching name := by
  unfold origins
  cases s[Flow.allNames]? with
  | none => rfl
  | some anything => simp [ExtTreeSet.mem_erase]

end Flow.StatementFacts

namespace Slice.Scene

variable {s : Scene}

theorem mem_stampsOf {ordinal : Int} {origins : Origins} :
    t ∈ stampsOf ordinal origins ↔ t.ordinal = ordinal ∧ ∃ k : Nat, t.index = k ∧
    .statement k ∈ origins := by
  unfold stampsOf
  simp only [mem_filterMap, ExtTreeSet.mem_toList]
  constructor
  · rintro ⟨origin, member, found⟩
    cases origin with
    | statement k =>
      obtain rfl := Option.some.inj found
      exact ⟨rfl, k, rfl, member⟩
    | entry => exact nomatch found
    | parameter => exact nomatch found
  · rintro ⟨own, k, index, member⟩
    refine ⟨.statement k, member, ?_⟩
    dsimp only
    rw [← own, ← index]

/-- The statements of an execution that may have defined a name. -/
def mayDefine (e : Execution) (name : String) (t : Timestamp) : Prop :=
  t.ordinal = e.ordinal ∧ ∃ k : Nat, t.index = k ∧ .statement k ∈ e.exit.reaching name

theorem mem_stampsOf_exit {origins : Origins} (held : e.exit[name]? = some origins) :
    t ∈ stampsOf e.ordinal origins ↔ mayDefine e name t := by
  rw [mem_stampsOf, mayDefine, State.reaching_of_getElem? held]

theorem not_mayDefine (missing : e.exit[name]? = none) (t : Timestamp) : ¬ mayDefine e name t := by
  rintro ⟨_, k, _, reaches⟩
  have held := State.mem_of_statement reaches
  simp_all

/-- The first of some elements is one, or it may be passed by and a later one is. -/
theorem exists_split_cons {α : Type} {P Q : α → Prop} {first : α} {rest : List α} :
    (∃ newer e older, first :: rest = newer ++ e :: older ∧ P e ∧ ∀ later ∈ newer, Q later) ↔
      P first ∨ Q first ∧ ∃ newer e older, rest = newer ++ e ::
      older ∧ P e ∧ ∀ later ∈ newer, Q later := by
  constructor
  · rintro ⟨newer, e, older, same, found, passed⟩
    cases newer with
    | nil =>
      obtain ⟨rfl, rfl⟩ := List.cons.inj same
      exact Or.inl found
    | cons latest newer =>
      obtain ⟨rfl, rest⟩ := List.cons.inj same
      obtain ⟨own, others⟩ := forall_mem_cons.mp passed
      exact Or.inr ⟨own, newer, e, older, rest, found, others⟩
  · rintro (found | ⟨own, newer, e, older, rfl, found, others⟩)
    · exact ⟨[], first, rest, rfl, found, forall_mem_nil _⟩
    · exact ⟨first :: newer, e, older, rfl, found, forall_mem_cons.mpr ⟨own, others⟩⟩

/-- Going back over the executions that may have defined a name before an ordinal, the ones that are
reached are those behind which no execution has defined it for sure. -/
theorem exists_split_iff {P : Execution → Prop}
    (leaves : ∀ e, P e → name ∈ e.exit ∨ Flow.allNames ∈ e.exit)
    (decreasing : executions.Pairwise (fun a b => b.ordinal < a.ordinal))
      (listed : ∀ e, e ∈ executions ↔ e ∈ s.log.executions ∧
        (name ∈ e.exit ∨ Flow.allNames ∈ e.exit) ∧ e.ordinal < bound) :
    (∃ newer e older, executions = newer ++ e ::
      older ∧ P e ∧ ∀ later ∈ newer, .entry ∈ later.exit.reaching name) ↔
        ∃ e ∈ s.log.executions, P e ∧ e.ordinal < bound ∧ ∀ later ∈ s.log.executions, e.ordinal <
        later.ordinal → later.ordinal < bound → .entry ∈ later.exit.reaching name := by
  constructor
  · rintro ⟨newer, e, older, rfl, found, opens⟩
    obtain ⟨_, behind, _⟩ := pairwise_append.mp decreasing
    obtain ⟨among, _, below⟩ := (listed e).mp (by simp)
    refine ⟨e, among, found, below, fun later amongLater after before => ?_⟩
    refine Classical.byContradiction fun settled => settled ?_
    -- An execution that has defined the name for sure is listed, and before the older one.
    have held := (listed later).mpr ⟨amongLater, Or.inl (State.mem_of_not_entry settled), before⟩
    rcases mem_append.mp held with inNewer | inRest
    · exact opens later inNewer
    · rcases mem_cons.mp inRest with rfl | inOlder
      · omega
      · have := (pairwise_cons.mp behind).1 later inOlder
        omega
  · rintro ⟨e, among, found, below, opens⟩
    obtain ⟨newer, older, rfl⟩ := append_of_mem ((listed e).mpr ⟨among, leaves e found, below⟩)
    refine ⟨newer, e, older, rfl, found, fun later member => ?_⟩
    obtain ⟨amongLater, _, before⟩ := (listed later).mp (mem_append_left _ member)
    exact opens later amongLater ((pairwise_append.mp decreasing).2.2 later member e
      (mem_cons_self ..)) before

section Sound

variable (sound : s.log.Sound)

include sound

theorem originsAt_ordinal (member : e ∈ s.log.executions) (name : String) :
    s.log.originsAt name e.ordinal = e.exit[name]? := by
  rw [Log.originsAt, sound.at?_ordinal member]
  rfl

theorem mem_anyDefiners (member : e ∈ s.log.executions) :
    t ∈ s.anyDefiners e.ordinal ↔ mayDefine e Flow.allNames t := by
  rw [anyDefiners, originsAt_ordinal sound member]
  cases held : e.exit[Flow.allNames]? with
  | none => simp [not_mayDefine held t]
  | some origins =>
    rw [Option.map_some, Option.getD_some]
    exact mem_stampsOf_exit held

/-- Going back over executions finds what may have defined a name in each of them, up to the first
that has defined it for sure. -/
theorem mem_definersBack (members : ∀ e ∈ executions, e ∈ s.log.executions) :
    t ∈ s.definersBack name (executions.map Execution.ordinal) ↔
      ∃ newer e older, executions = newer ++ e ::
        older ∧ (mayDefine e name t ∨ mayDefine e Flow.allNames t) ∧
        ∀ later ∈ newer, .entry ∈ later.exit.reaching name := by
  induction executions with
  | nil => simp [definersBack]
  | cons first rest ih =>
    obtain ⟨own, others⟩ := forall_mem_cons.mp members
    rw [exists_split_cons, ← ih others, map_cons, definersBack, mem_append,
      mem_anyDefiners sound own, originsAt_ordinal sound own]
    cases held : first.exit[name]? with
    | none =>
      have missing : name ∉ first.exit := by simpa using held
      have opens : .entry ∈ first.exit.reaching name := by
        rw [State.reaching_of_not_mem missing, State.mem_untouched]
      simp [not_mayDefine held t, opens]
    | some origins =>
      have reaching := State.reaching_of_getElem? held
      dsimp only
      rw [mem_append, mem_stampsOf_exit held, reaching]
      by_cases opens : .entry ∈ origins
      · have contains : origins.contains .entry = true := ExtTreeSet.contains_iff_mem.mpr opens
        simp only [contains, opens, if_true, true_and]
        grind
      · have contains : origins.contains .entry = false :=
          Bool.eq_false_iff.mpr fun held => opens (ExtTreeSet.contains_iff_mem.mp held)
        simp only [contains, opens, Bool.false_eq_true, if_false, not_mem_nil, false_and, or_false]
        exact or_comm

/-- The executions that may have defined a name before an ordinal, the newest first. -/
theorem definersBefore_eq_map (name : String) (bound : Int) : ∃ executions : List Execution,
    s.log.definersBefore name bound = executions.map Execution.ordinal ∧
      executions.Pairwise (fun a b => b.ordinal < a.ordinal) ∧
      ∀ e, e ∈ executions ↔ e ∈ s.log.executions ∧ (name ∈ e.exit ∨ Flow.allNames ∈ e.exit) ∧
      e.ordinal < bound := by
  have each : ∀ k ∈ s.log.definersBefore name bound, ∃ e ∈ s.log.executions, e.ordinal = k := by
    intro k member
    obtain ⟨⟨e, among, _, own⟩, _⟩ := sound.mem_definersBefore.mp member
    exact ⟨e, among, own⟩
  have lifted : ∀ ks : List Int, (∀ k ∈ ks, ∃ e ∈ s.log.executions, e.ordinal = k) →
      ∃ executions : List Execution, ks = executions.map Execution.ordinal ∧
      ∀ e ∈ executions, e ∈ s.log.executions := by
    intro ks all
    induction ks with
    | nil => exact ⟨[], rfl, forall_mem_nil _⟩
    | cons k rest ih =>
      obtain ⟨⟨e, among, own⟩, others⟩ := forall_mem_cons.mp all
      obtain ⟨executions, same, members⟩ := ih others
      exact ⟨e :: executions, by rw [map_cons, own, same], forall_mem_cons.mpr ⟨among, members⟩⟩
  obtain ⟨executions, same, members⟩ := lifted _ each
  refine ⟨executions, same, ?_, fun e => ⟨fun member => ?_, ?_⟩⟩
  · have decreasing := s.log.decreasing_definersBefore name bound
    rw [same, pairwise_map] at decreasing
    exact decreasing
  · have listed : e.ordinal ∈ s.log.definersBefore name bound := by
      rw [same]
      exact mem_map_of_mem member
    obtain ⟨⟨f, among, leaves, own⟩, below⟩ := sound.mem_definersBefore.mp listed
    obtain rfl := sound.eq_of_ordinal among (members e member) own
    exact ⟨among, leaves, below⟩
  · rintro ⟨among, leaves, below⟩
    have listed : e.ordinal ∈ s.log.definersBefore name bound :=
      sound.mem_definersBefore.mpr ⟨⟨e, among, leaves, rfl⟩, below⟩
    rw [same] at listed
    obtain ⟨f, member, own⟩ := mem_map.mp listed
    obtain rfl := sound.eq_of_ordinal (members f member) among own
    exact member

/-- Looking a name up finds its live definitions. -/
theorem mem_definersBack_iff_live {u : Timestamp} :
    u ∈ s.definersBack name (s.log.definersBefore name bound) ↔ s.log.Live bound name u := by
  obtain ⟨executions, same, decreasing, listed⟩ := definersBefore_eq_map sound name bound
  have leaves : ∀ e, mayDefine e name u ∨ mayDefine e Flow.allNames u → name ∈ e.exit ∨
      Flow.allNames ∈ e.exit :=
    fun e => .imp (fun ⟨_, _, _, reaches⟩ => State.mem_of_statement reaches)
      fun ⟨_, _, _, reaches⟩ => State.mem_of_statement reaches
  rw [same, mem_definersBack sound fun e member => ((listed e).mp member).1,
    exists_split_iff leaves decreasing listed]
  refine exists_congr fun e => and_congr_right fun _ => ?_
  constructor
  · rintro ⟨⟨own, k, index, reaches⟩ | ⟨own, k, index, reaches⟩, below, opens⟩
    · exact ⟨own.symm, below, ⟨k, index, Or.inl reaches⟩, opens⟩
    · exact ⟨own.symm, below, ⟨k, index, Or.inr reaches⟩, opens⟩
  · rintro ⟨own, below, ⟨k, index, reaches⟩, opens⟩
    exact ⟨reaches.imp (fun held => ⟨own.symm, k, index, held⟩)
      fun held => ⟨own.symm, k, index, held⟩, below, opens⟩

theorem mem_found {u : Timestamp} : u ∈ s.found bound name ↔ s.log.Defines bound name u := by
  unfold found
  split
  · rename_i all
    subst all
    simp only [mem_append, mem_flatMap, mem_definersBack_iff_live sound, sound.mem_namesBefore,
      sound.mem_definersBefore]
    constructor
    · rintro (⟨other, ⟨different, e, among, leaves, below⟩, live⟩ | ⟨k,
          ⟨⟨e, among, _, rfl⟩, below⟩, any⟩)
      · exact .known among below leaves different live
      · obtain ⟨own, k, index, reaches⟩ := (mem_anyDefiners sound among).mp any
        obtain ⟨ordinal, position⟩ := u
        obtain rfl : ordinal = e.ordinal := own
        obtain rfl : position = k := index
        exact .any among below reaches
    · intro defines
      cases defines with
      | one different => exact absurd rfl different
      | known among below leaves different live => exact Or.inl ⟨_,
          ⟨different, _, among, leaves, below⟩, live⟩
      | @any e k among below reaches =>
        have leaves := State.mem_of_statement reaches
        refine Or.inr ⟨e.ordinal, ⟨⟨e, among, Or.inl leaves, rfl⟩, below⟩, ?_⟩
        exact (mem_anyDefiners sound among).mpr ⟨rfl, k, rfl, reaches⟩
  · rename_i different
    rw [mem_definersBack_iff_live sound]
    constructor
    · exact .one different
    · intro defines
      cases defines with
      | one _ live => exact live
      | known => exact absurd rfl different
      | any => exact absurd rfl different

/-! ### Undefined names -/

omit sound in
theorem exit_cases (e : Execution) : e.exit = ∅ ∨ ∃ r, e.facts? = some r ∧ e.exit = r.exit := by
  unfold Execution.exit
  cases e.facts? with
  | none => exact Or.inl rfl
  | some r => exact Or.inr ⟨r, rfl, rfl⟩

/-- A name that an execution leaves defined was defined by one of its statements. -/
theorem exists_mayDefine (member : e ∈ s.log.executions) (leaves : name ∈ e.exit) :
    ∃ t, mayDefine e name t := by
  rcases exit_cases e with none | ⟨r, facts, exit⟩
  · rw [none] at leaves
    exact absurd leaves ExtTreeMap.not_mem_empty
  · rw [exit] at leaves
    obtain ⟨k, reaches⟩ := (sound.regular member facts).defined name leaves
    exact ⟨⟨e.ordinal, k⟩, rfl, k, rfl, by rwa [exit]⟩

/-- What may have defined a name is a statement of the history. -/
theorem holds_of_mayDefine (member : e ∈ s.log.executions) (defines : mayDefine e name t) :
    ∃ f, s.log.Holds t f := by
  obtain ⟨own, k, index, reaches⟩ := defines
  rcases exit_cases e with none | ⟨r, facts, exit⟩
  · rw [none, State.reaching_empty, State.mem_untouched] at reaches
    exact nomatch reaches
  · rw [exit] at reaches
    have inside := (sound.regular member facts).exit name k reaches
    refine ⟨r.statements[k], e, member, own.symm, k, index, ?_⟩
    rw [Execution.statements_eq facts, Array.getElem?_toList, Array.getElem?_eq_getElem inside]

theorem isDefinedBy_iff (members : ∀ e ∈ executions, e ∈ s.log.executions) :
    s.isDefinedBy name (executions.map Execution.ordinal) = true ↔
      ∃ t, t ∈ s.definersBack name (executions.map Execution.ordinal) := by
  induction executions with
  | nil => simp [isDefinedBy, definersBack]
  | cons first rest ih =>
    obtain ⟨own, others⟩ := forall_mem_cons.mp members
    have any : (!(s.anyDefiners first.ordinal).isEmpty) = true ↔
        ∃ t, t ∈ s.anyDefiners first.ordinal := by
      cases s.anyDefiners first.ordinal <;> simp
    have here : s.isDefinedBy name ((first :: rest).map Execution.ordinal) =
        ((!(s.anyDefiners first.ordinal).isEmpty || (s.log.originsAt name first.ordinal).isSome) ||
          s.isDefinedBy name (rest.map Execution.ordinal)) := rfl
    rw [here, Bool.or_eq_true, Bool.or_eq_true, any, ih others, map_cons, definersBack]
    simp only [mem_append, exists_or]
    rw [originsAt_ordinal sound own]
    cases held : first.exit[name]? with
    | none => simp
    | some origins =>
      have leaves : name ∈ first.exit := ExtTreeMap.mem_iff_isSome_getElem?.mpr (by rw [held]; rfl)
      obtain ⟨t, defines⟩ := exists_mayDefine sound own leaves
      simp only [Option.isSome_some, or_true, true_or, true_iff]
      exact Or.inr ⟨t, mem_append_left _ ((mem_stampsOf_exit held).mpr defines)⟩

/-- A name is left unresolved if and only if it has no live definition and is not provided by the
session. -/
theorem unresolved_lookUpName (bound : Int) (site : Timestamp) {lacking : String}
    (different : name ≠ Flow.allNames) : lacking ∈ (s.lookUpName bound site name).unresolved ↔
    lacking = name ∧ s.log.Undefined bound name := by
  obtain ⟨executions, same, _, listed⟩ := definersBefore_eq_map sound name bound
  have defined : s.isDefinedBy name (s.log.definersBefore name bound) = true ↔
      ∃ u, s.log.Live bound name u := by
    rw [same, isDefinedBy_iff sound fun e member => ((listed e).mp member).1, ← same]
    simp only [mem_definersBack_iff_live sound]
  simp only [lookUpName, Log.Undefined, different, ne_eq, not_false_eq_true, true_and, ← not_exists,
    ← defined]
  by_cases held : s.isDefinedBy name (s.log.definersBefore name bound) = true
  · simp [held]
  · cases isImplicit name <;> simp [held]

theorem unresolved_lookUp (bound : Int) (site : Timestamp) {lacking : String} :
    lacking ∈ (s.lookUp bound site name).unresolved ↔ lacking = name ∧
    s.log.Undefined bound name := by
  unfold lookUp
  split
  · rename_i all
    subst all
    -- A name that is known before is never left unresolved.
    simp only [unresolved_append, Leads.all, append_nil, mem_flatMap, sound.mem_namesBefore,
      Log.Undefined, ne_eq, not_true_eq_false, false_and, and_false, iff_false, not_exists, not_and]
    rintro other ⟨different, e, among, leaves, below⟩ lacks
    obtain ⟨_, _, _, none⟩ := (unresolved_lookUpName sound bound site different).mp lacks
    obtain ⟨executions, same, _, listed⟩ := definersBefore_eq_map sound other bound
    have defined : s.isDefinedBy other (s.log.definersBefore other bound) = true := by
      refine any_eq_true.mpr ⟨e.ordinal, ?_, ?_⟩
      · exact sound.mem_definersBefore.mpr ⟨⟨e, among, Or.inl leaves, rfl⟩, below⟩
      · rw [originsAt_ordinal sound among, Bool.or_eq_true]
        exact Or.inr (ExtTreeMap.mem_iff_isSome_getElem?.mp leaves)
    rw [same, isDefinedBy_iff sound fun e member => ((listed e).mp member).1, ← same] at defined
    obtain ⟨t, found⟩ := defined
    exact none t ((mem_definersBack_iff_live sound).mp found)
  · rename_i different
    exact unresolved_lookUpName sound bound site different

end Sound

end Slice.Scene

end Lineage
