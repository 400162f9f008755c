import Lineage.Proofs.Flow.NoStar

/-!
Facts below other facts. Facts lie under others of the same statement if they know of nothing more:
no more origins, no more names, definitions or edges. Often only part of that matters, namely which
names may still have their value from before the block; so the order comes in two strengths.
Whatever a statement does at its index, its facts only rise.
-/

namespace Lineage.Flow

open List Std

namespace State

/-- Every origin that the first state gives a name the second gives it, or at least that of a value
from before the block if not all origins count. -/
def Under (full : Prop) (s t : State) : Prop :=
  ∀ name origin, full ∨ origin = .entry → origin ∈ s.reaching name → origin ∈ t.reaching name

variable {full : Prop} {s t u : State}

theorem under_of_below (below : s.Below t) : s.Under full t :=
  fun name origin _ reaches => below name origin reaches

theorem Under.refl (s : State) : s.Under full s :=
  under_of_below (.refl s)

theorem Under.trans (first : s.Under full t) (second : t.Under full u) : s.Under full u :=
  fun name origin counts reaches => second name origin counts (first name origin counts reaches)

theorem Under.merge {v : State} (first : s.Under full t) (second : u.Under full v) :
    (s.merge u).Under full (t.merge v) := by
  intro name origin counts reaches
  rw [mem_reaching_merge] at reaches ⊢
  exact reaches.imp (first name origin counts) (second name origin counts)

/-- Joined states lie under one that each of them lies under. -/
theorem under_of_join {rest : List State} (all : ∀ v ∈ s :: rest, v.Under full t) :
    (join (s :: rest)).Under full t := by
  intro name origin counts reaches
  obtain ⟨v, member, reaches⟩ := mem_reaching_join.mp reaches
  exact all v member name origin counts reaches

/-- Joined states lie under others if each of them lies under one of the others. -/
theorem under_join {rest others : List State}
    (all : ∀ v ∈ s :: rest, ∃ w ∈ t :: others, v.Under full w) :
    (join (s :: rest)).Under full (join (t :: others)) := by
  refine under_of_join fun v member => ?_
  obtain ⟨w, among, under⟩ := all v member
  exact under.trans (under_of_below (below_join among))

/-- What a use asks a state for: a name with the origins that it may have there, or everything that
was bound. -/
def Asked (s : State) (asked name : String) (origin : Origin) : Prop :=
  if asked = allNames then name = allNames ∧ origin = .entry ∨ origin ≠ .entry ∧
    origin ∈ s.reaching name
  else name = asked ∧ (origin ∈ s.reaching name ∨ origin ≠ .entry ∧ origin ∈ s.reaching allNames)

theorem Asked.mono {asked name : String} {origin : Origin} (found : s.Asked asked name origin)
    (under : s.Under full t) (counts : full ∨ origin = .entry) : t.Asked asked name origin := by
  unfold Asked at found ⊢
  split
  · rename_i every
    rw [if_pos every] at found
    exact found.imp_right fun ⟨other, reaches⟩ => ⟨other, under name origin counts reaches⟩
  · rename_i single
    rw [if_neg single] at found
    exact ⟨found.1, found.2.imp (under name origin counts) fun ⟨other, reaches⟩ =>
      ⟨other, under allNames origin counts reaches⟩⟩

/-- Statements that are asked for have been bound to some name. -/
theorem Asked.reaches {asked name : String} {k : Nat} (found : s.Asked asked name (.statement k)) :
    ∃ other, .statement k ∈ s.reaching other := by
  unfold Asked at found
  split at found
  · rcases found with ⟨_, same⟩ | ⟨_, reaches⟩
    · exact nomatch same
    · exact ⟨name, reaches⟩
  · rcases found.2 with reaches | ⟨_, reaches⟩
    · exact ⟨name, reaches⟩
    · exact ⟨allNames, reaches⟩

end State

namespace StatementFacts

/-- What asking for some origins of some names adds to what is known of a statement, and nothing
else. -/
structure Notes (all : Array StatementFacts) (asked : String → Origin → Prop)
    (f g : StatementFacts) : Prop where
  index : g.index = f.index
  node : g.node = f.node
  definitions : g.definitions = f.definitions
  entry : g.entry = f.entry
  free : g.free = f.free
  globalWrites : g.globalWrites = f.globalWrites
  dynamic : g.dynamic = f.dynamic
  external : ∀ name, name ∈ g.external ↔ name ∈ f.external ∨ asked name .entry
  inbound : ∀ edge, edge ∈ g.inbound ↔ edge ∈ f.inbound ∨
    ∃ name k source, asked name (.statement k) ∧ all[k]? = some source ∧ source.index ≠ f.index ∧
    edge = ⟨.data, source.location, f.location, some name⟩

namespace Notes

variable {all : Array StatementFacts} {a b : String → Origin → Prop} {f g h : StatementFacts}

theorem trans (first : f.Notes all a g) (second : g.Notes all b h) :
    f.Notes all (fun name origin => a name origin ∨ b name origin) h where
  index := second.index.trans first.index
  node := second.node.trans first.node
  definitions := second.definitions.trans first.definitions
  entry := second.entry.trans first.entry
  free := second.free.trans first.free
  globalWrites := second.globalWrites.trans first.globalWrites
  dynamic := second.dynamic.trans first.dynamic
  external name := by rw [second.external, first.external, or_assoc]
  inbound edge := by
    have location : g.location = f.location := congrArg Node.loc first.node
    rw [second.inbound, first.inbound, first.index, location, or_assoc]
    simp only [or_and_right, exists_or]

theorem congr (notes : f.Notes all a g) (same : ∀ name origin, a name origin ↔ b name origin) :
    f.Notes all b g where
  index := notes.index
  node := notes.node
  definitions := notes.definitions
  entry := notes.entry
  free := notes.free
  globalWrites := notes.globalWrites
  dynamic := notes.dynamic
  external name := by rw [notes.external, same]
  inbound edge := by simp only [notes.inbound, same]

end Notes

theorem notes_nothing (all : Array StatementFacts) {a : String → Origin → Prop} (f : StatementFacts)
    (none : ∀ name origin, ¬ a name origin) : f.Notes all a f :=
  ⟨rfl, rfl, rfl, rfl, rfl, rfl, rfl, fun _ => (or_iff_left (none _ _)).symm,
    fun _ => (or_iff_left fun ⟨_, _, _, asked, _⟩ => none _ _ asked).symm⟩

theorem Reads.notes {all : Array StatementFacts} {origins : Origin → Prop} {name : String}
    {f g : StatementFacts} (reads : f.Reads all origins name g) :
    f.Notes all (fun other origin => other = name ∧ origins origin) g where
  index := reads.index
  node := reads.node
  definitions := reads.definitions
  entry := reads.entry
  free := reads.free
  globalWrites := reads.globalWrites
  dynamic := reads.dynamic
  external := reads.external
  inbound edge := by
    rw [reads.inbound]
    refine or_congr_right ⟨?_, ?_⟩
    · rintro ⟨k, source, asked, rest⟩
      exact ⟨name, k, source, ⟨rfl, asked⟩, rest⟩
    · rintro ⟨_, k, source, ⟨rfl, asked⟩, rest⟩
      exact ⟨k, source, asked, rest⟩

theorem mem_origins_iff {s : State} {name : String} {origin : Origin} :
    origin ∈ origins s name ↔ origin ∈ s.reaching name ∨ origin ≠ .entry ∧
    origin ∈ s.reaching allNames := by
  unfold origins
  split
  · rename_i missing
    refine (or_iff_left ?_).symm
    rintro ⟨other, reaches⟩
    rw [State.reaching_eq_getD, missing] at reaches
    exact other (State.mem_untouched.mp reaches)
  · rename_i anything found
    rw [ExtTreeSet.mem_union_iff, ExtTreeSet.mem_erase, State.reaching_eq_getD s allNames, found]
    simp only [Option.getD_some, ne_eq, Std.LawfulEqOrd.compare_eq_iff_eq, eq_comm (a := origin)]

/-- Noting the uses of a list of names, each with its origins. -/
theorem notes_entries (all : Array StatementFacts) (entries : List (String × Origins))
    (f : StatementFacts) : f.Notes all (fun name origin => origin ≠ .entry ∧
      ∃ origins, (name, origins) ∈ entries ∧ origin ∈ origins)
        (entries.foldl (fun f (name, origins) => origins.toList.foldl
          (fun f origin => if origin = .entry then f else f.useOrigin all name origin) f) f) := by
  induction entries generalizing f with
  | nil =>
    exact notes_nothing all f fun name origin ⟨_, _, member, _⟩ => absurd member not_mem_nil
  | cons entry rest ih =>
    have skipped : ∀ (os : List Origin) (f : StatementFacts), os.foldl
        (fun f origin => if origin = .entry then f else f.useOrigin all entry.1 origin) f =
        (os.filter (· ≠ .entry)).foldl (fun f origin => f.useOrigin all entry.1 origin) f := by
      intro os f
      rw [foldl_filter]
      congr 1
      funext f origin
      by_cases same : origin = .entry <;> simp [same]
    have own := (reads_foldl all entry.1 (entry.2.toList.filter (· ≠ .entry)) f).notes
    rw [← skipped] at own
    refine (own.trans (ih _)).congr fun name origin => ?_
    simp only [mem_filter, ExtTreeSet.mem_toList, decide_eq_true_eq, mem_cons]
    constructor
    · rintro (⟨rfl, member, other⟩ | ⟨other, origins, listed, member⟩)
      · exact ⟨other, entry.2, Or.inl rfl, member⟩
      · exact ⟨other, origins, Or.inr listed, member⟩
    · rintro ⟨other, origins, rfl | listed, member⟩
      · exact Or.inl ⟨rfl, member, other⟩
      · exact Or.inr ⟨other, origins, listed, member⟩

/-- Using everything asks a state for all that was bound. -/
theorem notes_useEverything (all : Array StatementFacts) (s : State) (f : StatementFacts) :
    f.Notes all (s.Asked allNames) (f.useEverything all s) := by
  have noted :=
      notes_entries all s.toList { f with uses := addNew f.uses ⟨allNames, allNames,
        .everything, f.location⟩ }
  have held : ∀ name origin, (origin ≠ .entry ∧ ∃ origins, (name, origins) ∈ s.toList ∧
    origin ∈ origins) ↔
      origin ≠ .entry ∧ origin ∈ s.reaching name := by
    intro name origin
    refine and_congr_right fun other => ?_
    simp only [ExtTreeMap.mem_toList_iff_getElem?_eq_some, State.reaching_eq_getD]
    cases s[name]? with
    | none => simpa using other
    | some origins => simp
  refine ⟨noted.index, noted.node, noted.definitions, noted.entry, noted.free, noted.globalWrites,
    noted.dynamic,
    fun name => ?_, fun edge => ?_⟩
  · change name ∈ ExtTreeSet.insert _ allNames ↔ _
    rw [ExtTreeSet.mem_insert, Std.LawfulEqOrd.compare_eq_iff_eq, noted.external, State.Asked,
      if_pos rfl]
    simp [or_comm, eq_comm]
  · refine (noted.inbound edge).trans (or_congr_right ?_)
    simp only [held, State.Asked, if_pos]
    simp [StatementFacts.location]

/-- Using a name asks a state for its origins. -/
theorem notes_use (all : Array StatementFacts) (s : State) (f : StatementFacts) (u : Use) :
    f.Notes all (s.Asked u.name) (f.use all s u) := by
  unfold use
  split
  · rename_i every
    rw [every]
    exact notes_useEverything all s f
  · rename_i single
    have used := (reads_foldl all u.name (origins s u.name).toList
      { f with uses := addNew f.uses u }).notes
    have noted := used.congr (b := s.Asked u.name) fun name origin => by
      simp only [ExtTreeSet.mem_toList, mem_origins_iff, State.Asked, if_neg single]
      exact and_congr_right fun same => same ▸ Iff.rfl
    exact ⟨noted.index, noted.node, noted.definitions, noted.entry, noted.free, noted.globalWrites,
      noted.dynamic, noted.external, noted.inbound⟩

/-- The second facts are of the same statement as the first and know of all that the first know of:
all of it, or at least which names may have their value from before the block and which are bound
outright. Control is left aside. -/
structure Under (full : Prop) (f g : StatementFacts) : Prop where
  index : g.index = f.index
  node : g.node = f.node
  entry : f.entry.Under full g.entry
  external : ∀ name ∈ f.external, name ∈ g.external
  free : ∀ name ∈ f.free, name ∈ g.free
  globalWrites : ∀ name ∈ f.globalWrites, name ∈ g.globalWrites
  dynamic : f.dynamic = true → g.dynamic = true
  definitions : ∀ d ∈ f.definitions, full ∨ d.kind.kills = true → d ∈ g.definitions
  data : full → ∀ edge ∈ f.inbound, edge.kind = .data → edge ∈ g.inbound

namespace Under

variable {full : Prop} {f g h : StatementFacts}

theorem refl (f : StatementFacts) : f.Under full f :=
  ⟨rfl, rfl, .refl _, fun _ => id, fun _ => id, fun _ => id, id, fun _ member _ => member,
    fun _ _ member _ => member⟩

theorem trans (first : f.Under full g) (second : g.Under full h) : f.Under full h where
  index := second.index.trans first.index
  node := second.node.trans first.node
  entry := first.entry.trans second.entry
  external name member := second.external name (first.external name member)
  free name member := second.free name (first.free name member)
  globalWrites name member := second.globalWrites name (first.globalWrites name member)
  dynamic := second.dynamic ∘ first.dynamic
  definitions d member counts := second.definitions d (first.definitions d member counts) counts
  data counts edge member kind := second.data counts edge (first.data counts edge member kind) kind

theorem of_full (under : f.Under True g) : f.Under full g :=
  { under with
    entry := fun name origin _ => under.entry name origin (Or.inl trivial)
    definitions := fun d member _ => under.definitions d member (Or.inl trivial)
    data := fun _ => under.data trivial }

end Under

theorem Notes.under {full : Prop} {all : Array StatementFacts} {asked : String → Origin → Prop}
    {f g : StatementFacts} (notes : f.Notes all asked g) : f.Under full g where
  index := notes.index
  node := notes.node
  entry := notes.entry ▸ .refl _
  external name member := (notes.external name).mpr (Or.inl member)
  free _ member := notes.free.symm ▸ member
  globalWrites _ member := notes.globalWrites.symm ▸ member
  dynamic flag := notes.dynamic.trans flag
  definitions _ member _ := notes.definitions.symm ▸ member
  data _ edge member _ := (notes.inbound edge).mpr (Or.inl member)

theorem under_define {full : Prop} (f : StatementFacts) (d : Definition) :
    f.Under full (f.define d) :=
  { Under.refl f with definitions := fun _ member _ => subset_addNew f.definitions d member }

end StatementFacts

namespace Progress

/-- All facts of the first analysis lie under those of the second. -/
def Under (full : Prop) (p q : Progress) : Prop :=
  ∀ (k : Nat) (f : StatementFacts), p.facts[k]? = some f → ∃ g, q.facts[k]? = some g ∧
    f.Under full g

variable {full : Prop} {i : Nat} {p q r : Progress}

theorem Under.refl (p : Progress) : p.Under full p :=
  fun _ f found => ⟨f, found, .refl f⟩

theorem Under.trans (first : p.Under full q) (second : q.Under full r) : p.Under full r := by
  intro k f found
  obtain ⟨g, foundG, under⟩ := first k f found
  obtain ⟨h, foundH, above⟩ := second k g foundG
  exact ⟨h, foundH, under.trans above⟩

theorem Under.of_full (under : p.Under True q) : p.Under full q := by
  intro k f found
  obtain ⟨g, foundG, above⟩ := under k f found
  exact ⟨g, foundG, above.of_full⟩

theorem Under.foldl {α : Type} {step : Progress → α → Progress}
    (under : ∀ (p : Progress) (x : α), p.Under full (step p x)) (xs : List α) (p : Progress) :
    p.Under full (xs.foldl step p) := by
  induction xs generalizing p with
  | nil => exact .refl p
  | cons x rest ih => exact (under p x).trans (ih (step p x))

theorem under_revise (p : Progress) (i : Nat) {c : StatementFacts → StatementFacts}
    (under : ∀ f : StatementFacts, p.facts[i]? = some f → f.Under full (c f)) :
    p.Under full (p.revise i c) := by
  intro k f found
  rw [revise, Array.getElem?_modify]
  split
  · rename_i same
    subst same
    exact ⟨c f, by rw [found]; rfl, under f found⟩
  · exact ⟨f, found, .refl f⟩

theorem under_use (p : Progress) (i : Nat) (u : Use) : p.Under full (p.use i u) :=
  p.under_revise i fun f _ => (f.notes_use p.facts p.state u).under

theorem under_uses (p : Progress) (i : Nat) (us : List Use) :
    p.Under full (us.foldl (fun p u => p.use i u) p) :=
  .foldl (fun p u => p.under_use i u) us p

theorem under_define (p : Progress) (i : Nat) (d : Definition) : p.Under full (p.define i d) :=
  p.under_revise i fun f _ => f.under_define d

theorem under_defineAll (p : Progress) (i : Nat) (ds : List Definition) :
    p.Under full (p.defineAll i ds) :=
  .foldl (fun p d => p.under_define i d) ds p

theorem under_flush (p : Progress) (i : Nat) : p.Under full (p.flush i) :=
  under_defineAll { p with pending := [] } i p.pending

theorem under_setDynamic (p : Progress) (i : Nat) :
    p.Under full (p.revise i fun f => { f with dynamic := true }) :=
  p.under_revise i fun f _ => { StatementFacts.Under.refl f with dynamic := fun _ => rfl }

theorem under_read (env : Env) (i : Nat) (e : Node) (p : Progress) :
    p.Under full (p.read env i e) := by
  unfold read
  refine Under.trans ?_ (under_uses _ i _)
  split
  · exact p.under_setDynamic i
  · exact .refl p

theorem under_readAll (env : Env) (i : Nat) (es : List Node) (p : Progress) :
    p.Under full (p.readAll env i es) :=
  .foldl (fun p e => p.under_read env i e) es p

theorem under_close (p : Progress) (i : Nat) (free writes : NameSet) :
    p.Under full (p.revise i fun f =>
      { f with free := f.free ∪ free, globalWrites := f.globalWrites ∪ writes }) := by
  refine p.under_revise i fun f _ =>
    { StatementFacts.Under.refl f with free := ?_, globalWrites := ?_ }
  · exact fun name member => ExtTreeSet.mem_union_iff.mpr (Or.inl member)
  · exact fun name member => ExtTreeSet.mem_union_iff.mpr (Or.inl member)

theorem under_act (env : Env) (i : Nat) (p : Progress) (a : Action) :
    p.Under full (p.act env i a) := by
  cases a with
  | evaluate es => exact (p.under_readAll env i es).trans (under_flush _ i)
  | define d => exact p.under_define i d
  | use u => exact p.under_use i u
  | close free writes => exact p.under_close i free writes
  | «break» => exact .refl p
  | «continue» => exact .refl p

theorem under_acts (env : Env) (i : Nat) (actions : List Action) (p : Progress) :
    p.Under full (p.acts env i actions) :=
  .foldl (fun p a => p.under_act env i a) actions p

/-- A statement that is entered has its facts, and the state it is entered in is noted there. -/
theorem facts_enter (parent : Option Nat) (n : Node) (fits : i ≤ p.facts.size) :
    ∃ f, (p.enter parent i n).facts[i]? = some f ∧ ((∃ g, p.facts[i]? = some g ∧
        f = { g with entry := g.entry.merge p.state }) ∨
      p.facts[i]? = none ∧ f.index = i ∧ f.node = n ∧ f.entry = p.state ∧ f.external = ∅ ∧
        f.free = ∅ ∧
        f.globalWrites = ∅ ∧ f.dynamic = false ∧ f.definitions = [] ∧
        ∀ edge ∈ f.inbound, edge.kind = .control) := by
  unfold enter
  split
  · rename_i inside
    obtain ⟨g, found⟩ : ∃ g, p.facts[i]? = some g := ⟨_, Array.getElem?_eq_getElem inside⟩
    refine ⟨_, ?_, Or.inl ⟨g, found, rfl⟩⟩
    rw [revise, Array.getElem?_modify, if_pos rfl, found]
    rfl
  · rename_i outside
    have next : p.facts.size = i := by omega
    subst next
    have missing : p.facts[p.facts.size]? = none := Array.getElem?_eq_none (Nat.le_refl _)
    dsimp only
    refine ⟨_, Array.getElem?_push_size, Or.inr ⟨missing, ?_⟩⟩
    split
    · exact ⟨rfl, rfl, rfl, rfl, rfl, rfl, rfl, rfl, forall_mem_nil _⟩
    · unfold StatementFacts.dependOn
      split
      · exact ⟨rfl, rfl, rfl, rfl, rfl, rfl, rfl, rfl, forall_mem_nil _⟩
      · refine ⟨rfl, rfl, rfl, rfl, rfl, rfl, rfl, rfl, fun edge member => ?_⟩
        simp only [StatementFacts.fresh, StatementFacts.mem_addNew_iff, not_mem_nil,
          false_or] at member
        rw [member]

theorem under_enter (parent : Option Nat) (n : Node) (fits : i ≤ p.facts.size) :
    p.Under full (p.enter parent i n) := by
  intro k f found
  by_cases same : k = i
  · subst same
    obtain ⟨g, foundG, ⟨h, foundH, rfl⟩ | ⟨missing, _⟩⟩ := facts_enter parent n fits
    · obtain rfl := Option.some.inj (found.symm.trans foundH)
      refine ⟨_, foundG, { StatementFacts.Under.refl f with entry := ?_ }⟩
      exact State.under_of_below (State.below_merge_left _ _)
    · exact nomatch found.symm.trans missing
  · exact ⟨f, (frame_enter parent n fits same).trans found, .refl f⟩

end Progress

end Lineage.Flow
