import Lineage.Proofs.Slice.Union
import Mathlib.Data.List.Forall2

/-!
Histories that are alike have the same slices. What a goal leads to depends on the facts about
executions and on the order of their ordinals only. So where the executions of two histories that
could be read stand for each other, with the same facts and in the same order, following goals runs
alike in both, and the closures and their lines are the same.
-/

namespace Lineage

open List Flow

variable {e e' : Execution} {f : StatementFacts} {r : Result} {k k' : Int} {l l' : Log}
  {name : String} {rel : Int → Int → Prop} {t t' u : Timestamp}

/-- A statement or point stands for another one. -/
def Timestamp.Stands (rel : Int → Int → Prop) (t t' : Timestamp) : Prop :=
  rel t.ordinal t'.ordinal ∧ t.index = t'.index

/-- Two histories are alike up to ordinals that stand for each other: these are in the same order,
and the executions up to them that could be read stand for each other and have the same facts. -/
structure Log.Alike (rel : Int → Int → Prop) (l l' : Log) : Prop where
  sound : l.Sound
  other : l'.Sound
  order : ∀ {j j' k k'}, rel j j' → rel k k' → (j < k ↔ j' < k')
  forth : ∀ {k k'}, rel k k' → ∀ e ∈ l.executions, e.ordinal ≤ k → ∀ r, e.facts? = some r →
    ∃ e' ∈ l'.executions, rel e.ordinal e'.ordinal ∧ e'.facts? = some r
  back : ∀ {k k'}, rel k k' → ∀ e' ∈ l'.executions, e'.ordinal ≤ k' → ∀ r, e'.facts? = some r →
    ∃ e ∈ l.executions, rel e.ordinal e'.ordinal ∧ e.facts? = some r

namespace Log.Alike

theorem symm (alike : Alike rel l l') : Alike (fun k' k => rel k k') l' l :=
  ⟨alike.other, alike.sound, fun first second => (alike.order first second).symm, alike.back,
    alike.forth⟩

section

variable (alike : Alike rel l l')

include alike

theorem eq_iff {j j' : Int} (first : rel j j') (second : rel k k') : j = k ↔ j' = k' := by
  have below := alike.order first second
  have above := alike.order second first
  omega

/-- An execution that could be read has its facts under the ordinal that stands for its own. -/
theorem facts (stands : rel k k') (member : e ∈ l.executions) (own : e.ordinal = k)
    (facts : e.facts? = some r) : ∃ e' ∈ l'.executions, e'.ordinal = k' ∧ e'.facts? = some r := by
  obtain ⟨e', there, same, read⟩ := alike.forth stands e member (Int.le_of_eq own) r facts
  exact ⟨e', there, (alike.eq_iff same stands).mp own, read⟩

theorem facts_bind_subset (stands : rel k k') (found : (l.at? k).bind Execution.facts? = some r) :
    (l'.at? k').bind Execution.facts? = some r := by
  obtain ⟨e, held, read⟩ := Option.bind_eq_some_iff.mp found
  obtain ⟨member, own⟩ := alike.sound.at?_eq_some.mp held
  obtain ⟨e', there, own', read'⟩ := alike.facts stands member own read
  rw [alike.other.at?_eq_some.mpr ⟨there, own'⟩, Option.bind_some, read']

theorem facts_bind_eq (stands : rel k k') :
    (l'.at? k').bind Execution.facts? = (l.at? k).bind Execution.facts? :=
  Option.ext fun _ => ⟨alike.symm.facts_bind_subset stands, alike.facts_bind_subset stands⟩

theorem live (stands : rel k k') (live : l.Live k name u) : ∃ u', u.Stands rel u' ∧
    l'.Live k' name u' := by
  obtain ⟨e, member, own, below, ⟨i, index, reaches⟩, opens⟩ := live
  obtain ⟨r, facts⟩ : ∃ r, e.facts? = some r := by
    rcases reaches with reaches | reaches
    all_goals
      obtain ⟨r, facts, _⟩ := Execution.mem_exit.mp (State.mem_of_statement reaches)
      exact ⟨r, facts⟩
  obtain ⟨e', there, same, facts'⟩ := alike.forth stands e member (Int.le_of_lt below) r facts
  refine ⟨⟨e'.ordinal, i⟩, ⟨own ▸ same, index⟩, e', there, rfl, (alike.order same stands).mp below,
    ⟨i, rfl, ?_⟩, ?_⟩
  · rwa [Execution.exit_eq facts', ← Execution.exit_eq facts]
  · intro later' among after under
    rcases Slice.Scene.exit_cases later' with none | ⟨r', facts, exit⟩
    · rw [none, State.reaching_empty, State.mem_untouched]
    · obtain ⟨later, here, match', facts⟩ :=
        alike.back stands later' among (Int.le_of_lt under) r' facts
      rw [exit, ← Execution.exit_eq facts]
      exact opens later here ((alike.order same match').mpr after)
        ((alike.order match' stands).mpr under)

theorem defines (stands : rel k k') (defines : l.Defines k name u) : ∃ u', u.Stands rel u' ∧
    l'.Defines k' name u' := by
  have leaves : ∀ {e : Execution}, e ∈ l.executions → e.ordinal < k → (∃ name, name ∈ e.exit) →
      ∃ e' ∈ l'.executions, rel e.ordinal e'.ordinal ∧ e'.ordinal < k' ∧ e'.exit = e.exit := by
    rintro e member below ⟨name, held⟩
    obtain ⟨r, facts, _⟩ := Execution.mem_exit.mp held
    obtain ⟨e', there, same, facts'⟩ := alike.forth stands e member (Int.le_of_lt below) r facts
    refine ⟨e', there, same, (alike.order same stands).mp below, ?_⟩
    rw [Execution.exit_eq facts', Execution.exit_eq facts]
  cases defines with
  | one different live =>
    obtain ⟨u', same, live'⟩ := alike.live stands live
    exact ⟨u', same, .one different live'⟩
  | known member below held different live =>
    obtain ⟨e', there, _, below', exit⟩ := leaves member below ⟨_, held⟩
    obtain ⟨u', same, live'⟩ := alike.live stands live
    exact ⟨u', same, .known there below' (exit ▸ held) different live'⟩
  | @any e i member below reaches =>
    obtain ⟨e', there, same, below', exit⟩ :=
      leaves member below ⟨_, State.mem_of_statement reaches⟩
    exact ⟨⟨e'.ordinal, i⟩, ⟨same, rfl⟩, .any there below' (exit ▸ reaches)⟩

theorem undefined (stands : rel k k') (undefined : l.Undefined k name) : l'.Undefined k' name := by
  refine ⟨undefined.1, undefined.2.1, fun u' live => ?_⟩
  obtain ⟨u, _, live⟩ := alike.symm.live stands live
  exact undefined.2.2 u live

theorem holds (stands : t.Stands rel t') (holds : l.Holds t f) : l'.Holds t' f := by
  obtain ⟨e, member, own, i, index, found⟩ := holds
  obtain ⟨r, facts⟩ := Execution.exists_facts (mem_of_getElem? found)
  obtain ⟨e', there, own', facts'⟩ := alike.facts stands.1 member own facts
  refine ⟨e', there, own', i, stands.2.symm.trans index, ?_⟩
  rwa [Execution.statements_eq facts', ← Execution.statements_eq facts]

end

end Log.Alike

namespace Slice

/-- A goal stands for another one. -/
def Goal.Stands (rel : Int → Int → Prop) : Goal → Goal → Prop
  | .statement t, .statement t' => t.Stands rel t'
  | .call c, .call c' => c.target.Stands rel c'.target ∧ c.site.Stands rel c'.site
  | _, _ => False

theorem Goal.Stands.symm {g g' : Goal} (stands : g.Stands rel g') :
    g'.Stands (fun k' k => rel k k') g := by
  cases g <;> cases g' <;> simp_all [Goal.Stands, Timestamp.Stands]

namespace Scene

/-- The histories of two scenes are alike, and calls are followed in the same way. -/
structure Alike (rel : Int → Int → Prop) (s s' : Scene) : Prop where
  log : s.log.Alike rel s'.log
  atCall : s.atCall = s'.atCall

namespace Alike

variable {s s' : Scene} {g g' h : Goal} {p p' : Timestamp} {site site' : Option Timestamp}

theorem symm (alike : Alike rel s s') : Alike (fun k' k => rel k k') s' s :=
  ⟨alike.log.symm, alike.atCall.symm⟩

section

variable (alike : Alike rel s s')

include alike

/-! ### Following goals -/

theorem statement?_eq (stands : t.Stands rel t') : s'.statement? t' = s.statement? t := by
  refine Option.ext fun f => ?_
  rw [statement?_eq_some alike.log.other, statement?_eq_some alike.log.sound]
  exact ⟨alike.log.symm.holds ⟨stands.1, stands.2.symm⟩, alike.log.holds stands⟩

theorem need (stands : t.Stands rel t') (sites : Option.Rel (Timestamp.Stands rel) site site')
    (need : g ∈ s.need site t) :
    ∃ g' ∈ s'.need site' t', g.Stands rel g' := by
  obtain ⟨f, held, here⟩ := mem_need.mp need
  have holds := (statement?_eq_some alike.log.sound).mp held
  have held' := (alike.statement?_eq stands).trans held
  rcases here with rfl | ⟨reads, rfl⟩
  · exact ⟨.statement t', mem_need.mpr ⟨f, held', Or.inl rfl⟩, stands⟩
  · refine ⟨.call ⟨t', s'.callSite site' t'⟩, mem_need.mpr ⟨f, held', Or.inr ⟨reads, rfl⟩⟩,
      stands, ?_⟩
    obtain ⟨e, member, own, _, _, found⟩ := holds
    obtain ⟨r, facts⟩ := Execution.exists_facts (mem_of_getElem? found)
    obtain ⟨e', there, own', facts'⟩ := alike.log.facts stands.1 member own facts
    have exit : (exitSite e).Stands rel (exitSite e') := by
      rw [exitSite, exitSite, Execution.statements_eq facts, Execution.statements_eq facts',
        own, own']
      exact ⟨stands.1, rfl⟩
    dsimp only
    rw [callSite_eq alike.log.sound site member own, callSite_eq alike.log.other site' there own',
      alike.atCall]
    split
    · cases sites with
      | none => exact exit
      | some same => exact same
    · exact exit

theorem stateAt_eq (stands : p.Stands rel p') : s'.stateAt p' = s.stateAt p := by
  have exit : ∀ (l : Log) (k : Int), ((l.at? k).map Execution.exit).getD ∅ =
      (((l.at? k).bind Execution.facts?).map Result.exit).getD ∅ := by
    intro l k
    cases l.at? k <;> rfl
  rw [stateAt, stateAt, alike.statement?_eq stands, exit, exit, alike.log.facts_bind_eq stands.1]

theorem found (stands : rel k k') (member : u ∈ s.found k name) :
    ∃ u' ∈ s'.found k' name, u.Stands rel u' := by
  obtain ⟨u', same, defines⟩ := alike.log.defines stands ((mem_found alike.log.sound).mp member)
  exact ⟨u', (mem_found alike.log.other).mpr defines, same⟩

theorem resolved (stands : p.Stands rel p') (member : u ∈ s.resolved p name) :
    ∃ u' ∈ s'.resolved p' name, u.Stands rel u' := by
  have own : ∀ {origins : Origins}, u ∈ stampsOf p.ordinal origins →
      ⟨p'.ordinal, u.index⟩ ∈ stampsOf p'.ordinal origins ∧ u.Stands rel ⟨p'.ordinal, u.index⟩ := by
    intro origins stamped
    obtain ⟨here, reaches⟩ := mem_stampsOf.mp stamped
    exact ⟨mem_stampsOf.mpr ⟨rfl, reaches⟩, here ▸ stands.1, rfl⟩
  simp only [Scene.resolved, alike.stateAt_eq stands] at member ⊢
  split at member
  · rename_i all
    rw [if_pos all]
    rcases mem_append.mp member with near | far
    · obtain ⟨entry, among, stamped⟩ := mem_flatMap.mp near
      exact ⟨_, mem_append_left _ (mem_flatMap.mpr ⟨entry, among, (own stamped).1⟩),
        (own stamped).2⟩
    · obtain ⟨u', there, same⟩ := alike.found stands.1 far
      exact ⟨u', mem_append_right _ there, same⟩
  · rename_i one
    rw [if_neg one]
    rcases mem_append.mp member with near | far
    · exact ⟨_, mem_append_left _ (own near).1, (own near).2⟩
    · split at far
      · rename_i opens
        obtain ⟨u', there, same⟩ := alike.found stands.1 far
        rw [if_pos opens]
        exact ⟨u', mem_append_right _ there, same⟩
      · exact absurd far not_mem_nil

theorem sources (stands : t.Stands rel t') {edge : Edge} (member : u ∈ s.sources t edge) :
    ∃ u' ∈ s'.sources t' edge, u.Stands rel u' := by
  have here : ∀ (s : Scene) (t : Timestamp), s.sources t edge =
      (((s.log.at? t.ordinal).bind Execution.facts?).bind fun r => r.at? edge.source).toList.map
        fun source => ⟨t.ordinal, source.index⟩ := by
    intro s t
    rw [Scene.sources, Option.bind_assoc]
  rw [here] at member
  rw [here, alike.log.facts_bind_eq stands.1]
  obtain ⟨source, among, rfl⟩ := mem_map.mp member
  exact ⟨_, mem_map_of_mem among, stands.1, rfl⟩

/-- What a goal leads to stands for what a goal leads to that it stands for. -/
theorem follow_goals (stands : g.Stands rel g') (lead : h ∈ (s.follow g).goals) :
    ∃ h' ∈ (s'.follow g').goals, h.Stands rel h' := by
  cases g with
  | statement t =>
    cases g' with
    | call _ => exact stands.elim
    | statement t' =>
      have stands : t.Stands rel t' := stands
      obtain ⟨f, read, ⟨edge, among, u, source, need⟩ | ⟨name, uses, u, found, need⟩⟩ :=
        mem_goals_statement.mp lead
      · obtain ⟨u', there, same⟩ := alike.sources stands source
        have sites : Option.Rel (Timestamp.Stands rel) (if edge.kind = .data then some t else none)
            (if edge.kind = .data then some t' else none) := by
          split
          · exact .some stands
          · exact .none
        obtain ⟨h', need', like⟩ := alike.need same sites need
        exact ⟨h', mem_goals_statement.mpr ⟨f, (alike.statement?_eq stands).trans read,
          Or.inl ⟨edge, among, u', there, need'⟩⟩, like⟩
      · obtain ⟨u', there, same⟩ := alike.found stands.1 found
        obtain ⟨h', need', like⟩ := alike.need same (.some stands) need
        exact ⟨h', mem_goals_statement.mpr ⟨f, (alike.statement?_eq stands).trans read,
          Or.inr ⟨name, uses, u', there, need'⟩⟩, like⟩
  | call c =>
    cases g' with
    | statement _ => exact stands.elim
    | call c' =>
      obtain ⟨target, site⟩ := stands
      obtain ⟨f, read, name, reads, u, resolved, need⟩ := mem_goals_call.mp lead
      obtain ⟨u', there, same⟩ := alike.resolved site resolved
      obtain ⟨h', need', like⟩ := alike.need same (.some site) need
      exact ⟨h', mem_goals_call.mpr ⟨f, (alike.statement?_eq target).trans read, name, reads, u',
        there, need'⟩, like⟩

theorem follow_unresolved (stands : g.Stands rel g') (lacks : name ∈ (s.follow g).unresolved) :
    name ∈ (s'.follow g').unresolved := by
  cases g with
  | statement t =>
    cases g' with
    | call _ => exact stands.elim
    | statement t' =>
      obtain ⟨f, holds, uses, undefined⟩ := (mem_unresolved_statement alike.log.sound).mp lacks
      exact (mem_unresolved_statement alike.log.other).mpr
        ⟨f, alike.log.holds stands holds, uses, alike.log.undefined stands.1 undefined⟩
  | call c =>
    cases g' with
    | statement _ => exact stands.elim
    | call c' =>
      obtain ⟨target, site⟩ := stands
      obtain ⟨f, holds, reads, opens, undefined⟩ := (mem_unresolved_call alike.log.sound).mp lacks
      rw [← alike.stateAt_eq site] at opens
      exact (mem_unresolved_call alike.log.other).mpr
        ⟨f, alike.log.holds target holds, reads, opens, alike.log.undefined site.1 undefined⟩

theorem reached {seeds seeds' : List Goal} (covered : ∀ g ∈ seeds, ∃ g' ∈ seeds', g.Stands rel g')
    (reached : Reached s seeds g) : ∃ g', Reached s' seeds' g' ∧ g.Stands rel g' := by
  induction reached with
  | seed member =>
    obtain ⟨g', there, same⟩ := covered _ member
    exact ⟨g', .seed there, same⟩
  | follow _ lead ih =>
    obtain ⟨g', there, same⟩ := ih
    obtain ⟨h', lead', like⟩ := alike.follow_goals same lead
    exact ⟨h', .follow there lead', like⟩

end

end Alike

end Scene

/-! ### Closures -/

/-- Closures that have been followed to the end from goals that stand for each other. -/
def Closure.Alike (rel : Int → Int → Prop) (s s' : Scene) (c c' : Closure) : Prop :=
  ∃ seeds seeds', (∀ g ∈ seeds, ∃ g' ∈ seeds', g.Stands rel g') ∧
    (∀ g' ∈ seeds', ∃ g ∈ seeds, g.Stands rel g') ∧ Underway s seeds [] c ∧ Underway s' seeds' [] c'

namespace Closure.Alike

variable {s s' : Scene} {c c' : Closure} {site site' : Option Timestamp} {ts ts' : List Timestamp}

theorem symm (closures : Closure.Alike rel s s' c c') :
    Closure.Alike (fun k' k => rel k k') s' s c' c := by
  obtain ⟨seeds, seeds', forth, back, here, there⟩ := closures
  refine ⟨seeds', seeds, fun g' member => ?_, fun g member => ?_, there, here⟩
  · obtain ⟨g, among, same⟩ := back g' member
    exact ⟨g, among, same.symm⟩
  · obtain ⟨g', among, same⟩ := forth g member
    exact ⟨g', among, same.symm⟩

section

variable (alike : s.Alike rel s') (closures : Closure.Alike rel s s' c c')

include alike closures

theorem included (member : t ∈ c.included) : ∃ t' ∈ c'.included, t.Stands rel t' := by
  obtain ⟨seeds, seeds', forth, _, here, there⟩ := closures
  obtain ⟨g', reached, same⟩ := alike.reached forth (here.has_iff.mp (has_statement.mpr member))
  cases g' with
  | statement t' => exact ⟨t', has_statement.mp (there.has_iff.mpr reached), same⟩
  | call _ => exact same.elim

theorem mem_included (stands : t.Stands rel t') (member : t ∈ c.included) : t' ∈ c'.included := by
  obtain ⟨u', there, same⟩ := closures.included alike member
  obtain rfl : u' = t' := by
    have ordinal := (alike.log.eq_iff same.1 stands.1).mp rfl
    cases u'
    cases t'
    exact Timestamp.mk.injEq .. ▸ ⟨ordinal, same.2.symm.trans stands.2⟩
  exact there

theorem unresolved_subset (lacks : name ∈ c.unresolved) : name ∈ c'.unresolved := by
  obtain ⟨seeds, seeds', forth, _, here, there⟩ := closures
  obtain ⟨g, reached, lacking⟩ := here.lacking name lacks
  obtain ⟨g', reached', same⟩ := alike.reached forth reached
  exact there.mem_unresolved_iff.mpr ⟨g', reached', alike.follow_unresolved same lacking⟩

theorem unresolved_eq : c'.unresolved = c.unresolved :=
  Std.ExtTreeSet.ext_mem fun _ =>
    ⟨closures.symm.unresolved_subset alike.symm, closures.unresolved_subset alike⟩

theorem require (sites : Option.Rel (Timestamp.Stands rel) site site')
    (points : ∀ p ∈ site, s.log.Point p) (points' : ∀ p ∈ site', s'.log.Point p)
    (forth : ∀ t ∈ ts, ∃ t' ∈ ts', t.Stands rel t') (back : ∀ t' ∈ ts', ∃ t ∈ ts, t.Stands rel t') :
    Closure.Alike rel s s' (c.require s site ts) (c'.require s' site' ts') := by
  obtain ⟨seeds, seeds', ahead, behind, here, there⟩ := closures
  refine ⟨_, _, ?_, ?_, Scene.underway_require alike.log.sound points ts here,
    Scene.underway_require alike.log.other points' ts' there⟩
  · refine forall_mem_append.mpr ⟨fun g member => ?_, fun g member => ?_⟩
    · obtain ⟨g', among, same⟩ := ahead g member
      exact ⟨g', mem_append_left _ among, same⟩
    · obtain ⟨t, asked, need⟩ := mem_flatMap.mp member
      obtain ⟨t', asked', same⟩ := forth t asked
      obtain ⟨g', need', like⟩ := alike.need same sites need
      exact ⟨g', mem_append_right _ (mem_flatMap.mpr ⟨t', asked', need'⟩), like⟩
  · refine forall_mem_append.mpr ⟨fun g member => ?_, fun g member => ?_⟩
    · obtain ⟨g', among, same⟩ := behind g member
      exact ⟨g', mem_append_left _ among, same⟩
    · obtain ⟨t', asked', need'⟩ := mem_flatMap.mp member
      obtain ⟨t, asked, same⟩ := back t' asked'
      have sites' : Option.Rel (Timestamp.Stands fun k' k => rel k k') site' site := by
        cases sites with
        | none => exact .none
        | some same => exact .some ⟨same.1, same.2.symm⟩
      obtain ⟨g', need, like⟩ := alike.symm.need (t := t') ⟨same.1, same.2.symm⟩ sites' need'
      exact ⟨g', mem_append_right _ (mem_flatMap.mpr ⟨t, asked, need⟩), like.symm⟩

theorem joining (member : t ∈ c.joining s) : ∃ t' ∈ c'.joining s', t.Stands rel t' := by
  obtain ⟨missing, fresh⟩ := mem_joining.mp member
  obtain ⟨e, among, own, ⟨u, included, beside⟩, r, facts, lacking⟩ :=
    (mem_missing alike.log.sound).mp missing
  obtain ⟨u', included', same⟩ := closures.included alike included
  have same : rel e.ordinal u'.ordinal := beside ▸ same.1
  obtain ⟨e', there, own', facts'⟩ := alike.log.facts same among rfl facts
  rw [← own'] at same
  have indices : c'.indicesOf e'.ordinal = c.indicesOf e.ordinal := by
    refine (increasing_indicesOf _ _).eq_of_mem_iff (increasing_indicesOf _ _) fun k => ?_
    rw [mem_indicesOf, mem_indicesOf]
    exact ⟨closures.symm.mem_included alike.symm ⟨same, rfl⟩, closures.mem_included alike
      ⟨same, rfl⟩⟩
  refine ⟨⟨e'.ordinal, t.index⟩, mem_joining.mpr ⟨(mem_missing alike.log.other).mpr ?_,
    fun old => fresh ?_⟩, own ▸ same, rfl⟩
  · exact ⟨e', there, rfl, ⟨u', included', own'.symm⟩, r, facts', indices ▸ lacking⟩
  · exact closures.symm.mem_included alike.symm (t := ⟨e'.ordinal, t.index⟩) ⟨own ▸ same, rfl⟩ old

end

theorem complete (alike : s.Alike rel s') (rounds : Nat) (closures : Closure.Alike rel s s' c c') :
    Closure.Alike rel s s' (c.complete s rounds) (c'.complete s' rounds) := by
  induction rounds generalizing c c' with
  | zero => exact closures
  | succ rounds ih =>
    have back : ∀ t' ∈ c'.joining s', ∃ t ∈ c.joining s, t.Stands rel t' := by
      intro t' member
      obtain ⟨t, there, same⟩ := closures.symm.joining alike.symm member
      exact ⟨t, there, same.1, same.2.symm⟩
    have done : c.joining s = [] ↔ c'.joining s' = [] := by
      simp only [eq_nil_iff_forall_not_mem]
      exact ⟨fun none t' member => (back t' member).elim fun t held => none t held.1,
        fun none t member => (closures.joining alike member).elim fun t' held => none t' held.1⟩
    rw [complete_succ, complete_succ]
    by_cases settled : c.joining s = []
    · rw [if_pos settled, if_pos (done.mp settled)]
      exact closures
    · rw [if_neg settled, if_neg (mt done.mpr settled)]
      exact ih (closures.require alike .none (by simp) (by simp)
        (fun t => closures.joining alike) back)

end Closure.Alike

/-- What statements of executions that stand for each other need is alike. -/
theorem alike_closureOf {s s' : Scene} (alike : s.Alike rel s') (member : e ∈ s.log.executions)
    (there : e' ∈ s'.log.executions) (stands : rel e.ordinal e'.ordinal)
    (same : e'.statements = e.statements) (seeds : List StatementFacts) :
    Closure.Alike rel s s' (closureOf s e seeds) (closureOf s' e' seeds) := by
  have empty : Closure.Alike rel s s' .empty .empty :=
    ⟨[], [], forall_mem_nil _, forall_mem_nil _, underway_empty s [], underway_empty s' []⟩
  have start : Closure.Alike rel s s' (s.startOf e seeds) (s'.startOf e' seeds) := by
    refine empty.require alike (.some ⟨stands, by rw [Scene.exitSite, Scene.exitSite, same]⟩)
      (fun p own => ?_) (fun p own => ?_) (fun t asked => ?_) (fun t asked => ?_)
    · exact Option.mem_some.mp own ▸ Log.point_exitSite member
    · exact Option.mem_some.mp own ▸ Log.point_exitSite there
    all_goals
      obtain ⟨f, seed, rfl⟩ := mem_map.mp asked
      exact ⟨_, mem_map_of_mem seed, stands, rfl⟩
  obtain ⟨_, _, _, underway⟩ := Scene.followed_start alike.log.sound member seeds
  obtain ⟨_, _, _, underway'⟩ := Scene.followed_start alike.log.other there seeds
  -- Neither number of rounds matters, so both can be taken to be the same.
  have few := Closure.absent_le (s := s) (c := s.startOf e seeds)
  have few' := Closure.absent_le (s := s') (c := s'.startOf e' seeds)
  rw [Scene.closureOf_eq_complete, Scene.closureOf_eq_complete,
    Closure.complete_eq alike.log.sound underway (m := s.statementCount + s'.statementCount + 1)
    (by omega) (by omega), Closure.complete_eq alike.log.other underway' (m :=
      s.statementCount + s'.statementCount + 1) (by omega) (by omega)]
  exact start.complete alike _

/-! ### Lines -/

section Parts

variable {s s' : Scene} {c c' : Closure} {line : Int} {part part' : CellSlice}

theorem cover_of_alike (alike : s.Alike rel s') (closures : Closure.Alike rel s s' c c')
    (member : part ∈ partsOf (rangesOf s c)) (there : part' ∈ partsOf (rangesOf s' c'))
    (stands : rel part.ordinal part'.ordinal) (covered : LineRange.Cover part.ranges line) :
    LineRange.Cover part'.ranges line := by
  have here := (mem_parts alike.log.sound member).2.2 line
  have other := (mem_parts alike.log.other there).2.2 line
  simp only [LineRange.mem_lines] at here other
  obtain ⟨t, included, own, f, holds, covers⟩ := here.mp covered
  obtain ⟨t', included', same⟩ := closures.included alike included
  exact other.mpr ⟨t', included', (alike.log.eq_iff same.1 stands).mp own, f,
    alike.log.holds same holds, covers⟩

/-- A part stands for one with the same ranges. -/
theorem part_of_alike (alike : s.Alike rel s') (closures : Closure.Alike rel s s' c c')
    (held : ∀ t ∈ c.included, ∃ f, s.log.Holds t f)
    (canonical : ∀ part ∈ partsOf (rangesOf s c), LineRange.Canonical part.ranges)
    (canonical' : ∀ part ∈ partsOf (rangesOf s' c'), LineRange.Canonical part.ranges)
    (member : part ∈ partsOf (rangesOf s c)) :
    ∃ part' ∈ partsOf (rangesOf s' c'), rel part.ordinal part'.ordinal ∧
    part'.ranges = part.ranges := by
  obtain ⟨_, ⟨t, included, own⟩, _⟩ := mem_parts alike.log.sound member
  obtain ⟨t', included', same⟩ := closures.included alike included
  obtain ⟨f, holds⟩ := held t included
  obtain ⟨part', there, own'⟩ := exists_part alike.log.other included' (alike.log.holds same holds)
  have stands : rel part.ordinal part'.ordinal := own' ▸ own ▸ same.1
  refine ⟨part', there, stands, (canonical' part' there).eq_of_cover (canonical part member)
    fun line => ⟨?_, ?_⟩⟩
  · exact cover_of_alike alike.symm closures.symm there member stands
  · exact cover_of_alike alike closures member there stands

end Parts

/-- Lists that are in order and cover each other are so element by element. -/
theorem forall₂_of_covered {R : CellSlice → CellSlice → Prop} {ps qs : List CellSlice}
    (order : ∀ {p p' q q'}, R p q → R p' q' → (p.ordinal < p'.ordinal ↔ q.ordinal < q'.ordinal))
    (increasing : ps.Pairwise fun p p' => p.ordinal < p'.ordinal)
    (increasing' : qs.Pairwise fun q q' => q.ordinal < q'.ordinal)
    (forth : ∀ p ∈ ps, ∃ q ∈ qs, R p q) (back : ∀ q ∈ qs, ∃ p ∈ ps, R p q) :
    List.Forall₂ R ps qs := by
  induction ps generalizing qs with
  | nil =>
    cases qs with
    | nil => exact .nil
    | cons q qs => simpa using back q (mem_cons_self ..)
  | cons p ps ih =>
    cases qs with
    | nil => simpa using forth p (mem_cons_self ..)
    | cons q qs =>
      obtain ⟨least, increasing⟩ := pairwise_cons.mp increasing
      obtain ⟨least', increasing'⟩ := pairwise_cons.mp increasing'
      have first : R p q := by
        obtain ⟨q', there, same⟩ := forth p (mem_cons_self ..)
        obtain ⟨p', here, same'⟩ := back q (mem_cons_self ..)
        rcases mem_cons.mp there with rfl | later
        · exact same
        · have less := (order same' same).mpr (least' q' later)
          rcases mem_cons.mp here with rfl | behind
          · omega
          · have := least p' behind
            omega
      refine .cons first (ih increasing increasing' (fun p' member => ?_) fun q' member => ?_)
      · obtain ⟨q', there, same⟩ := forth p' (mem_cons_of_mem _ member)
        rcases mem_cons.mp there with rfl | later
        · exact absurd ((order first same).mp (least p' member)) (Int.lt_irrefl _)
        · exact ⟨q', later, same⟩
      · obtain ⟨p', here, same⟩ := back q' (mem_cons_of_mem _ member)
        rcases mem_cons.mp here with rfl | later
        · exact absurd ((order first same).mpr (least' q' member)) (Int.lt_irrefl _)
        · exact ⟨p', later, same⟩

end Slice

namespace Log

/-- Executions that stand for each other have slices with the same lines of executions that stand
for each other. -/
theorem Alike.slice (alike : Alike rel l l') (member : e ∈ l.executions)
    (there : e' ∈ l'.executions) (stands : rel e.ordinal e'.ordinal) (same : e'.facts? = e.facts?)
    (shown : e'.displayLines = e.displayLines) (atCall : Bool) (lines : Option (List Int)) :
    ∃ slice slice', l.slice atCall e lines = .ok slice ∧ l'.slice atCall e' lines = .ok slice' ∧
      slice.target = e ∧ slice'.target = e' ∧
      List.Forall₂ (fun part part' => (part.execution ∈ l.executions ∧
        part'.execution ∈ l'.executions) ∧ rel part.ordinal part'.ordinal ∧
        part'.ranges = part.ranges) slice.parts slice'.parts ∧
      slice'.unresolved = slice.unresolved := by
  cases facts : e.facts? with
  | none =>
    refine ⟨_, _, slice_unparsed alike.sound member facts atCall lines,
      slice_unparsed alike.other there (same.trans facts) atCall lines, rfl, rfl,
      .cons ⟨⟨member, there⟩, stands, ?_⟩ .nil, rfl⟩
    simp only [CellSlice.ofRanges, shown]
  | some r =>
    have scenes : Slice.Scene.Alike rel ⟨l, atCall⟩ ⟨l', atCall⟩ := ⟨alike, rfl⟩
    obtain ⟨c, closure, made⟩ := slice_parsed alike.sound member facts atCall lines
    obtain ⟨c', closure', made'⟩ := slice_parsed alike.other there (same.trans facts) atCall lines
    have closures : Slice.Closure.Alike rel ⟨l, atCall⟩ ⟨l', atCall⟩ c c' := by
      rw [closure, closure']
      refine Slice.alike_closureOf scenes member there stands ?_ _
      rw [Execution.statements, Execution.statements, same]
    have neat := (Makes.slice member made).neat alike.sound
    have neat' := (Makes.slice there made').neat alike.other
    have held : ∀ t ∈ c.included, ∃ f, l.Holds t f := fun t included =>
      (closure ▸ Slice.Scene.followed_closureOf (s := ⟨l, atCall⟩) alike.sound member _ :
        Slice.Scene.Followed ⟨l, atCall⟩ e.ordinal c).holds alike.sound included
    have held' : ∀ t ∈ c'.included, ∃ f, l'.Holds t f := fun t included =>
      (closure' ▸ Slice.Scene.followed_closureOf (s := ⟨l', atCall⟩) alike.other there _ :
        Slice.Scene.Followed ⟨l', atCall⟩ e'.ordinal c').holds alike.other included
    refine ⟨_, _, made, made', rfl, rfl, ?_, closures.unresolved_eq scenes⟩
    refine Slice.forall₂_of_covered (fun first second => alike.order first.2.1 second.2.1)
      (pairwise_map.mp neat.increasing) (pairwise_map.mp neat'.increasing) (fun part among => ?_)
      fun part among => ?_
    · obtain ⟨other, listed, same⟩ := Slice.part_of_alike scenes closures held neat.canonical
        neat'.canonical among
      exact ⟨other, listed, ⟨neat.recorded part among, neat'.recorded other listed⟩, same⟩
    · obtain ⟨other, listed, same, ranges⟩ :=
        Slice.part_of_alike scenes.symm closures.symm held' neat'.canonical neat.canonical among
      exact ⟨other, listed, ⟨neat.recorded other listed, neat'.recorded part among⟩, same,
        ranges.symm⟩

/-- Running more cells leaves the history up to an execution as it was. -/
theorem alike_runAll (reachable : l.Reachable) (member : e ∈ l.executions)
    (cells : List Notebook.Cell) : l.Alike (fun k k' => k = k' ∧ k ≤ e.ordinal) (l.runAll cells) ∧
    l.executions ⊆ (l.runAll cells).executions := by
  have other := (reachable.runAll cells).sound
  obtain ⟨more, grown⟩ := l.executions_runAll cells
  have subset : l.executions ⊆ (l.runAll cells).executions := grown ▸ subset_append_left _ _
  refine ⟨⟨reachable.sound, other, by omega, ?_, ?_⟩, subset⟩
  · intro k k' stands a among below r facts
    exact ⟨a, subset among, ⟨rfl, by omega⟩, facts⟩
  · intro k k' stands a among below r facts
    have increasing := other.increasing
    rw [grown] at increasing among
    rcases mem_append.mp among with here | later
    · exact ⟨a, here, ⟨rfl, by omega⟩, facts⟩
    · have := (pairwise_append.mp increasing).2.2 e member a later
      omega

/-- **History is never rewritten.** Every execution of a history has a slice, whichever of its lines
are asked for. Whatever cells are run afterwards, be they new, run again or unreadable, the slice
stays the same one: the same parts with the same lines, and the same names left unresolved. None of
its parts comes after the execution itself. -/
theorem slice_runAll {l : Log} (reachable : l.Reachable) {e : Execution} (member : e ∈ l.executions)
    (atCall : Bool) (lines : Option (List Int)) (cells : List Notebook.Cell) :
    ∃ slice, l.slice atCall e lines = .ok slice ∧ (l.runAll cells).slice atCall e lines =
      .ok slice ∧ slice.target = e ∧ ∀ k ∈ slice.ordinals, k ≤ e.ordinal := by
  obtain ⟨alike, grown⟩ := alike_runAll reachable member cells
  obtain ⟨slice, slice', made, made', target, target', parts, unresolved⟩ :=
    alike.slice member (grown member) ⟨rfl, Int.le_refl _⟩ rfl rfl atCall lines
  have same : slice.parts = slice'.parts := by
    refine List.forall₂_eq_eq_eq ▸ parts.imp fun part part' ⟨⟨here, there⟩, stands, ranges⟩ => ?_
    have execution := alike.other.eq_of_ordinal (grown here) there stands.1
    cases part
    cases part'
    simp_all
  obtain rfl : slice = slice' := by
    cases slice
    cases slice'
    simp_all
  exact ⟨slice, made, made', target, slice_ordinals_le alike.sound member made⟩

/-- A call keeps its slice when the name that the function reads gets yet another value, a cell
cannot be read, and the cell of the call is run again. -/
theorem slice_runAll_rebinding :
    let later : List Notebook.Cell :=
      [⟨"a", "x = 3", none, []⟩, ⟨"d", "def g(:", none, []⟩, ⟨"c", "y = f()", none, []⟩]
    ∃ e ∈ rebinding.executions, e.ordinal = 4 ∧ ∃ slice, rebinding.slice true e none = .ok slice ∧
      (rebinding.runAll later).slice true e none = .ok slice ∧ slice.ordinals = [2, 3, 4] := by
  intro later
  have reachable : rebinding.Reachable := (Reachable.start _ _ _).runAll _
  have last : ∃ e ∈ rebinding.executions, e.ordinal = 4 ∧
      (rebinding.slice true e none).toOption.map Slice.ordinals =
      some [2, 3, 4] := by decide +kernel
  obtain ⟨e, member, own, ordinals⟩ := last
  obtain ⟨slice, before, after, _⟩ := slice_runAll reachable member true none later
  rw [before] at ordinals
  exact ⟨e, member, own, slice, before, after, Option.some.inj ordinals⟩

end Log

end Lineage
