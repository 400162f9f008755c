import Lineage.Slice.Slicer
import Lineage.Proofs.Flow.Founded
import Lineage.Proofs.Log.Index
import Lineage.Proofs.Log.Store
import Lineage.Proofs.Slice.Past
import Lineage.Proofs.Slice.Integrity

/-!
A slicer that checks every lookup. It fails as soon as an execution, its facts, a statement or a
place is asked for that is not there, and when it would go on for longer than it is given; apart
from this it does what the slicer does. In the logs that a session comes across it never fails so:
each lookup is of something that another part of the program has put there.
-/

namespace Lineage

open List Std Flow

namespace Slice

/-- What was looked up in vain. -/
inductive Miss where
  | execution (ordinal : Int)
  | facts (ordinal : Int)
  | statement (t : Timestamp)
  | place (ordinal : Int) (loc : Location)
  | unfinished

namespace Checked

/-! ### Lookups that may fail -/

/-- The execution with an ordinal. -/
def executionAt (s : Scene) (ordinal : Int) : Except Miss Execution :=
  match s.log.at? ordinal with
  | some e => .ok e
  | none => .error (.execution ordinal)

/-- The facts of the execution with an ordinal. -/
def factsAt (s : Scene) (ordinal : Int) : Except Miss Result := do
  let e ← executionAt s ordinal
  match e.facts? with
  | some r => .ok r
  | none => .error (.facts ordinal)

/-- A statement among those of an execution. -/
def statementIn (ordinal : Int) (statements : List StatementFacts) (index : Int) :
    Except Miss StatementFacts :=
  match if 0 ≤ index then statements[index.toNat]? else none with
  | some f => .ok f
  | none => .error (.statement ⟨ordinal, index⟩)

/-- A statement of the history. -/
def statementAt (s : Scene) (t : Timestamp) : Except Miss StatementFacts := do
  let e ← executionAt s t.ordinal
  statementIn t.ordinal e.statements t.index

/-- The statement at a place in an execution. -/
def statementOn (ordinal : Int) (r : Result) (loc : Location) : Except Miss StatementFacts :=
  match r.at? loc with
  | some f => .ok f
  | none => .error (.place ordinal loc)

/-- What reaches a point. -/
def stateAt (s : Scene) (site : Timestamp) : Except Miss State := do
  let r ← factsAt s site.ordinal
  if site.index = r.statements.size then return r.exit
  return (← statementAt s site).entry

/-- All that a list leads to, one after the other. -/
def gather {α β : Type} (f : α → Except Miss (List β)) : List α → Except Miss (List β)
  | [] => .ok []
  | x :: rest => do return (← f x) ++ (← gather f rest)

/-- All leads of a list. -/
def gatherLeads {α : Type} (f : α → Except Miss Leads) : List α → Except Miss Leads
  | [] => .ok .none
  | x :: rest => do return (← f x) ++ (← gatherLeads f rest)

/-! ### Following goals -/

/-- The goals of a needed statement. The end of its execution is asked for only where no other point
is known. -/
def need (s : Scene) (site : Option Timestamp) (t : Timestamp) : Except Miss (List Goal) := do
  let f ← statementAt s t
  if f.free.isEmpty then return [.statement t]
  match if s.atCall then site else none with
  | some p => return [.call ⟨t, p⟩, .statement t]
  | none => return [.call ⟨t, ⟨t.ordinal, (← factsAt s t.ordinal).statements.size⟩⟩, .statement t]

/-- The statement that an origin from within the execution stands for. -/
def stampOf (ordinal : Int) : Origin → Except Miss Timestamp
  | .statement k => .ok ⟨ordinal, k⟩
  | other => .error (.statement ⟨ordinal, other.code⟩)

/-- The statements of an execution that may define any name. -/
def anyDefiners (s : Scene) (ordinal : Int) : Except Miss (List Timestamp) := do
  let r ← factsAt s ordinal
  ((r.exit.reaching Flow.allNames).toList.filter fun origin => origin != .entry).mapM
    (stampOf ordinal)

/-- The statements that may have defined a name, going back over executions, and whether there is
any. -/
def definersBack (s : Scene) (name : String) : List Int → Except Miss (List Timestamp × Bool)
  | [] => .ok ([], false)
  | ordinal :: older => do
    let r ← factsAt s ordinal
    let any ← anyDefiners s ordinal
    match r.exit[name]? with
    | none =>
      let (earlier, found) ← definersBack s name older
      return (any ++ earlier, !any.isEmpty || found)
    | some origins =>
      let here := Scene.stampsOf ordinal origins
      if origins.contains .entry then
        let (earlier, _) ← definersBack s name older
        return (any ++ (here ++ earlier), true)
      return (any ++ here, true)

/-- Adds what the function that an origin stands for assigns outside itself. -/
def addWrites (s : Scene) (ordinal : Int) (written : NameSet) : Origin → Except Miss NameSet
  | .statement k => do return written ∪ (← statementAt s ⟨ordinal, k⟩).globalWrites
  | _ => .ok written

/-- What any function that a name may be bound to assigns, going back over executions. -/
def writesBack (s : Scene) (name : String) : List Int → Except Miss NameSet
  | [] => .ok ∅
  | ordinal :: older => do
    match (← factsAt s ordinal).exit[name]? with
    | none => writesBack s name older
    | some origins =>
      let written ← origins.toList.foldlM (addWrites s ordinal) ∅
      if origins.contains .entry then return written ∪ (← writesBack s name older)
      return written

/-- What the functions that a tree calls by name are known to assign. -/
def calledWrites (s : Scene) (n : Node) (ordinal : Int) : Except Miss GlobalWrites :=
  (Log.calledNames n).toList.foldlM (fun writes name => do
    let written ← writesBack s name (s.log.definersBefore name ordinal)
    return if written.isEmpty then writes else writes.insert name written) ∅

/-- Looks a single name up in the executions before an ordinal. -/
def lookUpName (s : Scene) (bound : Int) (site : Timestamp) (name : String) :
    Except Miss Leads := do
  let (stamps, found) ← definersBack s name (s.log.definersBefore name bound)
  let goals ← gather (need s (some site)) stamps
  return ⟨goals, if found || isImplicit name then [] else [name]⟩

/-- Looks a name, or all of them, up in the executions before an ordinal. -/
def lookUp (s : Scene) (bound : Int) (site : Timestamp) (name : String) : Except Miss Leads := do
  if name = Flow.allNames then
    let single ← gatherLeads (lookUpName s bound site) (s.log.namesBefore bound)
    let any ← gather (anyDefiners s) (s.log.definersBefore Flow.allNames bound)
    return single ++ ⟨← gather (need s (some site)) any, []⟩
  else lookUpName s bound site name

/-- Resolves a name as it is read at some point. -/
def resolve (s : Scene) (site : Timestamp) (name : String) : Except Miss Leads := do
  let state ← stateAt s site
  if name = Flow.allNames then
    let stamps := state.toList.flatMap fun (_, origins) => Scene.stampsOf site.ordinal origins
    let goals ← gather (need s (some site)) stamps
    return ⟨goals, []⟩ ++ (← lookUp s site.ordinal site name)
  else
    let origins := StatementFacts.origins state name
    let goals ← gather (need s (some site)) (Scene.stampsOf site.ordinal origins)
    if origins.contains .entry then return ⟨goals, []⟩ ++ (← lookUp s site.ordinal site name)
    return ⟨goals, []⟩

/-- The goals of the statement that an edge comes from. -/
def followEdge (s : Scene) (t : Timestamp) (edge : Edge) : Except Miss (List Goal) := do
  let r ← factsAt s t.ordinal
  let source ← statementOn t.ordinal r edge.source
  need s (if edge.kind = .data then some t else none) ⟨t.ordinal, source.index⟩

/-- What following a goal leads to. -/
def followGoal (s : Scene) : Goal → Except Miss Leads
  | .statement t => do
    let f ← statementAt s t
    let goals ← gather (followEdge s t) f.inbound
    return ⟨goals, []⟩ ++ (← gatherLeads (lookUp s t.ordinal t) f.external.toList)
  | .call c => do
    let f ← statementAt s c.target
    gatherLeads (resolve s c.site) f.free.toList

/-- Follows goals and all that they lead to. -/
def follow (s : Scene) : (rounds : Nat) → List Goal → Closure → Except Miss Closure
  | 0, goals, c => if goals.all c.has then .ok c else .error .unfinished
  | rounds + 1, goals, c =>
    match goals.dropWhile c.has with
    | [] => .ok c
    | goal :: rest => do
      let leads ← followGoal s goal
      follow s rounds (leads.goals ++ rest) ((c.add goal).leave leads.unresolved)

/-- Needs statements, used at some point if one is given. -/
def require (s : Scene) (site : Option Timestamp) (ts : List Timestamp) (c : Closure) :
    Except Miss Closure := do
  let goals ← gather (need s site) ts
  follow s s.goalLimit goals c

/-! ### Letting statements join -/

/-- The indices of the statements at the places of some nodes. -/
def indicesAt (ordinal : Int) (r : Result) (nodes : List Node) : Except Miss (List Int) :=
  nodes.mapM fun n => return ((← statementOn ordinal r n.loc).index : Int)

/-- The first statement of a block none of whose statements is needed. -/
def missingFrom (ordinal : Int) (r : Result) (needed : List Int) (block : List Node) :
    Except Miss (List Int) := do
  let indices ← indicesAt ordinal r block
  return if indices.any needed.contains then [] else indices.head?.toList

/-- What a needed statement brings along. -/
def broughtAlong (ordinal : Int) (r : Result) (needed : List Int) (f : StatementFacts) :
    Except Miss (List Int) := do
  let firsts ← gather (fun block => missingFrom ordinal r needed block.2) f.node.clauseBlocks
  let jumps ← indicesAt ordinal r f.node.loopJumps
  return firsts ++ jumps.filter fun k => !needed.contains k

/-- The statements that have to join the needed ones of an execution. -/
def missingIn (ordinal : Int) (r : Result) (needed : List Int) : Except Miss (List Int) := do
  let found ← needed.mapM (statementIn ordinal r.statements.toList)
  let brought ← gather (broughtAlong ordinal r needed) found
  let others := r.statements.toList.filter fun f => !needed.contains f.index
  return brought ++ (others.filter fun f => found.any (sharesLine f)).map fun f => (f.index : Int)

/-- The statements that have to join a closure. -/
def missing (s : Scene) (c : Closure) : Except Miss (List Timestamp) :=
  gather (fun ordinal => do
    let r ← factsAt s ordinal
    return (← missingIn ordinal r (c.indicesOf ordinal)).map fun k => ⟨ordinal, k⟩) c.ordinals

/-- Lets statements join until none is missing. -/
def complete (s : Scene) : (rounds : Nat) → Closure → Except Miss Closure
  | 0, _ => .error .unfinished
  | rounds + 1, c => do
    match (← missing s c).filter fun t => !c.included.contains t with
    | [] => .ok c
    | extra => complete s rounds (← require s none extra c)

/-- Adds the ranges of lines of a needed statement. -/
def addRangesAt (s : Scene) (found : Ranges) (t : Timestamp) : Except Miss Ranges := do
  let e ← executionAt s t.ordinal
  let f ← statementAt s t
  return addRanges found e (f.spans.map fun (first, last) => ⟨first, last⟩)

/-- All that is needed for some statements of an execution. -/
def closureOf (s : Scene) (e : Execution) (seeds : List StatementFacts) : Except Miss Closure := do
  let c ← require s (some (Scene.exitSite e)) (seeds.map fun f => ⟨e.ordinal, f.index⟩) .empty
  complete s (s.statementCount + 1) c

end Checked

/-- Why there is no slice: the execution is not one of the log, or a lookup failed. -/
inductive Failure where
  | foreign (error : ForeignExecution)
  | miss (what : Miss)

end Slice

/-- The slice of an execution of the log, with every lookup checked. -/
def Log.sliceChecked (l : Log) (atCall : Bool) (e : Execution) (lines : Option (List Int)) :
    Except Slice.Failure Slice :=
  if l.contains e then
    match e.facts? with
    | none => .ok (.whole e)
    | some r => Except.mapError .miss do
      let scene : Slice.Scene := ⟨l, atCall⟩
      let c ← Slice.Checked.closureOf scene e ((lines.map r.onLines).getD r.statements.toList)
      let ranges ← c.included.toList.foldlM (Slice.Checked.addRangesAt scene) ∅
      return ⟨e, Slice.partsOf ranges, c.unresolved⟩
  else .error (.foreign ⟨e⟩)

/-! ### Lookups that succeed -/

/-- A point of an execution that could be read. -/
def Log.Known (l : Log) (p : Timestamp) : Prop :=
  ∃ e ∈ l.executions, e.ordinal = p.ordinal ∧ ∃ r, e.facts? = some r ∧ ∃ k : Nat, p.index = k ∧
    k ≤ r.statements.size

theorem Log.Known.point {l : Log} {p : Timestamp} (known : l.Known p) : l.Point p := by
  obtain ⟨e, member, own, r, facts, k, index, inside⟩ := known
  refine ⟨e, member, own, k, index, ?_⟩
  rwa [Execution.statements_eq facts, Array.length_toList]

theorem Log.Holds.known {l : Log} {t : Timestamp} {f : StatementFacts} (holds : l.Holds t f) :
    l.Known t := by
  obtain ⟨e, member, own, k, index, found⟩ := holds
  obtain ⟨r, facts⟩ := Execution.exists_facts (mem_of_getElem? found)
  rw [Execution.statements_eq facts, Array.getElem?_toList] at found
  exact ⟨e, member, own, r, facts, k, index, Nat.le_of_lt (Array.getElem?_eq_some_iff.mp found).1⟩

theorem Log.known_exitSite {l : Log} {e : Execution} (member : e ∈ l.executions) {r : Result}
    (facts : e.facts? = some r) : l.Known (Slice.Scene.exitSite e) := by
  refine ⟨e, member, rfl, r, facts, e.statements.length, rfl, ?_⟩
  rw [Execution.statements_eq facts, Array.length_toList]

/-- At the end of a cell no name comes from a parameter. -/
theorem Log.Sound.parameter_not_mem_exit {l : Log} (sound : l.Sound) {e : Execution}
    (member : e ∈ l.executions) {r : Result} (facts : e.facts? = some r) (name : String) :
    .parameter ∉ r.exit.reaching name := by
  obtain ⟨tree, content⟩ := Execution.exists_tree facts
  obtain ⟨writes, analyzed⟩ := sound.analyzed e member _ content
  obtain ⟨faultless, same⟩ := analyze_eq_ok analyzed
  dsimp only at same
  intro reaches
  rw [same] at reaches
  have sane := sane_analyzeBlock l.settings writes (Node.plain_of_blockFault faultless)
  exact ExtTreeSet.not_mem_empty (sane.state.parameters name reaches)

theorem Log.Sound.rooted {l : Log} (sound : l.Sound) {e : Execution} (member : e ∈ l.executions)
    {r : Result} (facts : e.facts? = some r) : Rooted r.statements := by
  obtain ⟨tree, content⟩ := Execution.exists_tree facts
  obtain ⟨writes, analyzed⟩ := sound.analyzed e member _ content
  exact rooted_analyze analyzed

namespace Slice.Checked

variable {c : Closure} {e : Execution} {r : Result} {f : StatementFacts} {g : Goal}
  {ts : List Timestamp} {t : Timestamp} {α : Type}

theorem ok_bind {ε β : Type} (a : α) (f : α → Except ε β) : (Except.ok a >>= f) = f a := rfl

theorem gather_eq {β : Type} {f : α → Except Miss (List β)} {g : α → List β} {xs : List α}
    (each : ∀ x ∈ xs, f x = .ok (g x)) : gather f xs = .ok (xs.flatMap g) := by
  induction xs with
  | nil => rfl
  | cons x rest ih =>
    obtain ⟨own, others⟩ := forall_mem_cons.mp each
    rw [gather, own, ih others]
    rfl

theorem gatherLeads_eq {f : α → Except Miss Leads} {g : α → Leads} {xs : List α}
    (each : ∀ x ∈ xs, f x = .ok (g x)) : gatherLeads f xs = .ok (Leads.all g xs) := by
  induction xs with
  | nil => rfl
  | cons x rest ih =>
    obtain ⟨own, others⟩ := forall_mem_cons.mp each
    rw [gatherLeads, own, ih others]
    rfl

theorem foldlM_eq {ε β : Type} {f : β → α → Except ε β} {g : β → α → β} {xs : List α}
    (each : ∀ x ∈ xs, ∀ b, f b x = .ok (g b x)) (b : β) : xs.foldlM f b = .ok (xs.foldl g b) := by
  induction xs generalizing b with
  | nil => rfl
  | cons x rest ih =>
    obtain ⟨own, others⟩ := forall_mem_cons.mp each
    rw [foldlM_cons, own, ok_bind]
    exact ih others _

theorem statementIn_eq {statements : List StatementFacts} {k : Nat}
    (found : statements[k]? = some f) (ordinal : Int) :
    statementIn ordinal statements k = .ok f := by
  rw [statementIn, if_pos (Int.natCast_nonneg k), Int.toNat_natCast, found]

theorem statementOn_eq {loc : Location} (there : ∃ f ∈ r.statements, f.location = loc)
    (ordinal : Int) : ∃ f, r.at? loc = some f ∧ statementOn ordinal r loc = .ok f := by
  obtain ⟨f, member, place⟩ := there
  cases found : r.at? loc with
  | none =>
    have among := mem_reverse.mpr (Array.mem_toList_iff.mpr member)
    exact absurd place (by simpa using find?_eq_none.mp found f among)
  | some g => exact ⟨g, rfl, by rw [statementOn, found]⟩

section Sound

variable {s : Scene} (sound : s.log.Sound)

include sound

theorem executionAt_eq (member : e ∈ s.log.executions) : executionAt s e.ordinal = .ok e := by
  rw [executionAt, sound.at?_ordinal member]

theorem factsAt_eq (member : e ∈ s.log.executions) (facts : e.facts? = some r) :
    factsAt s e.ordinal = .ok r := by
  rw [factsAt, executionAt_eq sound member, ok_bind, facts]

theorem statementAt_eq (holds : s.log.Holds t f) : statementAt s t = .ok f := by
  obtain ⟨e, member, own, k, index, found⟩ := holds
  rw [statementAt, ← own, executionAt_eq sound member, ok_bind, index, statementIn_eq found]

theorem stateAt_eq {p : Timestamp} (known : s.log.Known p) : stateAt s p = .ok (s.stateAt p) := by
  obtain ⟨e, member, own, r, facts, k, index, inside⟩ := known
  rw [stateAt, ← own, factsAt_eq sound member facts, ok_bind]
  by_cases last : k = r.statements.size
  · obtain rfl : p = Scene.exitSite e := by
      obtain ⟨ordinal, position⟩ := p
      simp only at own index
      rw [Scene.exitSite, own, index, last, Execution.statements_eq facts, Array.length_toList]
    rw [index, last, if_pos rfl, Scene.stateAt_eq sound (.exit member), Execution.exit, facts]
    rfl
  · have below : k < r.statements.size := Nat.lt_of_le_of_ne inside last
    have holds : s.log.Holds p r.statements[k] := by
      refine ⟨e, member, own, k, index, ?_⟩
      rw [Execution.statements_eq facts, Array.getElem?_toList, Array.getElem?_eq_getElem below]
    have other : (k : Int) ≠ r.statements.size := by omega
    rw [index, if_neg other, statementAt_eq sound holds, Scene.stateAt_eq sound (.statement holds)]
    rfl

theorem need_eq (holds : s.log.Holds t f) (site : Option Timestamp) :
    need s site t = .ok (s.need site t) := by
  rw [need, statementAt_eq sound holds, ok_bind, Scene.need,
    (Scene.statement?_eq_some sound).mpr holds]
  obtain ⟨e, member, own, k, index, found⟩ := holds
  obtain ⟨r, facts⟩ := Execution.exists_facts (mem_of_getElem? found)
  rw [← own, factsAt_eq sound member facts, sound.at?_ordinal member]
  have exit : (⟨e.ordinal, r.statements.size⟩ : Timestamp) = Scene.exitSite e := by
    rw [Scene.exitSite, Execution.statements_eq facts, Array.length_toList]
  dsimp only
  split
  · rfl
  · rw [ok_bind, exit]
    cases s.atCall with
    | false => rfl
    | true =>
      cases site with
      | none => rfl
      | some p => rfl

theorem gather_need_eq (all : ∀ t ∈ ts, ∃ f, s.log.Holds t f) (site : Option Timestamp) :
    gather (need s site) ts = .ok (ts.flatMap (s.need site)) := by
  refine gather_eq fun t member => ?_
  obtain ⟨f, holds⟩ := all t member
  exact need_eq sound holds site

/-! ### Looking names up -/

theorem anyDefiners_eq (member : e ∈ s.log.executions) (facts : e.facts? = some r) :
    anyDefiners s e.ordinal = .ok (s.anyDefiners e.ordinal) := by
  have exit : e.exit = r.exit := by
    rw [Execution.exit, facts]
    rfl
  have stamped : ∀ origins : List Origin, .parameter ∉ origins →
      (origins.filter fun origin => origin != .entry).mapM (stampOf e.ordinal) =
        .ok (origins.filterMap fun
          | .statement k => some (⟨e.ordinal, k⟩ : Timestamp)
          | _ => none) := by
    intro origins none
    induction origins with
    | nil => rfl
    | cons origin rest ih =>
      have later : .parameter ∉ rest := fun member => none (mem_cons_of_mem _ member)
      cases origin with
      | parameter => exact absurd (mem_cons_self ..) none
      | entry => exact ih later
      | statement k =>
        rw [filter_cons_of_pos rfl, mapM_cons, ih later]
        rfl
  rw [anyDefiners, factsAt_eq sound member facts, ok_bind, stamped]
  · rw [Scene.anyDefiners, Scene.originsAt_ordinal sound member, exit, State.reaching_eq_getD]
    cases r.exit[Flow.allNames]? with
    | none => rfl
    | some origins => rfl
  · rw [ExtTreeSet.mem_toList]
    exact sound.parameter_not_mem_exit member facts _

theorem definersBack_eq (name : String) {executions : List Execution}
    (all : ∀ e ∈ executions, e ∈ s.log.executions ∧ ∃ r, e.facts? = some r) :
    definersBack s name (executions.map Execution.ordinal) =
      .ok (s.definersBack name (executions.map Execution.ordinal),
        s.isDefinedBy name (executions.map Execution.ordinal)) := by
  induction executions with
  | nil => rfl
  | cons e older ih =>
    obtain ⟨⟨member, r, facts⟩, others⟩ := forall_mem_cons.mp all
    have exit : e.exit = r.exit := by
      rw [Execution.exit, facts]
      rfl
    rw [map_cons, definersBack, factsAt_eq sound member facts, ok_bind,
      anyDefiners_eq sound member facts, ok_bind, Scene.definersBack, Scene.isDefinedBy, any_cons,
      ← Scene.isDefinedBy, Scene.originsAt_ordinal sound member, exit, ih others]
    cases r.exit[name]? with
    | none =>
      rw [Option.isSome_none, Bool.or_false]
      rfl
    | some origins =>
      rw [Option.isSome_some, Bool.or_true, Bool.true_or]
      dsimp only
      split
      · rfl
      · rw [append_nil]
        rfl

/-- The executions that may have defined a name could be read. -/
theorem exists_definers (name : String) (bound : Int) : ∃ executions : List Execution,
    s.log.definersBefore name bound = executions.map Execution.ordinal ∧
      ∀ e ∈ executions, e ∈ s.log.executions ∧ ∃ r, e.facts? = some r := by
  obtain ⟨executions, same, _, listed⟩ := Scene.definersBefore_eq_map sound name bound
  refine ⟨executions, same, fun e among => ?_⟩
  obtain ⟨member, leaves, _⟩ := (listed e).mp among
  rcases leaves with own | any
  · obtain ⟨r, facts, _⟩ := Execution.mem_exit.mp own
    exact ⟨member, r, facts⟩
  · obtain ⟨r, facts, _⟩ := Execution.mem_exit.mp any
    exact ⟨member, r, facts⟩

theorem writesBack_eq (name : String) {executions : List Execution}
    (all : ∀ e ∈ executions, e ∈ s.log.executions ∧ ∃ r, e.facts? = some r) :
    writesBack s name (executions.map Execution.ordinal) =
      .ok (s.log.writesBack name (executions.map Execution.ordinal)) := by
  induction executions with
  | nil => rfl
  | cons e older ih =>
    obtain ⟨⟨member, r, facts⟩, others⟩ := forall_mem_cons.mp all
    have exit : e.exit = r.exit := by
      rw [Execution.exit, facts]
      rfl
    rw [map_cons, writesBack, factsAt_eq sound member facts, ok_bind, Log.writesBack, Log.originsAt,
      sound.at?_ordinal member, Option.bind_some, exit]
    cases held : r.exit[name]? with
    | none => exact ih others
    | some origins =>
      have written : origins.toList.foldlM (addWrites s e.ordinal) ∅ =
          .ok (s.log.writesAt e.ordinal origins) := by
        rw [Log.writesAt, sound.at?_ordinal member]
        refine foldlM_eq (fun origin among found => ?_) ∅
        cases origin with
        | parameter => rfl
        | entry => rfl
        | statement k =>
          rw [← exit] at held
          have reaches : .statement k ∈ e.exit.reaching name := by
            rw [State.reaching_of_getElem? held]
            exact ExtTreeSet.mem_toList.mp among
          obtain ⟨f, holds⟩ := Scene.holds_of_mayDefine (t := ⟨e.ordinal, k⟩) sound member
            ⟨rfl, k, rfl, reaches⟩
          rw [addWrites, statementAt_eq sound holds]
          obtain ⟨a, here, own, j, index, found⟩ := holds
          obtain rfl := sound.eq_of_ordinal here member own
          obtain rfl : k = j := Int.ofNat.inj index
          simp only [Option.map_some, Option.getD_some, found]
          rfl
      dsimp only
      rw [written, ok_bind]
      split
      · rw [ih others]
        rfl
      · rfl

/-- No lookup fails when an execution is told what the functions that it calls are known to
assign. -/
theorem calledWrites_eq (n : Node) (ordinal : Int) :
    calledWrites s n ordinal = .ok (s.log.calledWrites n ordinal) := by
  refine foldlM_eq (fun name _ writes => ?_) ∅
  obtain ⟨executions, same, all⟩ := exists_definers sound name ordinal
  rw [Log.globalWritesBefore, same, writesBack_eq sound name all]
  rfl

theorem lookUpName_eq (bound : Int) (site : Timestamp) (name : String) :
    lookUpName s bound site name = .ok (s.lookUpName bound site name) := by
  obtain ⟨executions, same, all⟩ := exists_definers sound name bound
  have back := definersBack_eq sound name all
  rw [← same] at back
  rw [lookUpName, back, ok_bind]
  dsimp only
  rw [gather_need_eq sound fun t found => Scene.holds_of_live sound
    ((Scene.mem_definersBack_iff_live sound).mp found)]
  rfl

theorem lookUp_eq (bound : Int) (site : Timestamp) (name : String) :
    lookUp s bound site name = .ok (s.lookUp bound site name) := by
  unfold lookUp Scene.lookUp
  split
  · have any : gather (anyDefiners s) (s.log.definersBefore Flow.allNames bound) =
        .ok ((s.log.definersBefore Flow.allNames bound).flatMap s.anyDefiners) := by
      refine gather_eq fun k among => ?_
      obtain ⟨⟨e, member, leaves, rfl⟩, _⟩ := sound.mem_definersBefore.mp among
      obtain ⟨r, facts, _⟩ := Execution.mem_exit.mp (or_self_iff.mp leaves)
      exact anyDefiners_eq sound member facts
    have all : ∀ t ∈ (s.log.definersBefore Flow.allNames bound).flatMap s.anyDefiners, ∃ f,
        s.log.Holds t f := by
      intro t found
      obtain ⟨k, among, found⟩ := mem_flatMap.mp found
      obtain ⟨⟨e, member, _, rfl⟩, _⟩ := sound.mem_definersBefore.mp among
      exact Scene.holds_of_mayDefine sound member ((Scene.mem_anyDefiners sound member).mp found)
    rw [gatherLeads_eq fun name _ => lookUpName_eq sound bound site name, ok_bind, any, ok_bind,
      gather_need_eq sound all]
    rfl
  · exact lookUpName_eq sound bound site name

theorem resolve_eq {site : Timestamp} (known : s.log.Known site) (name : String) :
    resolve s site name = .ok (s.resolve site name) := by
  obtain ⟨state, sees⟩ := Scene.exists_sees known.point
  have all : ∀ t ∈ s.resolved site name, ∃ f, s.log.Holds t f := fun t found =>
    Scene.holds_of_resolves sound ((Scene.mem_resolved sound sees).mp found)
  rw [resolve, stateAt_eq sound known, ok_bind]
  unfold Scene.resolve
  unfold Scene.resolved at all
  dsimp only at all ⊢
  split
  · rename_i every
    rw [if_pos every] at all
    rw [gather_need_eq sound fun t here => all t (mem_append_left _ here), ok_bind, lookUp_eq sound]
    rfl
  · rename_i single
    rw [if_neg single] at all
    rw [gather_need_eq sound fun t here => all t (mem_append_left _ here), ok_bind]
    split
    · rw [lookUp_eq sound]
      rfl
    · rfl

/-! ### Following goals -/

theorem followEdge_eq (holds : s.log.Holds t f) {edge : Edge} (inbound : edge ∈ f.inbound) :
    followEdge s t edge = .ok (s.followEdge t edge) := by
  obtain ⟨e, member, own, k, index, found⟩ := holds
  have listed := mem_of_getElem? found
  obtain ⟨r, facts⟩ := Execution.exists_facts listed
  have root := sound.rooted member facts f ((Execution.mem_statements facts).mp listed) edge inbound
  obtain ⟨source, there, looked⟩ := statementOn_eq root e.ordinal
  have among : source ∈ e.statements := by
    rw [Execution.statements_eq facts]
    exact mem_reverse.mp (mem_of_find?_eq_some there)
  rw [followEdge, Scene.followEdge, ← own, factsAt_eq sound member facts, ok_bind, looked, ok_bind,
    need_eq sound (sound.holds_of_mem member among), sound.at?_ordinal member, Option.bind_some,
    facts, Option.bind_some, there]

omit sound in
/-- Whether all that a goal names is there. -/
def Valid (s : Scene) : Goal → Prop
  | .statement t => ∃ f, s.log.Holds t f
  | .call c => (∃ f, s.log.Holds c.target f) ∧ s.log.Known c.site

omit sound in
theorem mem_goals_of_valid (valid : Valid s g) : g ∈ s.goals := by
  cases g with
  | statement t => exact Scene.statement_mem_goals.mpr valid
  | call c => exact Scene.call_mem_goals.mpr ⟨valid.1, valid.2.point⟩

theorem followGoal_eq (valid : Valid s g) : followGoal s g = .ok (s.follow g) := by
  cases g with
  | statement t =>
    obtain ⟨f, holds⟩ := valid
    rw [followGoal, Scene.follow, statementAt_eq sound holds, ok_bind,
      (Scene.statement?_eq_some sound).mpr holds, gather_eq fun edge inbound => followEdge_eq sound
      holds inbound, ok_bind, gatherLeads_eq fun name _ => lookUp_eq sound t.ordinal t name]
    rfl
  | call c =>
    obtain ⟨⟨f, holds⟩, known⟩ := valid
    rw [followGoal, Scene.follow, statementAt_eq sound holds, ok_bind,
      (Scene.statement?_eq_some sound).mpr holds]
    exact gatherLeads_eq fun name _ => resolve_eq sound known name

theorem valid_need {site : Option Timestamp} (known : ∀ p ∈ site, s.log.Known p)
    (member : g ∈ s.need site t) : Valid s g := by
  obtain ⟨f, held, rfl | ⟨_, rfl⟩⟩ := Scene.mem_need.mp member
  · exact ⟨f, (Scene.statement?_eq_some sound).mp held⟩
  · have holds := (Scene.statement?_eq_some sound).mp held
    refine ⟨⟨f, holds⟩, ?_⟩
    obtain ⟨e, among, own, k, index, found⟩ := holds
    obtain ⟨r, facts⟩ := Execution.exists_facts (mem_of_getElem? found)
    have exit := Log.known_exitSite among facts
    rw [Scene.callSite_eq sound site among own]
    split
    · cases site with
      | none => exact exit
      | some p => exact known p rfl
    · exact exit

/-- What goals lead to is there. -/
theorem valid_follow {h : Goal} (valid : Valid s g) (lead : h ∈ (s.follow g).goals) :
    Valid s h := by
  have at_ : ∀ {p : Timestamp}, s.log.Known p → ∀ q ∈ some p, s.log.Known q := by
    intro p known q same
    exact Option.mem_some.mp same ▸ known
  cases g with
  | statement t =>
    obtain ⟨_, holds⟩ := valid
    obtain ⟨_, _, ⟨edge, _, u, _, need⟩ | ⟨name, _, u, _, need⟩⟩ :=
      Scene.mem_goals_statement.mp lead
    · refine valid_need sound ?_ need
      split
      · exact at_ holds.known
      · exact nofun
    · exact valid_need sound (at_ holds.known) need
  | call c =>
    obtain ⟨_, _, name, _, u, _, need⟩ := Scene.mem_goals_call.mp lead
    exact valid_need sound (at_ valid.2) need

theorem follow_eq {rounds : Nat} {pending : List Goal} (valid : ∀ g ∈ pending, Valid s g)
    (enough : s.goals.countP (fun g => !c.has g) ≤ rounds) :
    follow s rounds pending c = .ok (Closure.follow s rounds pending c) := by
  induction rounds generalizing pending c with
  | zero =>
    have done : pending.all c.has = true := by
      refine all_eq_true.mpr fun g member => ?_
      have none := countP_eq_zero.mp (Nat.le_zero.mp enough) g (mem_goals_of_valid (valid g member))
      simpa using none
    rw [follow, if_pos done, Closure.follow]
  | succ rounds ih =>
    rw [follow, Closure.follow]
    cases found : pending.dropWhile c.has with
    | nil => rfl
    | cons g rest =>
      have left : ∀ h ∈ g :: rest, Valid s h := fun h member =>
        valid h ((dropWhile_suffix c.has).subset (found ▸ member))
      obtain ⟨own, others⟩ := forall_mem_cons.mp left
      have fresh : c.has g = false := by
        have first := head?_dropWhile_not c.has pending
        rw [found] at first
        simpa using first
      dsimp only
      rw [followGoal_eq sound own, ok_bind]
      refine ih (forall_mem_append.mpr ⟨fun h lead => valid_follow sound own lead, others⟩) ?_
      have less := Closure.countP_add_lt (s.follow g).unresolved fresh (mem_goals_of_valid own)
      omega

theorem require_eq {site : Option Timestamp} (known : ∀ p ∈ site, s.log.Known p)
    (all : ∀ t ∈ ts, ∃ f, s.log.Holds t f) (c : Closure) :
    require s site ts c = .ok (c.require s site ts) := by
  rw [require, gather_need_eq sound all, ok_bind, Closure.require]
  refine follow_eq sound (fun g member => ?_) ?_
  · obtain ⟨t, _, need⟩ := mem_flatMap.mp member
    exact valid_need sound known need
  · rw [← Scene.length_goals]
    exact countP_le_length

end Sound

/-! ### Letting statements join -/

/-- Looking needed statements up by their indices finds them in the order in which they stand. -/
theorem mapM_statementIn {statements : List StatementFacts}
    (indexed : ∀ (k : Nat) (f : StatementFacts), statements[k]? = some f → f.index = k)
    {needed : List Int} (increasing : needed.Pairwise (· < ·))
    (inside : ∀ k ∈ needed, ∃ f ∈ statements, (f.index : Int) = k) (ordinal : Int) :
    needed.mapM (statementIn ordinal statements) =
    .ok (statements.filter fun f => needed.contains f.index) := by
  have looked : ∀ needed : List Int, (∀ k ∈ needed, ∃ f ∈ statements, (f.index : Int) = k) →
      ∃ found, needed.mapM (statementIn ordinal statements) = .ok found ∧ found ⊆ statements ∧
        found.map (fun f => (f.index : Int)) = needed := by
    intro needed inside
    induction needed with
    | nil => exact ⟨[], rfl, nil_subset _, rfl⟩
    | cons k rest ih =>
      obtain ⟨⟨f, among, rfl⟩, others⟩ := forall_mem_cons.mp inside
      obtain ⟨found, read, subset, indices⟩ := ih others
      obtain ⟨j, there⟩ := mem_iff_getElem?.mp among
      refine ⟨f :: found, ?_, cons_subset.mpr ⟨among, subset⟩, by rw [map_cons, indices]⟩
      rw [mapM_cons, read, indexed j f there, statementIn_eq there]
      rfl
  obtain ⟨found, read, subset, indices⟩ := looked needed inside
  have : Std.Irrefl fun a b : StatementFacts => a.index < b.index := ⟨fun a => Nat.lt_irrefl _⟩
  have : Std.Antisymm fun a b : StatementFacts => a.index < b.index :=
    ⟨fun a b less more => by omega⟩
  have ordered : statements.Pairwise fun a b => a.index < b.index := by
    refine pairwise_iff_getElem.mpr fun j k first second less => ?_
    rw [indexed j _ (getElem?_eq_getElem first), indexed k _ (getElem?_eq_getElem second)]
    exact less
  have orderedFound : found.Pairwise fun a b => a.index < b.index := by
    rw [← indices, pairwise_map] at increasing
    exact increasing.imp fun less => by omega
  rw [read]
  refine congrArg Except.ok (orderedFound.eq_of_mem_iff (ordered.filter _) fun f => ?_)
  rw [mem_filter, contains_iff_mem, ← indices, mem_map]
  constructor
  · exact fun member => ⟨subset member, f, member, rfl⟩
  · rintro ⟨among, g, member, same⟩
    -- No two statements have the same index.
    obtain ⟨j, foundF⟩ := mem_iff_getElem?.mp among
    obtain ⟨k, foundG⟩ := mem_iff_getElem?.mp (subset member)
    have first := indexed j f foundF
    have second := indexed k g foundG
    obtain rfl : j = k := by omega
    rw [foundF] at foundG
    exact Option.some.inj foundG ▸ member

theorem indicesAt_eq {nodes : List Node} (there : ∀ n ∈ nodes, ∃ f ∈ r.statements, f.node = n)
    (ordinal : Int) : indicesAt ordinal r nodes = .ok (Slice.indicesAt r nodes) := by
  unfold indicesAt Slice.indicesAt
  induction nodes with
  | nil => rfl
  | cons n rest ih =>
    obtain ⟨⟨f, member, node⟩, others⟩ := forall_mem_cons.mp there
    obtain ⟨g, found, looked⟩ := statementOn_eq ⟨f, member, congrArg Node.loc node⟩ ordinal
    rw [mapM_cons, looked, ih others, filterMap_cons, found]
    rfl

theorem missingIn_eq (regular : r.Regular) {needed : List Int}
    (increasing : needed.Pairwise (· < ·))
    (inside : ∀ k ∈ needed, ∃ f ∈ r.statements, (f.index : Int) = k) (ordinal : Int) :
    missingIn ordinal r needed = .ok (Slice.missingIn r needed) := by
  have indexed : ∀ (k : Nat) (f : StatementFacts), r.statements.toList[k]? = some f →
      f.index = k := by
    intro k f found
    rw [Array.getElem?_toList] at found
    exact regular.index k f found
  have listed : ∀ k ∈ needed, ∃ f ∈ r.statements.toList, (f.index : Int) = k := by
    simpa only [Array.mem_toList_iff] using inside
  have blocks : ∀ f ∈ r.statements, ∀ block ∈ f.node.clauseBlocks,
      missingFrom ordinal r needed block.2 = .ok (Slice.missingFrom r needed block.2).toList := by
    intro f member block among
    have there : ∀ c ∈ block.2, ∃ g ∈ r.statements, g.node = c := fun c inBlock => by
      obtain ⟨g, memberG, node, _⟩ := regular.blocks f member block among c inBlock
      exact ⟨g, memberG, node⟩
    rw [missingFrom, indicesAt_eq there, ok_bind]
    simp only [Slice.missingFrom]
    by_cases kept : (Slice.indicesAt r block.2).any needed.contains = true
    · rw [if_pos kept, if_pos kept]
      rfl
    · rw [if_neg kept, if_neg kept]
      rfl
  have brings : ∀ f ∈ r.statements, broughtAlong ordinal r needed f =
      .ok (Slice.broughtAlong r needed f) := by
    intro f member
    have there : ∀ m ∈ f.node.loopJumps, ∃ g ∈ r.statements, g.node = m := fun m jump =>
      regular.inner f member m (f.node.loopJumps_subset jump)
    rw [broughtAlong, gather_eq fun block among => blocks f member block among, ok_bind,
      indicesAt_eq there, Slice.broughtAlong, filterMap_eq_flatMap_toList]
    rfl
  rw [missingIn, mapM_statementIn indexed increasing listed, ok_bind,
    gather_eq fun f member => brings f (Array.mem_toList_iff.mp (mem_filter.mp member).1)]
  rfl

section Sound

variable {s : Scene} (sound : s.log.Sound)

include sound

theorem missing_eq {bound : Int} (followed : s.Followed bound c) :
    missing s c = .ok (c.missing s) := by
  refine gather_eq fun ordinal among => ?_
  obtain ⟨t, included, rfl⟩ := Closure.mem_ordinals.mp among
  obtain ⟨f, holds⟩ := followed.holds sound included
  obtain ⟨e, member, own, k, index, found⟩ := holds
  obtain ⟨r, facts⟩ := Execution.exists_facts (mem_of_getElem? found)
  have inside : ∀ k ∈ c.indicesOf e.ordinal, ∃ f ∈ r.statements, (f.index : Int) = k := by
    intro k needed
    obtain ⟨g, holds⟩ := followed.holds sound (Closure.mem_indicesOf.mp needed)
    obtain ⟨listed, same⟩ := sound.mem_of_holds member holds rfl
    exact ⟨g, (Execution.mem_statements facts).mp listed, (congrArg Timestamp.index same).symm⟩
  rw [← own, factsAt_eq sound member facts, ok_bind,
    missingIn_eq (sound.regular member facts) (c.increasing_indicesOf e.ordinal) inside,
    sound.at?_ordinal member, Option.bind_some, facts]
  rfl

theorem complete_eq {rounds : Nat} {bound : Int} (followed : s.Followed bound c)
    (enough : c.absent s < rounds) : complete s rounds c = .ok (c.complete s rounds) := by
  induction rounds generalizing c with
  | zero => exact absurd enough (Nat.not_lt_zero _)
  | succ rounds ih =>
    rw [complete, missing_eq sound followed, ok_bind, Closure.complete_succ, ← Closure.joining]
    cases join : c.joining s with
    | nil => rfl
    | cons t rest =>
      have more : c.joining s ≠ [] := by simp [join]
      have all : ∀ u ∈ c.joining s, ∃ f, s.log.Holds u f := fun u member =>
        Closure.holds_of_missing sound (Closure.mem_joining.mp member).1
      have joined := followed.join sound
      obtain ⟨seeds, _, _, underway⟩ := followed
      have less := Closure.absent_require_lt sound underway more
      rw [join] at all joined less
      rw [if_neg (cons_ne_nil t rest)]
      dsimp only
      rw [require_eq sound (by simp) all, ok_bind]
      exact ih joined (by omega)

theorem closureOf_eq (member : e ∈ s.log.executions) (facts : e.facts? = some r)
    {seeds : List StatementFacts} (listed : seeds ⊆ r.statements.toList) :
    closureOf s e seeds = .ok (Slice.closureOf s e seeds) := by
  have known : ∀ p ∈ some (Scene.exitSite e), s.log.Known p := fun p same =>
    Option.mem_some.mp same ▸ Log.known_exitSite member facts
  have all : ∀ t ∈ seeds.map fun f => (⟨e.ordinal, f.index⟩ : Timestamp), ∃ f, s.log.Holds t f := by
    intro t asked
    obtain ⟨f, seed, rfl⟩ := mem_map.mp asked
    refine ⟨f, sound.holds_of_mem member ?_⟩
    rw [Execution.statements_eq facts]
    exact listed seed
  rw [closureOf, require_eq sound known all, ok_bind]
  exact complete_eq sound (Scene.followed_start sound member seeds)
    (Nat.lt_succ_of_le Closure.absent_le)

theorem foldlM_addRangesAt (all : ∀ t ∈ ts, ∃ f, s.log.Holds t f) (found : Ranges) :
    ts.foldlM (addRangesAt s) found = .ok (ts.foldl (Slice.gather s) found) := by
  refine foldlM_eq (fun t member found => ?_) found
  obtain ⟨f, holds⟩ := all t member
  rw [addRangesAt, statementAt_eq sound holds, Slice.gather,
    (Scene.statement?_eq_some sound).mpr holds]
  obtain ⟨e, member, own, _⟩ := holds
  rw [← own, executionAt_eq sound member, sound.at?_ordinal member]
  rfl

end Sound

end Slice.Checked

namespace Log

/-- The slicer that checks its lookups gives what the slicer gives. -/
theorem sliceChecked_eq {l : Log} (sound : l.Sound) {e : Execution} (member : e ∈ l.executions)
    (atCall : Bool) (lines : Option (List Int)) : ∃ slice, l.slice atCall e lines = .ok slice ∧
    l.sliceChecked atCall e lines = .ok slice := by
  cases facts : e.facts? with
  | none =>
    refine ⟨_, slice_unparsed sound member facts atCall lines, ?_⟩
    rw [sliceChecked, contains_of_mem sound member, if_pos rfl, facts]
  | some r =>
    obtain ⟨c, closure, made⟩ := slice_parsed sound member facts atCall lines
    have listed : (lines.map r.onLines).getD r.statements.toList ⊆ r.statements.toList := by
      cases lines with
      | none => exact List.Subset.refl _
      | some lines => exact fun f seed => (mem_filter.mp seed).1
    have followed := Slice.Scene.followed_closureOf (s := ⟨l, atCall⟩) sound member
      ((lines.map r.onLines).getD r.statements.toList)
    rw [← closure] at followed
    have ranges := Slice.Checked.foldlM_addRangesAt (s := ⟨l, atCall⟩) sound
      (fun t included => followed.holds sound (ExtTreeSet.mem_toList.mp included)) ∅
    refine ⟨_, made, ?_⟩
    rw [sliceChecked, contains_of_mem sound member, if_pos rfl, facts]
    dsimp only
    rw [Slice.Checked.closureOf_eq sound member facts listed, ← closure,
      Slice.Checked.ok_bind, ranges]
    rfl

/-! ### Executions of other logs -/

/-- The logs that a session comes to from a log without restoring another one. -/
inductive Continues (l : Log) : Log → Prop where
  | here : Continues l l
  | record {l' l'' : Log} {cell : Notebook.Cell} {e : Execution} :
      Continues l l' → l'.record cell = .ok (l'', e) → Continues l l''
  | reset {l' : Log} : Continues l l' → Continues l l'.reset

theorem Continues.reachable {l l' : Log} (continues : l.Continues l') (reachable : l.Reachable) :
    l'.Reachable := by
  induction continues with
  | here => exact reachable
  | record _ recorded ih => exact .record ih recorded
  | reset _ ih => exact .reset ih

/-- A log keeps its number, and its epochs do not go back. -/
theorem Continues.epoch_le {l l' : Log} (continues : l.Continues l') :
    l'.epoch.log = l.epoch.log ∧ l.epoch.resets ≤ l'.epoch.resets := by
  induction continues with
  | here => exact ⟨rfl, Nat.le_refl _⟩
  | record _ recorded ih => rwa [(epoch_of_recordAt recorded).1]
  | reset _ ih => exact ⟨ih.1, Nat.le_succ_of_le ih.2⟩

theorem Continues.run {l l' : Log} (continues : l.Continues l') (cell : Notebook.Cell) :
    l.Continues (l'.run cell) := by
  unfold Log.run
  split
  · rename_i recorded
    exact .record continues recorded
  · exact continues

theorem slice_foreign {l : Log} {e : Execution} (foreign : l.contains e = false) (atCall : Bool)
    (lines : Option (List Int)) :
    l.slice atCall e lines = .error ⟨e⟩ ∧ l.sliceChecked atCall e lines =
    .error (.foreign ⟨e⟩) := by
  rw [slice, sliceChecked, foreign]
  exact ⟨rfl, rfl⟩

/-- **Slicing never fails on an execution of the log.** However a session went, each execution of
its log has a slice, and making it looks nothing up in vain: no execution, no facts of an execution,
no statement and no place of an edge, of a statement in a block or of a jump. Of the executions that
have been made in a process, no two are the same, and a log refuses all but its own: those of other
logs, copies, and also those that it had before it was reset. -/
theorem slice_of_session (atCall : Bool) (lines : Option (List Int)) :
    (∀ l : Log, l.Reachable → ∀ e ∈ l.executions,
      ∃ slice, l.slice atCall e lines = .ok slice ∧ l.sliceChecked atCall e lines = .ok slice) ∧
    (∀ (s : LogStore) (made : List Execution), s.History made →
      made.Pairwise (fun a b => a.same b = false) ∧ ∀ number l, s.log? number = some l →
        l.Reachable ∧ l.executions ⊆ made ∧ ∀ e ∈ made, e ∉ l.executions → l.slice atCall e lines =
        .error ⟨e⟩ ∧ l.sliceChecked atCall e lines = .error (.foreign ⟨e⟩)) ∧
    ∀ l : Log, l.Reachable → ∀ e ∈ l.executions, ∀ l', l.reset.Continues l' →
      l'.slice atCall e lines = .error ⟨e⟩ ∧ l'.sliceChecked atCall e lines =
      .error (.foreign ⟨e⟩) := by
  refine ⟨fun l reachable e member => sliceChecked_eq reachable.sound member atCall lines, ?_, ?_⟩
  · intro s made history
    refine ⟨history.orderly.apart, fun number l found => ?_⟩
    obtain ⟨_, _, accounts⟩ := history.orderly.logs number l found
    refine ⟨accounts.reachable, accounts.own, fun e member other => slice_foreign ?_ atCall lines⟩
    rw [← Bool.not_eq_true, accounts.contains_iff member]
    exact other
  · intro l reachable e member l' continues
    have resumed := continues.reachable reachable.reset
    refine slice_foreign ?_ atCall lines
    rw [← Bool.not_eq_true, resumed.sound.contains_iff]
    rintro ⟨a, among, same⟩
    -- The log is in a later epoch than the execution.
    have epoch : l.epoch = l'.epoch := by
      rw [← reachable.epoch e member, (Execution.same_iff.mp same).1, resumed.epoch a among]
    have later : l.epoch.resets < l'.epoch.resets := continues.epoch_le.2
    exact later.ne (congrArg Epoch.resets epoch)

/-- A session in which every name may be defined anywhere, a cell cannot be read, and a loop is
left. -/
def starred : Log :=
  (Log.empty ⟨∅, ∅⟩ id ⟨0, 0⟩).runAll
    [⟨"a", "from m import *\ndef f():\n    return y", none, []⟩, ⟨"b", "def f(:", none, []⟩,
      ⟨"c", "while f():\n    if x:\n        break", none, []⟩]

/-- Two logs that are alike. -/
def twins : LogStore :=
  (LogStore.empty.create ⟨∅, ∅⟩ id).create ⟨∅, ∅⟩ id

/-- The session has slices until it is reset. When each of the two logs runs the same cell, what the
second has recorded is refused by the first, although the first has recorded the like. -/
theorem slice_of_session_twins : starred.executions.map Execution.isParsed = [true, false, true] ∧
    (∀ e ∈ starred.executions, ∃ slice, starred.sliceChecked true e (some [1]) = .ok slice) ∧
    (∀ e ∈ starred.executions,
      (starred.reset.run ⟨"a", "x = 1", none, []⟩).slice true e (some [1]) = .error ⟨e⟩) ∧
    ∃ (s : LogStore) (l l' : Log) (e f : Execution), s.History [e, f] ∧ s.log? 0 = some l ∧
      s.log? 1 = some l' ∧ l.executions = [e] ∧ l'.executions = [f] ∧ e.text = f.text ∧
      e.ordinal = f.ordinal ∧ (∃ slice, l.slice true e (some [1]) = .ok slice) ∧
      l.slice true f (some [1]) = .error ⟨f⟩ := by
  obtain ⟨own, others, foreign⟩ := slice_of_session true (some [1])
  have reachable : starred.Reachable := (Reachable.start _ _ _).runAll _
  refine ⟨by decide +kernel, fun e member => ?_, fun e member => ?_, ?_⟩
  · obtain ⟨slice, _, checked⟩ := own starred reachable e member
    exact ⟨slice, checked⟩
  · exact (foreign starred reachable e member _ (Continues.here.run _)).1
  have runs : [0, 1].map (fun number => ((Log.empty ⟨∅, ∅⟩ id ⟨number, 0⟩).record
      ⟨"a", "x = 1", none, []⟩).toOption.map fun p => (p.2.text, p.2.ordinal)) =
      [some ("x = 1", 1), some ("x = 1", 1)] := by decide +kernel
  obtain ⟨⟨l, e, first, text, ordinal⟩, l', f, second, text', ordinal'⟩ : _ ∧
    _ := by simpa using runs
  replace first := ok_of_toOption first
  replace second := ok_of_toOption second
  have executions : l.executions = [e] := executions_of_recordAt first
  obtain ⟨kept, _⟩ := epoch_of_recordAt first
  obtain ⟨kept', other⟩ := epoch_of_recordAt second
  have begun : twins.History [] := .create _ _ (.create _ _ .start)
  have created : twins.log? 0 = some (.empty ⟨∅, ∅⟩ id ⟨0, 0⟩) :=
    (LogStore.log?_create _ ⟨∅, ∅⟩ id 0).trans (LogStore.log?_create _ ⟨∅, ∅⟩ id 0)
  have created' : (twins.put l).log? 1 = some (.empty ⟨∅, ∅⟩ id ⟨1, 0⟩) := by
    rw [LogStore.log?_put, kept]
    exact LogStore.log?_create _ ⟨∅, ∅⟩ id 1
  have both : ((twins.put l).put l').History [e, f] :=
    (begun.of_record created first).of_record created' second
  have found : ((twins.put l).put l').log? 0 = some l := by
    simp [LogStore.log?_put, kept, kept', Log.empty]
  have found' : ((twins.put l).put l').log? 1 = some l' := by
    simp [LogStore.log?_put, kept', Log.empty]
  obtain ⟨_, logs⟩ := others _ _ both
  obtain ⟨alive, _, refused⟩ := logs 0 l found
  refine ⟨_, l, l', e, f, both, found, found', executions, executions_of_recordAt second,
    text.trans text'.symm, ordinal.trans ordinal'.symm, ?_, ?_⟩
  · obtain ⟨slice, made, _⟩ := own l alive e (executions ▸ mem_singleton_self e)
    exact ⟨slice, made⟩
  · refine (refused f (mem_cons_of_mem e (mem_singleton_self f)) fun among => ?_).1
    have epoch := alive.epoch f among
    rw [other, kept] at epoch
    exact absurd (congrArg Epoch.log epoch) (Nat.succ_ne_zero 0)

end Log

end Lineage
