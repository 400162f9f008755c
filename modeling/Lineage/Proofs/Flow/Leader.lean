import Lineage.Proofs.Flow.Lead

/-!
Two analyses of the same block. The follower is given an environment in which calls may do no more
than in that of the leader, and stays behind it all the way: at every point its state lies under
that of the leader, and what it knows of each statement lies under what the leader knows of it in
the end. A loop of the follower is compared pass by pass with the last pass of the leader, which
begins in the state on which the leader settles.
-/

namespace Lineage.Flow

open List Std

variable {env : Env} {ds es : List Definition} {n : Node} {p : Progress} {full : Prop}
  {scope : Scope} {s t : State} {f h : StatementFacts} {name : String}

/-- Calls do no more in the first environment than in the second, if all that they do counts; what
is known to run unknown code is the same in both. -/
structure Env.Milder (full : Prop) (a b : Env) : Prop where
  dynamicNames : a.settings.dynamicNames = b.settings.dynamicNames
  pure : full → ∀ callee, b.isPure callee = true → a.isPure callee = true
  writes : full → ∀ callee, ∀ name ∈ a.writes.getD callee ∅, name ∈ b.writes.getD callee ∅

theorem Env.Milder.runsUnknown {a b : Env} (milder : a.Milder full b) :
    a.settings.runsUnknown = b.settings.runsUnknown := by
  funext n
  unfold Settings.runsUnknown
  rw [milder.dynamicNames]

theorem Env.Milder.isUnclear {a b : Env} (milder : a.Milder full b) (n : Node) :
    n.isUnclear a.settings = n.isUnclear b.settings := by
  have same : Node.runsUnknown a.settings = Node.runsUnknown b.settings := by
    funext e
    unfold Node.runsUnknown
    rw [milder.runsUnknown]
  unfold Node.isUnclear Node.isOpaque
  rw [same]

namespace State

/-- What a statement leaves of a state by binding names, whatever the order. -/
theorem mem_reaching_defineAll {i : Nat} {origin : Origin} :
    origin ∈ (s.defineAll i ds).reaching name ↔ (origin = .statement i ∧ ∃ d ∈ ds, d.name = name) ∨
      origin ∈ s.reaching name ∧ ∀ d ∈ ds, d.kind.kills = true → d.name ≠ name := by
  induction ds generalizing s with
  | nil => simp [defineAll]
  | cons d rest ih =>
    rw [defineAll_cons, ih, mem_reaching_define]
    simp only [mem_cons, exists_eq_or_imp, forall_eq_or_imp]
    grind

/-- Binding more names under the same statement, but none more outright, keeps a state above
another. -/
theorem Under.defineAll (under : s.Under full t) (i : Nat)
    (more : ∀ d ∈ ds, full ∨ d.kind.kills = true → d ∈ es)
    (outright : ∀ d ∈ es, d.kind.kills = true → d ∈ ds) :
    (s.defineAll i ds).Under full (t.defineAll i es) := by
  intro name origin counts reaches
  rw [mem_reaching_defineAll] at reaches ⊢
  rcases reaches with ⟨own, d, member, same⟩ | ⟨before, keeps⟩
  · rcases counts with all | entry
    · exact Or.inl ⟨own, d, more d member (Or.inl all), same⟩
    · exact nomatch own.symm.trans entry
  · exact Or.inr ⟨under name origin counts before, fun d member kills => keeps d
      (outright d member kills) kills⟩

theorem Under.define (under : s.Under full t) (i : Nat) (d : Definition) :
    (s.define i d).Under full (t.define i d) :=
  show (s.defineAll i [d]).Under full (t.defineAll i [d]) from
    under.defineAll i (fun _ member _ => member) fun _ member _ => member

end State

/-- The facts of every statement stand at its index. -/
def Progress.Placed (nodes : Nat → Option Node) (p : Progress) : Prop :=
  ∀ (k : Nat) (f : StatementFacts), p.facts[k]? = some f → f.index = k ∧ nodes k = some f.node

/-- No statement is known to assign more than calling what it defines assigns. -/
def Progress.Modest (env : Env) (p : Progress) : Prop :=
  ∀ (k : Nat) (f : StatementFacts), p.facts[k]? = some f →
    ∀ name ∈ f.globalWrites, name ∈ outward env f.node

namespace Progress

theorem Kept.placed {nodes : Nat → Option Node} (kept : p.Kept env scope nodes) : p.Placed nodes :=
  fun _ _ found => ⟨(kept.fitting found).index, (kept.fitting found).node⟩

theorem Kept.modest {nodes : Nat → Option Node} (kept : p.Kept env scope nodes) : p.Modest env :=
  fun _ _ found => (kept.fitting found).writes

section Evaluation

variable {full : Prop} {a b : Env} {nodes : Nat → Option Node} {G p q : Progress}

/-- The follower knows of no assignments by calls that the leader does not know of. -/
theorem mem_writesOf_of_under (milder : a.Milder full b) (counts : full)
    (state : p.state.Under full q.state) (facts : p.Under full G) (modest : G.Modest b)
    (placed : p.Placed nodes) (leader : q.Placed nodes) (backed : q.state.Backed b q.facts)
    {callee : String} (member : name ∈ p.writesOf a callee) : name ∈ q.writesOf b callee := by
  obtain ⟨origin, reaches, written⟩ := mem_writesOf.mp member
  refine mem_writesOf.mpr ⟨origin, state callee origin (Or.inl counts) reaches, ?_⟩
  cases origin with
  | parameter => exact absurd written ExtTreeSet.not_mem_empty
  | entry => exact milder.writes counts callee name written
  | statement k =>
    rw [writesFrom] at written ⊢
    obtain ⟨g, foundG, complete⟩ := backed callee k (state callee _ (Or.inl counts) reaches)
    rw [foundG]
    cases found : p.facts[k]? with
    | none =>
      rw [found] at written
      exact absurd written ExtTreeSet.not_mem_empty
    | some f =>
      rw [found] at written
      obtain ⟨h, foundH, above⟩ := facts k f found
      -- Both facts are of the statement with the index.
      have same : h.node = g.node :=
        above.node.trans (Option.some.inj ((placed k f found).2.symm.trans (leader k g foundG).2))
      have most := modest k h foundH name (above.globalWrites name written)
      exact complete name (same ▸ most)

/-- What calls change for the follower they change for the leader. -/
theorem mem_callDefinitions_of_under (milder : a.Milder full b) (counts : full)
    (state : p.state.Under full q.state) (facts : p.Under full G) (modest : G.Modest b)
    (placed : p.Placed nodes) (leader : q.Placed nodes) (backed : q.state.Backed b q.facts)
    (e : Node) : ∀ d ∈ p.callDefinitions a e, d ∈ q.callDefinitions b e := by
  intro d member
  cases e
  case call loc func args keywords =>
    rw [callDefinitions, mem_append] at member ⊢
    rcases member with member | member
    · left
      obtain ⟨name, written, rfl⟩ := mem_map.mp member
      refine mem_map.mpr ⟨name, ?_, rfl⟩
      cases func
      case name loc id =>
        simp only [calleeWrites, ExtTreeSet.mem_toList] at written ⊢
        exact mem_writesOf_of_under milder counts state facts modest placed leader backed written
      all_goals exact absurd written not_mem_nil
    · right
      split at member
      · exact absurd member not_mem_nil
      · rename_i impure
        rw [if_neg fun pure => impure (milder.pure counts func pure)]
        exact member
  all_goals exact absurd member not_mem_nil

/-- What an expression binds for the follower it binds for the leader, as far as it counts. -/
theorem mem_evaluationDefinitions_of_under (milder : a.Milder full b)
    (state : p.state.Under full q.state) (facts : p.Under full G) (modest : G.Modest b)
    (placed : p.Placed nodes) (leader : q.Placed nodes) (backed : q.state.Backed b q.facts)
    (e : Node) : ∀ d ∈ p.evaluationDefinitions a e, full ∨ d.kind.kills = true →
    d ∈ q.evaluationDefinitions b e := by
  intro d member counts
  rw [evaluationDefinitions, mem_append] at member ⊢
  refine member.imp_left fun called => ?_
  obtain ⟨n, among, called⟩ := mem_flatMap.mp called
  refine mem_flatMap.mpr ⟨n, among, ?_⟩
  rcases counts with counts | kills
  · exact mem_callDefinitions_of_under milder counts state facts modest placed leader backed n
      d called
  · exact absurd ((p.mild_callDefinitions a n d called).symm.trans kills) Bool.false_ne_true

/-- What an expression binds outright depends on nothing else. -/
theorem kills_mem_evaluationDefinitions (a b : Env) (p q : Progress) (e : Node) :
    ∀ d ∈ q.evaluationDefinitions b e, d.kind.kills = true → d ∈ p.evaluationDefinitions a e := by
  intro d member kills
  rw [evaluationDefinitions, mem_append] at member ⊢
  rcases member with called | bound
  · obtain ⟨n, among, called⟩ := mem_flatMap.mp called
    exact absurd ((q.mild_callDefinitions b n d called).symm.trans kills) Bool.false_ne_true
  · exact Or.inr bound

end Evaluation

end Progress

/-- What the follower notes of uses lies under what is known in the end, if the leader asks at least
for as much. -/
theorem StatementFacts.Notes.under_of {all others : Array StatementFacts}
    {asked more : String → Origin → Prop}
    {f' g h' : StatementFacts} (notes : f.Notes all asked f') (under : f.Under full g)
    (leading : h.Notes others more h') (above : h'.Under full g)
    (entry : ∀ name, asked name .entry → more name .entry)
    (sources : full → ∀ name k source, asked name (.statement k) → all[k]? = some source →
      more name (.statement k) ∧
      ∃ other, others[k]? = some other ∧ other.index = source.index ∧
      other.location = source.location) :
    f'.Under full g where
  index := under.index.trans notes.index.symm
  node := under.node.trans notes.node.symm
  entry := notes.entry ▸ under.entry
  external name member := by
    rcases (notes.external name).mp member with before | now
    · exact under.external name before
    · exact above.external name ((leading.external name).mpr (Or.inr (entry name now)))
  free name member := under.free name (notes.free ▸ member)
  globalWrites name member := under.globalWrites name (notes.globalWrites ▸ member)
  dynamic flag := under.dynamic (notes.dynamic.symm.trans flag)
  definitions d member := under.definitions d (notes.definitions ▸ member)
  data counts edge member kind := by
    rcases (notes.inbound edge).mp member with before | ⟨name, k, source, now, found, apart, rfl⟩
    · exact under.data counts edge before kind
    · obtain ⟨nowMore, other, foundOther, index, location⟩ := sources counts name k source now found
      have sameIndex : h.index = f.index :=
      leading.index.symm.trans (above.index.symm.trans under.index)
      have sameNode : h.node = f.node := leading.node.symm.trans (above.node.symm.trans under.node)
      have sameLocation : h.location = f.location := congrArg Node.loc sameNode
      refine above.data counts _ ((leading.inbound _).mpr
        (Or.inr ⟨name, k, other, nowMore, foundOther, ?_, ?_⟩)) rfl
      · rw [index, sameIndex]
        exact apart
      · rw [location, sameLocation]

namespace Progress

variable {full : Prop} {a b : Env} {nodes : Nat → Option Node} {G p q : Progress} {i : Nat}

theorem Placed.works (placed : p.Placed nodes) (works : Works i p q) : q.Placed nodes := by
  intro k g found
  by_cases same : k = i
  · subst same
    obtain ⟨inside, _⟩ := Array.getElem?_eq_some_iff.mp found
    rw [works.size] at inside
    obtain ⟨h, foundH, grows⟩ := works.own _ (Array.getElem?_eq_getElem inside)
    obtain rfl := Option.some.inj (foundH.symm.trans found)
    obtain ⟨index, node⟩ := placed k _ (Array.getElem?_eq_getElem inside)
    exact ⟨grows.index.trans index, grows.node ▸ node⟩
  · rw [works.frame k same] at found
    exact placed k g found

/-- The statements that a follower asks a state for the leader finds there too. -/
theorem sources_of_asked (state : s.Under full t) (counts : full) (placed : p.Placed nodes)
    (leader : q.Placed nodes) (backed : t.Backed b q.facts) {asked : String} {k : Nat}
    {source : StatementFacts} (now : s.Asked asked name (.statement k))
    (found : p.facts[k]? = some source) : t.Asked asked name (.statement k) ∧
      ∃ other, q.facts[k]? = some other ∧ other.index = source.index ∧
      other.location = source.location := by
  have more := now.mono state (Or.inl counts)
  obtain ⟨_, reaches⟩ := more.reaches
  obtain ⟨other, foundOther, _⟩ := backed _ k reaches
  obtain ⟨index, node⟩ := placed k source found
  obtain ⟨indexOther, nodeOther⟩ := leader k other foundOther
  have same : other.node = source.node := Option.some.inj (nodeOther.symm.trans node)
  exact ⟨more, other, foundOther, indexOther.trans index.symm, congrArg Node.loc same⟩

/-- The follower and the leader at the same point of a statement: the state lies under that of the
leader, and all that the follower knows lies under what is known in the end. -/
structure Abreast (full : Prop) (nodes : Nat → Option Node) (G : Progress) (i : Nat)
    (p q : Progress) : Prop where
  state : p.state.Under full q.state
  facts : p.Under full G
  placed : p.Placed nodes
  leader : q.Placed nodes
  inside : i < q.facts.size

namespace Abreast

section

variable (abreast : Abreast full nodes G i p q)

include abreast

theorem under_use (backed : q.state.Backed b q.facts) {u w : Use}
    (name : w.name = u.name) (ends : (q.use i w).Under full G) : (p.use i u).Under full G := by
  intro k f' found
  by_cases same : k = i
  · subst same
    rw [use, revise, Array.getElem?_modify, if_pos rfl] at found
    obtain ⟨f, foundF, rfl⟩ := Option.map_eq_some_iff.mp found
    obtain ⟨g, foundG, under⟩ := abreast.facts k f foundF
    obtain ⟨h, foundH⟩ : ∃ h, q.facts[k]? = some h := ⟨_, Array.getElem?_eq_getElem abreast.inside⟩
    have leading : (q.use k w).facts[k]? = some (h.use q.facts q.state w) := by
      rw [use, revise, Array.getElem?_modify, if_pos rfl, foundH]
      rfl
    obtain ⟨_, foundG', above⟩ := ends k _ leading
    obtain rfl := Option.some.inj (foundG.symm.trans foundG')
    have asks := h.notes_use q.facts q.state w
    rw [name] at asks
    refine ⟨g, foundG, (f.notes_use p.facts p.state u).under_of under asks above
      (fun _ now => ?_) ?_⟩
    · exact now.mono abreast.state (Or.inr rfl)
    · intro counts name l source now foundL
      exact sources_of_asked abreast.state counts abreast.placed abreast.leader backed now foundL
  · have frame : (p.use i u).facts[k]? = p.facts[k]? := (p.works_use i u).frame k same
    exact abreast.facts k f' (frame.symm.trans found)

theorem use (backed : q.state.Backed b q.facts) (u : Use)
    (ends : (q.use i u).Under full G) : Abreast full nodes G i (p.use i u) (q.use i u) where
  state := abreast.state
  facts := abreast.under_use backed rfl ends
  placed := abreast.placed.works (p.works_use i u)
  leader := abreast.leader.works (q.works_use i u)
  inside := (q.works_use i u).size.symm ▸ abreast.inside

/-- The follower may use names in another way and order than the leader. -/
theorem under_uses (backed : q.state.Backed b q.facts) {us ws : List Use}
    (names : ∀ u ∈ us, ∃ w ∈ ws, w.name = u.name)
    (ends : (ws.foldl (fun q u => q.use i u) q).Under full G) :
    (us.foldl (fun p u => p.use i u) p).Under full G := by
  -- Each use of the leader is under way when its facts are still what it began with, but for those
  -- of the statement.
  have each : ∀ w ∈ ws, ∃ r : Progress, r.state = q.state ∧ Works i q r ∧ q.Under True r ∧
      (r.use i w).Under full G := by
    clear names
    induction ws generalizing q with
    | nil => exact forall_mem_nil _
    | cons w rest ih =>
      have first : q.Under True (q.use i w) := q.under_use i w
      refine forall_mem_cons.mpr ⟨⟨q, rfl, .refl i q, .refl q, ?_⟩, ?_⟩
      · exact ((q.use i w).under_uses i rest).trans ends
      · have along : Abreast full nodes G i p (q.use i w) :=
          ⟨abreast.state, abreast.facts, abreast.placed, abreast.leader.works (q.works_use i w),
            (q.works_use i w).size.symm ▸ abreast.inside⟩
        intro v member
        obtain ⟨r, state, works, under, done⟩ := ih along (backed.mono first) ends v member
        exact ⟨r, state, (q.works_use i w).trans works, first.trans under, done⟩
  clear ends
  induction us generalizing p with
  | nil => exact abreast.facts
  | cons u rest ih =>
    obtain ⟨first, others⟩ := forall_mem_cons.mp names
    obtain ⟨w, member, name⟩ := first
    obtain ⟨r, state, works, under, done⟩ := each w member
    have along : Abreast full nodes G i p r := by
      refine ⟨?_, abreast.facts, abreast.placed, abreast.leader.works works, works.size.symm ▸
        abreast.inside⟩
      rw [state]
      exact abreast.state
    have used := along.under_use (state ▸ backed.mono under) name done
    refine ih ⟨abreast.state, used, abreast.placed.works (p.works_use i u), abreast.leader,
      abreast.inside⟩ others

/-- A change of the follower's own facts. -/
theorem revise {c d : StatementFacts → StatementFacts}
    (grows : ∀ f : StatementFacts, f.Grows (c f)) (leads : ∀ f : StatementFacts, f.Grows (d f))
    (ends : (q.revise i d).Under full G)
    (own : ∀ f g h : StatementFacts, f.Under full g → (d h).Under full g → (c f).Under full g) :
    Abreast full nodes G i (p.revise i c) (q.revise i d) := by
  have works := p.works_revise i grows
  have leading := q.works_revise i leads
  refine ⟨abreast.state, fun k f' found => ?_, abreast.placed.works works,
    abreast.leader.works leading, leading.size.symm ▸ abreast.inside⟩
  by_cases same : k = i
  · subst same
    rw [Progress.revise, Array.getElem?_modify, if_pos rfl] at found
    obtain ⟨f, foundF, rfl⟩ := Option.map_eq_some_iff.mp found
    obtain ⟨g, foundG, under⟩ := abreast.facts k f foundF
    obtain ⟨h, foundH⟩ : ∃ h, q.facts[k]? = some h := ⟨_, Array.getElem?_eq_getElem abreast.inside⟩
    have revised : (q.revise k d).facts[k]? = some (d h) := by
      rw [Progress.revise, Array.getElem?_modify, if_pos rfl, foundH]
      rfl
    obtain ⟨_, foundG', above⟩ := ends k _ revised
    obtain rfl := Option.some.inj (foundG.symm.trans foundG')
    exact ⟨g, foundG, own f g h under above⟩
  · exact abreast.facts k f' ((works.frame k same).symm.trans found)

theorem setDynamic
    (ends : (q.revise i fun f => { f with dynamic := true }).Under full G) : Abreast full nodes G i
      (p.revise i fun f => { f with dynamic := true })
      (q.revise i fun f => { f with dynamic := true }) := by
  have grows : ∀ f : StatementFacts, f.Grows { f with dynamic := true } :=
    fun f => ⟨rfl, rfl, rfl, .refl _, fun _ => id, fun _ => rfl, rfl⟩
  refine abreast.revise grows grows ends fun f g h under above => ?_
  exact { under with dynamic := fun _ => above.dynamic rfl }

theorem close (free writes : NameSet)
    (ends : (q.act b i (.close free writes)).Under full G) :
    Abreast full nodes G i (p.act a i (.close free writes)) (q.act b i (.close free writes)) := by
  have grows : ∀ f : StatementFacts, f.Grows
      { f with free := f.free ∪ free, globalWrites := f.globalWrites ∪ writes } :=
    fun f => ⟨rfl, rfl, rfl, .refl _, fun _ => id, id, rfl⟩
  refine abreast.revise grows grows ends
      fun f g h under above => { under with free := ?_, globalWrites := ?_ }
  · intro name member
    rcases ExtTreeSet.mem_union_iff.mp member with before | now
    · exact under.free name before
    · exact above.free name (ExtTreeSet.mem_union_iff.mpr (Or.inr now))
  · intro name member
    rcases ExtTreeSet.mem_union_iff.mp member with before | now
    · exact under.globalWrites name before
    · exact above.globalWrites name (ExtTreeSet.mem_union_iff.mpr (Or.inr now))

end

/-- What a statement has bound is known of it. -/
theorem mem_definitions_of_defineAll (inside : i < q.facts.size)
    (ends : (q.defineAll i es).Under full G) {d : Definition} (member : d ∈ es)
    (counts : full ∨ d.kind.kills = true) : ∀ g, G.facts[i]? = some g → d ∈ g.definitions := by
  intro g foundG
  induction es generalizing q with
  | nil => exact absurd member not_mem_nil
  | cons e rest ih =>
    rcases mem_cons.mp member with rfl | later
    · have ended : (q.define i d).Under full G := ((q.define i d).under_defineAll i rest).trans ends
      obtain ⟨h, foundH⟩ : ∃ h, q.facts[i]? = some h := ⟨_, Array.getElem?_eq_getElem inside⟩
      have defined : (q.define i d).facts[i]? = some (h.define d) := by
        rw [define, Progress.revise, Array.getElem?_modify, if_pos rfl, foundH]
        rfl
      obtain ⟨_, foundG', above⟩ := ended i _ defined
      obtain rfl := Option.some.inj (foundG.symm.trans foundG')
      exact above.definitions d (StatementFacts.mem_addNew_iff.mpr (Or.inr rfl)) counts
    · exact ih ((q.works_define i e).size.symm ▸ inside) ends later

section

variable (abreast : Abreast full nodes G i p q)

include abreast

/-- The follower binds what is known to be bound in the end, and no less outright than the
leader. -/
theorem defineAll (more : ∀ d ∈ ds, full ∨ d.kind.kills = true → d ∈ es)
    (outright : ∀ d ∈ es, d.kind.kills = true → d ∈ ds) (ends : (q.defineAll i es).Under full G) :
    Abreast full nodes G i (p.defineAll i ds) (q.defineAll i es) := by
  have known : ∀ d ∈ ds, full ∨ d.kind.kills = true → ∀ g, G.facts[i]? = some g →
      d ∈ g.definitions :=
    fun d member counts => mem_definitions_of_defineAll abreast.inside ends
      (more d member counts) counts
  refine ⟨?_, ?_, abreast.placed.works (p.works_defineAll i ds),
    abreast.leader.works (q.works_defineAll i es), (q.works_defineAll i es).size.symm ▸
    abreast.inside⟩
  · rw [state_defineAll, state_defineAll]
    exact abreast.state.defineAll i more outright
  · have facts := abreast.facts
    clear abreast more outright
    induction ds generalizing p with
    | nil => exact facts
    | cons d rest ih =>
      obtain ⟨first, others⟩ := forall_mem_cons.mp known
      refine ih others fun k f' found => ?_
      by_cases same : k = i
      · subst same
        change (p.facts.modify k fun f => f.define d)[k]? = some f' at found
        rw [Array.getElem?_modify, if_pos rfl] at found
        obtain ⟨f, foundF, rfl⟩ := Option.map_eq_some_iff.mp found
        obtain ⟨g, foundG, under⟩ := facts k f foundF
        refine ⟨g, foundG, { under with definitions := fun e member counts => ?_ }⟩
        rcases StatementFacts.mem_addNew_iff.mp member with before | rfl
        · exact under.definitions e before counts
        · exact first counts g foundG
      · exact facts k f' (((p.works_define i d).frame k same).symm.trans found)

theorem define (d : Definition) (ends : (q.define i d).Under full G) :
    Abreast full nodes G i (p.define i d) (q.define i d) :=
  show Abreast full nodes G i (p.defineAll i [d]) (q.defineAll i [d]) from
    abreast.defineAll (fun _ member _ => member) (fun _ member _ => member) ends

/-- The follower evaluates an expression beside the leader. What it will bind the leader will bind,
as far as it counts, and the leader binds no more outright. -/
theorem read (milder : a.Milder full b) (modest : G.Modest b)
    (backed : q.state.Backed b q.facts) (e : Node) (ends : (q.read b i e).Under full G)
    (more : ∀ d ∈ p.pending, full ∨ d.kind.kills = true → d ∈ q.pending)
    (outright : ∀ d ∈ q.pending, d.kind.kills = true → d ∈ p.pending) :
    Abreast full nodes G i (p.read a i e) (q.read b i e) ∧
      (∀ d ∈ (p.read a i e).pending, full ∨ d.kind.kills = true → d ∈ (q.read b i e).pending) ∧
      ∀ d ∈ (q.read b i e).pending, d.kind.kills = true → d ∈ (p.read a i e).pending := by
  have names : ∀ u ∈ (e.reads a.isPure .bare).map useOfRead,
      ∃ w ∈ (e.reads b.isPure .bare).map useOfRead, w.name = u.name := by
    intro u member
    obtain ⟨r, read, rfl⟩ := mem_map.mp member
    have among : r.id ∈ (e.reads b.isPure .bare).map Read.id := by
      rw [Node.ids_reads b.isPure a.isPure .bare .bare e]
      exact mem_map_of_mem read
    obtain ⟨w, readW, same⟩ := mem_map.mp among
    exact ⟨useOfRead w, mem_map_of_mem readW, same⟩
  have facts : (p.read a i e).Under full G := by
    unfold Progress.read at ends ⊢
    rw [milder.runsUnknown] at *
    split at ends
    · rename_i unknown
      rw [if_pos unknown]
      have flagged := abreast.setDynamic (Under.trans (Progress.under_uses _ i _) ends)
      exact flagged.under_uses (backed.mono (q.under_setDynamic i)) names ends
    · rename_i clear
      rw [if_neg clear]
      exact abreast.under_uses backed names ends
  refine ⟨⟨?_, facts, abreast.placed.works (works_read a i e p),
    abreast.leader.works (works_read b i e q),
    (works_read b i e q).size.symm ▸ abreast.inside⟩, ?_, ?_⟩
  · rw [state_read, state_read]
    exact abreast.state
  · rw [pending_read, pending_read]
    intro d member counts
    rcases mem_append.mp member with before | now
    · exact mem_append_left _ (more d before counts)
    · exact mem_append_right _ (mem_evaluationDefinitions_of_under milder abreast.state
        abreast.facts modest abreast.placed abreast.leader backed e d now counts)
  · rw [pending_read, pending_read]
    intro d member kills
    rcases mem_append.mp member with before | now
    · exact mem_append_left _ (outright d before kills)
    · exact mem_append_right _ (kills_mem_evaluationDefinitions a b p q e d now kills)

theorem evaluate (milder : a.Milder full b) (modest : G.Modest b)
    (backed : q.state.Backed b q.facts) (es : List Node) (ends : (q.evaluate b i es).Under full G)
    (more : ∀ d ∈ p.pending, full ∨ d.kind.kills = true → d ∈ q.pending)
    (outright : ∀ d ∈ q.pending, d.kind.kills = true → d ∈ p.pending) :
    Abreast full nodes G i (p.evaluate a i es) (q.evaluate b i es) := by
  induction es generalizing p q with
  | nil =>
    have emptied : Abreast full nodes G i { p with pending := [] } { q with pending := [] } :=
      { abreast with }
    exact emptied.defineAll more outright ends
  | cons e rest ih =>
    have first : (q.read b i e).Under full G := by
      refine Under.trans ?_ ends
      exact Under.trans (under_readAll b i rest (q.read b i e)) (under_flush _ i)
    obtain ⟨along, moreRest, outrightRest⟩ :=
      abreast.read milder modest backed e first more outright
    refine ih along ?_ ends moreRest outrightRest
    rw [state_read]
    exact backed.mono (under_read b i e q)

end

end Abreast

end Progress

/-- Each of the states was there before or lies under one of the others. -/
def Trailing (full : Prop) (before after others : List State) : Prop :=
  ∀ t ∈ after, t ∈ before ∨ ∃ u ∈ others, t.Under full u

namespace Trailing

variable {full : Prop} {before after others : List State}

theorem refl (states others : List State) : Trailing full states states others :=
  fun _ member => Or.inl member

theorem trans {middle most : List State} (first : Trailing full before middle others)
    (second : Trailing full middle after most) (more : others ⊆ most) :
    Trailing full before after most := by
  intro t member
  rcases second t member with between | later
  · exact (first t between).imp_right fun ⟨u, among, under⟩ => ⟨u, more among, under⟩
  · exact Or.inr later

theorem append (under : s.Under full t) (before others : List State) :
    Trailing full before (before ++ [s]) (others ++ [t]) := by
  intro u member
  rcases mem_append.mp member with old | new
  · exact Or.inl old
  · rw [List.mem_singleton.mp new]
    exact Or.inr ⟨t, mem_append_right _ (mem_singleton_self t), under⟩

end Trailing

namespace Progress.Abreast

variable {full : Prop} {a b : Env} {nodes : Nat → Option Node} {G p q : Progress} {i : Nat}

/-- One thing that both do. A statement that asks for something has to find it. -/
theorem act (abreast : Abreast full nodes G i p q) (milder : a.Milder full b) (modest : G.Modest b)
    (settled : p.pending = []) (settledLeader : q.pending = []) (backed : q.state.Backed b q.facts)
    (action : Action) (ends : (q.act b i action).Under full G) :
      Abreast full nodes G i (p.act a i action) (q.act b i action) ∧
      Trailing full p.breaks (p.act a i action).breaks (q.act b i action).breaks ∧
      Trailing full p.continues (p.act a i action).continues (q.act b i action).continues := by
  have quiet : ∀ {r : Progress}, r.breaks = p.breaks → r.continues = p.continues → ∀ others more,
      Trailing full p.breaks r.breaks others ∧ Trailing full p.continues r.continues more := by
    intro r breaks continues others more
    rw [breaks, continues]
    exact ⟨.refl _ _, .refl _ _⟩
  cases action with
  | evaluate es =>
    refine ⟨abreast.evaluate milder modest backed es ends ?_ ?_, ?_⟩
    · rw [settled]
      exact forall_mem_nil _
    · rw [settledLeader]
      exact forall_mem_nil _
    · obtain ⟨breaks, continues⟩ := Progress.jumps_evaluate a i es p
      exact quiet breaks continues _ _
  | define d => exact ⟨abreast.define d ends, quiet rfl rfl _ _⟩
  | use u => exact ⟨abreast.use backed u ends, quiet rfl rfl _ _⟩
  | close free writes => exact ⟨abreast.close free writes ends, quiet rfl rfl _ _⟩
  | «break» => exact ⟨{ abreast with }, .append abreast.state _ _, .refl _ _⟩
  | «continue» => exact ⟨{ abreast with }, .refl _ _, .append abreast.state _ _⟩

/-- Everything that both do, if the statement defines no function that assigns anything outside. -/
theorem acts (abreast : Abreast full nodes G i p q) (milder : a.Milder full b) (modest : G.Modest b)
    (settled : p.pending = []) (settledLeader : q.pending = []) (backed : q.state.Backed b q.facts)
    (here : nodes i = some n) (none : outward b n = ∅) (actions : List Action)
    (ends : (q.acts b i actions).Under full G) : Abreast full nodes G i (p.acts a i actions)
      (q.acts b i actions) ∧ Trailing full p.breaks (p.acts a i actions).breaks
      (q.acts b i actions).breaks ∧ Trailing full p.continues (p.acts a i actions).continues
      (q.acts b i actions).continues := by
  induction actions generalizing p q with
  | nil => exact ⟨abreast, .refl _ _, .refl _ _⟩
  | cons action rest ih =>
    have later : (q.act b i action).Under full G :=
      (under_acts b i rest (q.act b i action)).trans ends
    obtain ⟨along, breaks, continues⟩ :=
      abreast.act milder modest settled settledLeader backed action later
    have under : q.Under True (q.act b i action) := q.under_act b i action
    have held : (q.act b i action).state.Backed b (q.act b i action).facts := by
      refine backed.supplied under (q.draws_act b i action).state ?_
      obtain ⟨g, found⟩ : ∃ g, (q.act b i action).facts[i]? = some g :=
        ⟨_, Array.getElem?_eq_getElem along.inside⟩
      refine ⟨g, found, fun name member => ?_⟩
      rw [Option.some.inj ((along.leader i g found).2.symm.trans here), none] at member
      exact absurd member ExtTreeSet.not_mem_empty
    obtain ⟨done, breaksRest, continuesRest⟩ := ih along (pending_act settled a i action)
      (pending_act settledLeader b i action) held ends
    have works := works_acts b i rest (q.act b i action)
    exact ⟨done, breaks.trans breaksRest works.breaks.subset,
      continues.trans continuesRest works.continues.subset⟩

end Progress.Abreast

/-- Only the definition of a function tells of assignments outside: it evaluates, tells what its
body does, and binds the function. -/
theorem flatActions_cases (env : Env) (n : Node) :
    (∃ es free writes d, flatActions env n = [.evaluate es, .close free writes, .define d]) ∨
    outward env n = ∅ := by
  cases n
  case function => exact Or.inl ⟨_, _, _, _, rfl⟩
  case decorated loc decorators definition =>
    cases definition
    case function => exact Or.inl ⟨_, _, _, _, rfl⟩
    all_goals exact Or.inr rfl
  all_goals exact Or.inr rfl

namespace Progress.Abreast

variable {full : Prop} {a b : Env} {nodes : Nat → Option Node} {G p q : Progress} {i : Nat}

/-- Both do what a statement without blocks does. -/
theorem perform (abreast : Abreast full nodes G i p q) (milder : a.Milder full b)
    (modest : G.Modest b) (settled : p.pending = []) (settledLeader : q.pending = [])
    (backed : q.state.Backed b q.facts) (here : nodes i = some n)
    (same : flatActions a n = flatActions b n) (ends : (q.perform b i n).Under full G) :
      Abreast full nodes G i (p.perform a i n) (q.perform b i n) ∧
      Trailing full p.breaks (p.perform a i n).breaks (q.perform b i n).breaks ∧
      Trailing full p.continues (p.perform a i n).continues (q.perform b i n).continues := by
  by_cases verbatim : n.kind = .verbatim
  · cases n
    case verbatim => exact ⟨abreast.setDynamic ends, .refl _ _, .refl _ _⟩
    all_goals exact nomatch verbatim
  · rw [q.perform_eq_acts b i n verbatim] at ends ⊢
    rw [p.perform_eq_acts a i n verbatim, same]
    rcases flatActions_cases b n with ⟨es, free, writes, d, function⟩ | none
    · rw [function] at ends ⊢
      -- Only the first of the three things asks for anything.
      have closed : ((q.evaluate b i es).act b i (.close free writes)).Under full G :=
        (under_define _ i d).trans ends
      have evaluated : (q.evaluate b i es).Under full G := (under_act b i _ _).trans closed
      obtain ⟨first, breaks, continues⟩ :=
        abreast.act milder modest settled settledLeader backed (.evaluate es) evaluated
      exact ⟨(first.close free writes closed).define d ends, breaks, continues⟩
    · exact abreast.acts milder modest settled settledLeader backed here none (flatActions b n) ends

end Progress.Abreast

namespace Progress

/-- The first analysis is behind the second, and behind what is known in the end. -/
structure UnderLeader (full : Prop) (p G q : Progress) : Prop where
  state : p.state.Under full q.state
  facts : p.Under full G
  heads : ∀ (k : Nat) (s : State), p.heads[k]? = some s → ∃ t, G.heads[k]? = some t ∧ s.Under full t

/-- Both analyses go on from one point to another, the first behind the second. -/
structure Follows (full : Prop) (G p q p' q' : Progress) : Prop where
  behind : p'.UnderLeader full G q'
  breaks : Trailing full p.breaks p'.breaks q'.breaks
  continues : Trailing full p.continues p'.continues q'.continues

variable {full : Prop} {a b : Env} {nodes : Nat → Option Node} {G p q : Progress} {i : Nat}

/-- Both reach a statement. -/
theorem UnderLeader.enter (behind : p.UnderLeader full G q) (parent : Option Nat)
    (here : nodes i = some n) (fits : i ≤ p.facts.size) (fitsLeader : i ≤ q.facts.size)
    (leader : (q.enter parent i n).Placed nodes) (ends : (q.enter parent i n).Under full G) :
    (p.enter parent i n).UnderLeader full G (q.enter parent i n) := by
  refine ⟨?_, fun k f found => ?_, ?_⟩
  · rw [state_enter, state_enter]
    exact behind.state
  · by_cases same : k = i
    · subst same
      obtain ⟨h, foundH, known⟩ := facts_enter parent n fitsLeader
      obtain ⟨g, foundG, above⟩ := ends k h foundH
      obtain ⟨index, node⟩ := leader k h foundH
      have reached : p.state.Under full g.entry := by
        refine (behind.state.trans ?_).trans above.entry
        rcases known with ⟨before, _, rfl⟩ | ⟨_, _, _, entry, _⟩
        · exact State.under_of_below (State.below_merge_right _ _)
        · rw [entry]
          exact .refl _
      obtain ⟨_, foundF, ⟨e, foundE, rfl⟩ | ⟨_, indexF, nodeF, entry, external, free, writes,
        dynamic, definitions, inbound⟩⟩ := facts_enter parent n fits
      · obtain rfl := Option.some.inj (foundF.symm.trans found)
        obtain ⟨_, foundG', under⟩ := behind.facts k e foundE
        obtain rfl := Option.some.inj (foundG.symm.trans foundG')
        refine ⟨g, foundG, { under with entry := fun name origin counts reaches => ?_ }⟩
        rcases State.mem_reaching_merge.mp reaches with before | now
        · exact under.entry name origin counts before
        · exact reached name origin counts now
      · obtain rfl := Option.some.inj (foundF.symm.trans found)
        refine ⟨g, foundG, ⟨?_, ?_, entry ▸ reached, ?_, ?_, ?_, ?_, ?_, ?_⟩⟩
        · rw [above.index, index, indexF]
        · rw [above.node, nodeF]
          exact Option.some.inj (node.symm.trans here)
        · rw [external]
          exact fun _ member => absurd member ExtTreeSet.not_mem_empty
        · rw [free]
          exact fun _ member => absurd member ExtTreeSet.not_mem_empty
        · rw [writes]
          exact fun _ member => absurd member ExtTreeSet.not_mem_empty
        · exact fun flag => nomatch dynamic.symm.trans flag
        · rw [definitions]
          exact fun _ member => absurd member not_mem_nil
        · exact fun _ edge member kind => nomatch (inbound edge member).symm.trans kind
    · rw [frame_enter parent n fits same] at found
      exact behind.facts k f found
  · rw [heads_enter]
    exact behind.heads

/-- Whatever else a statement binds may be known of it. -/
def allow (G : Progress) (i : Nat) (ds : List Definition) : Progress :=
  G.revise i fun g => { g with definitions := g.definitions ++ ds }

theorem under_allow (G : Progress) (i : Nat) (ds : List Definition) : G.Under full (G.allow i ds) :=
  G.under_revise i fun g _ =>
    { StatementFacts.Under.refl g with definitions := fun _ member _ => mem_append_left _ member }

theorem Modest.allow (modest : G.Modest b) (i : Nat) (ds : List Definition) :
    (G.allow i ds).Modest b := by
  intro k f found
  rw [Progress.allow, revise, Array.getElem?_modify] at found
  split at found
  · rename_i same
    subst same
    obtain ⟨g, foundG, rfl⟩ := Option.map_eq_some_iff.mp found
    exact modest i g foundG
  · exact modest k f found

/-- What a statement knows before it is left lies under what is known in the end, but for what it
binds. -/
theorem under_allow_of_leave (found : q.facts[i]? = some h) {entry : State}
    (ends : (q.leave i n entry).Under full G) : q.Under full (G.allow i h.definitions) := by
  intro k f foundF
  by_cases same : k = i
  · subst same
    obtain rfl := Option.some.inj (found.symm.trans foundF)
    obtain ⟨left, foundLeft, notes⟩ := facts_leave found n entry
    obtain ⟨g, foundG, above⟩ := ends k left foundLeft
    have noted : StatementFacts.Under full _ left := notes.under
    refine ⟨{ g with definitions := g.definitions ++ h.definitions }, ?_, ?_⟩
    · rw [allow, revise, Array.getElem?_modify, if_pos rfl, foundG]
      rfl
    · have whole := noted.trans above
      exact ⟨whole.index, whole.node, whole.entry, whole.external, whole.free, whole.globalWrites,
        whole.dynamic, fun d member _ => mem_append_right _ member, whole.data⟩
  · have frame := (works_leave i n entry q).frame k same
    obtain ⟨g, foundG, above⟩ := ends k f (frame.trans foundF)
    refine ⟨g, ?_, above⟩
    rw [allow, revise, Array.getElem?_modify, if_neg (Ne.symm same)]
    exact foundG

/-- Both leave a statement that they know to run unknown code, or both one that does not. -/
theorem UnderLeader.leave (behind : p.UnderLeader full (G.allow i h.definitions) q)
    (found : p.facts[i]? = some f) (foundLeader : q.facts[i]? = some h)
    (flags : f.dynamic = h.dynamic) (placed : p.Placed nodes) (leader : q.Placed nodes)
    (entry : s.Under full t) (backed : t.Backed b q.facts) (n : Node)
    (ends : (q.leave i n t).Under full G) : (p.leave i n s).UnderLeader full G (q.leave i n t) := by
  refine ⟨?_, fun k e foundE => ?_, ?_⟩
  · rw [state_leave_eq found, state_leave_eq foundLeader, flags]
    split
    · exact entry.define i _
    · exact behind.state
  · by_cases same : k = i
    · subst same
      obtain ⟨_, foundE', notes⟩ := facts_leave found n s
      obtain rfl := Option.some.inj (foundE.symm.trans foundE')
      obtain ⟨l, foundL, leading⟩ := facts_leave foundLeader n t
      obtain ⟨g, foundG, above⟩ := ends k l foundL
      obtain ⟨g', foundG', under⟩ := behind.facts k f found
      rw [allow, revise, Array.getElem?_modify, if_pos rfl, foundG, Option.map_some] at foundG'
      obtain rfl := Option.some.inj foundG'
      refine ⟨g, foundG, notes.under_of ?_ leading above ?_ ?_⟩
      · refine ⟨under.index, under.node, under.entry, under.external, under.free,
          under.globalWrites, under.dynamic, ?_, under.data⟩
        -- What the leader does not forget is known in the end.
        intro d member counts
        have kept := above.definitions d
        rw [leading.definitions] at kept
        dsimp only at member kept
        rw [flags] at member
        split at member
        · rename_i lost
          rw [if_pos lost] at kept
          exact kept member counts
        · rename_i remembered
          rw [if_neg remembered] at kept
          rcases mem_append.mp (under.definitions d member counts) with before | now
          · exact before
          · exact kept now counts
      · rintro name ⟨flag, now⟩
        exact ⟨flags.symm.trans flag, now.mono entry (Or.inr rfl)⟩
      · rintro counts name l source ⟨flag, now⟩ foundSource
        obtain ⟨more, other⟩ := sources_of_asked entry counts placed leader backed now foundSource
        exact ⟨⟨flags.symm.trans flag, more⟩, other⟩
    · rw [(works_leave i n s p).frame k same] at foundE
      obtain ⟨g, foundG, under⟩ := behind.facts k e foundE
      rw [allow, revise, Array.getElem?_modify, if_neg (Ne.symm same)] at foundG
      exact ⟨g, foundG, under⟩
  · rw [heads_leave]
    exact behind.heads

variable {sa sb : Scope}

/-- Both visit a statement without blocks. -/
theorem UnderLeader.flat (behind : p.UnderLeader full G q) (milder : a.Milder full b)
    (modest : G.Modest b) (kept : p.Kept a sa nodes) (leader : q.Kept b sb nodes)
    (parent : Option Nat) (simple : n.kind.isCompound = false) (stated : Stated sa nodes i n)
    (shared : Stated sb nodes i n) (same : flatActions a n = flatActions b n)
    (fits : i ≤ p.facts.size) (fitsLeader : i ≤ q.facts.size)
    (ends : (((q.enter parent i n).perform b i n).leave i n q.state).Under full G) :
      Follows full G p q (((p.enter parent i n).perform a i n).leave i n p.state)
      (((q.enter parent i n).perform b i n).leave i n q.state) := by
  have here := stated.here
  have entered := kept.enter parent here stated.below fits
  have enteredLeader := leader.enter parent here shared.below fitsLeader
  obtain ⟨f, found, _⟩ := facts_enter parent n fits
  obtain ⟨g, foundLeader, _⟩ := facts_enter parent n fitsLeader
  obtain rfl : f.node = n := Option.some.inj ((entered.fitting found).node.symm.trans here)
  have node : g.node = f.node := Option.some.inj
    ((enteredLeader.fitting foundLeader).node.symm.trans here)
  obtain ⟨h, foundH, raised⟩ : ∃ h, ((q.enter parent i f.node).perform b i f.node).facts[i]? =
      some h ∧ g.Under True h :=
    under_perform b i f.node _ i g foundLeader
  -- Until it is left the statement may bind what is then forgotten.
  have performed := under_allow_of_leave foundH ends
  have begun : (q.enter parent i f.node).Under full (G.allow i h.definitions) :=
    (under_perform b i f.node _).trans performed
  have behind' : p.UnderLeader full (G.allow i h.definitions) q :=
    ⟨behind.state, behind.facts.trans (under_allow G i _), behind.heads⟩
  have first := behind'.enter parent here fits fitsLeader enteredLeader.placed begun
  have backed : (q.enter parent i f.node).state.Backed b (q.enter parent i f.node).facts :=
    enteredLeader.state.backed
  have abreast : Abreast full nodes (G.allow i h.definitions) i (p.enter parent i f.node)
      (q.enter parent i f.node) :=
    ⟨first.state, first.facts, entered.placed, enteredLeader.placed,
      le_size_enter parent f.node fitsLeader⟩
  obtain ⟨done, breaks, continues⟩ :=
    abreast.perform milder (modest.allow i _) entered.settled enteredLeader.settled backed here same
    performed
  obtain ⟨e, foundE, _⟩ : ∃ e, ((p.enter parent i f.node).perform a i f.node).facts[i]? = some e ∧
      f.Under True e :=
    under_perform a i f.node _ i f found
  have flags : e.dynamic = h.dynamic := by
    have flag := entered.dynamic_perform found simple foundE
    have foundH' : ((q.enter parent i f.node).perform b i g.node).facts[i]? =
      some h := by rw [node]; exact foundH
    rw [flag, enteredLeader.dynamic_perform foundLeader (node ▸ simple) foundH', node,
      milder.isUnclear]
  have heads : ((p.enter parent i f.node).perform a i f.node).heads = p.heads := by
    rw [((Draws.start i (p.enter parent i f.node)).perform a f.node).heads, heads_enter]
  have before : UnderLeader full ((p.enter parent i f.node).perform a i f.node)
      (G.allow i h.definitions) ((q.enter parent i f.node).perform b i f.node) :=
    ⟨done.state, done.facts, heads ▸ behind.heads⟩
  have leftBacked : q.state.Backed b ((q.enter parent i f.node).perform b i f.node).facts := by
    have under : q.Under True (q.enter parent i f.node) := under_enter parent f.node fitsLeader
    exact leader.state.backed.mono (under.trans (under_perform b i f.node _))
  refine ⟨before.leave foundE foundH flags done.placed done.leader behind.state leftBacked f.node
    ends, ?_, ?_⟩
  · rw [breaks_leave, breaks_leave]
    rwa [breaks_enter] at breaks
  · rw [continues_leave, continues_leave]
    rwa [continues_enter] at continues

end Progress

/-! ### Along a plan -/

/-- A follower and a leader on their way to what is known in the end. The leader has enough passes
to settle. -/
structure Race (full : Prop) (a b : Env) (sa sb : Scope) (G : Progress) : Prop where
  milder : a.Milder full b
  known : a.Known sa.names
  knownLeader : b.Known sb.names
  allowed : 0 < a.passes
  enough : sb.names.size * (sb.bound + 2) < b.passes
  modest : G.Modest b

/-- Both have come to the same index in the same statement. -/
structure Level (a b : Env) (sa sb : Scope) (nodes : Nat → Option Node) (own : Option Nat)
    (lo : Nat) (asks : List Node) (p q : Progress) : Prop where
  follower : (Trait.sound a sa nodes).Ready own lo asks p
  leader : (Trait.sound b sb nodes).Ready own lo asks q

section Along

variable {full : Prop} {a b : Env} {sa sb : Scope} {nodes : Nat → Option Node}
  {G p q p' q' : Progress} {own : Option Nat} {lo mid hi i : Nat} {asks parts : List Node}

section

variable (level : Level a b sa sb nodes own lo asks p q)

include level

theorem Level.kept : p.Kept a sa nodes := level.follower.kept

theorem Level.keptLeader : q.Kept b sb nodes := level.leader.kept

theorem Level.part (part : parts ⊆ asks) :
    Level a b sa sb nodes own lo parts p q :=
  ⟨level.follower.less part, level.leader.less part⟩

theorem Level.next (first : Leads (.sound a sa nodes) a own lo hi parts p p')
    (second : Leads (.sound b sb nodes) b own lo hi parts q q') (le : lo ≤ hi) :
    Level a b sa sb nodes own hi asks p' q' :=
  ⟨level.follower.next first le, level.leader.next second le⟩

theorem Level.resume (sound : s.Sound a sa p.facts)
    (soundLeader : t.Sound b sb q.facts) : Level a b sa sb nodes own lo asks (p.resume s)
    (q.resume t) :=
  ⟨level.follower.resume sound, level.leader.resume soundLeader⟩

end

namespace Progress

theorem UnderLeader.resume (behind : p.UnderLeader full G q) (under : s.Under full t) :
    (p.resume s).UnderLeader full G (q.resume t) :=
  { behind with state := under }

theorem Follows.trans {r r' : Progress} (first : Follows full G p q p' q')
    (second : Follows full G p' q' r r') (breaks : q'.breaks ⊆ r'.breaks)
    (continues : q'.continues ⊆ r'.continues) : Follows full G p q r r' where
  behind := second.behind
  breaks := first.breaks.trans second.breaks breaks
  continues := first.continues.trans second.continues continues

end Progress

/-- What a pass from a head keeps, and the head taken from it as well, holds when the loop is
left. -/
theorem settle_keeps {holds : Progress → State → Prop} {body : Progress → Progress}
    (keeps : ∀ p s, holds p s → holds (body (p.resume s)) s ∧ holds (body (p.resume s))
      (State.join (s :: (body (p.resume s)).state :: (body (p.resume s)).continues))) (passes : Nat)
      {head : State}
    (held : holds p head) : holds (Progress.settle body passes head p).2
        (Progress.settle body passes head p).1 := by
  induction passes generalizing head p with
  | zero => exact held
  | succ passes ih =>
    obtain ⟨same, grown⟩ := keeps p head held
    rw [Progress.settle]
    split
    · exact same
    · exact ih grown

theorem under_loopStart (state : p.state.Under full t)
    (heads : ∀ s, p.heads[i]? = some s → s.Under full t) : (loopStart a i p).Under full t := by
  unfold loopStart
  split
  · cases found : p.heads[i]? with
    | none => exact state
    | some s =>
      intro name origin counts reaches
      rcases State.mem_reaching_merge.mp reaches with before | now
      · exact heads s found name origin counts before
      · exact state name origin counts now
  · exact state

/-- An analysis between two passes over a loop, with the head from which the next pass begins. -/
structure Poised (env : Env) (scope : Scope) (nodes : Nat → Option Node) (i lo : Nat)
    (asks : List Node) (r : Progress) (head : State) : Prop where
  ready : (Trait.sound env scope nodes).Ready (some i) lo asks r
  sound : head.Sound env scope r.facts

theorem Poised.start (known : env.Known scope.names)
    (ready : (Trait.sound env scope nodes).Ready (some i) lo asks p) :
    Poised env scope nodes i lo asks { p with breaks := [], continues := [] }
    (loopStart env i p) := by
  have begun : (loopStart env i p).Sound env scope p.facts :=
    (Trait.steady_sound nodes known).invariant.start ready
  exact ⟨ready.aside, begun⟩

theorem Poised.pass (known : env.Known scope.names) {body : Progress → Progress} (le : lo ≤ mid)
    (pass : ∀ q, (Trait.sound env scope nodes).Ready (some i) lo asks q →
      Leads (.sound env scope nodes) env (some i) lo mid asks q (body q)) {r : Progress}
    (poised : Poised env scope nodes i lo asks r s) :
      Poised env scope nodes i lo asks (body (r.resume s)) s ∧
        Poised env scope nodes i lo asks (body (r.resume s))
        (State.join (s :: (body (r.resume s)).state :: (body (r.resume s)).continues)) := by
  have led := (pass _ (poised.ready.resume poised.sound)).of_resume
  have sound := poised.sound.mono led.under
  have same : Poised env scope nodes i lo asks (body (r.resume s)) s :=
    ⟨poised.ready.again led le, sound⟩
  exact ⟨same, same.ready, (Trait.steady_sound nodes known).invariant.join sound
    (forall_mem_cons.mpr ⟨led.kept.state, led.kept.continues⟩)⟩

/-- A follower between two passes over a loop of which the leader has settled on a head, with its
last pass ending at `L`. -/
structure Circling (full : Prop) (env : Env) (scope : Scope) (nodes : Nat → Option Node)
    (G : Progress) (settled : State) (L : Progress) (i lo : Nat) (asks : List Node) (t : Progress)
    (head : State) : Prop extends Poised env scope nodes i lo asks t head where
  under : head.Under full settled
  facts : t.Under full G
  heads : ∀ (k : Nat) (s : State), t.heads[k]? = some s → ∃ u, G.heads[k]? = some u ∧ s.Under full u
  breaks : ∀ s ∈ t.breaks, ∃ u ∈ L.breaks, s.Under full u
  continues : ∀ s ∈ t.continues, s.Under full settled

/-- Every pass of the follower stays behind the last pass of the leader, from whatever state under
that on which the leader settles it begins. -/
theorem follows_loop (race : Race full a b sa sb G) {bodyA bodyB orelseA orelseB : Progress →
    Progress} (before : i < lo) (le : lo ≤ mid)
    (pass : ∀ p, (Trait.sound a sa nodes).Ready (some i) lo asks p →
      Leads (.sound a sa nodes) a (some i) lo mid asks p (bodyA p))
    (passLeader : ∀ q, (Trait.sound b sb nodes).Ready (some i) lo asks q →
      Leads (.sound b sb nodes) b (some i) lo mid asks q (bodyB q))
    (lastLeader : ∀ q, (Trait.sound b sb nodes).Ready (some i) mid [] q →
      Leads (.sound b sb nodes) b (some i) mid hi [] q (orelseB q))
    (headsLast : ∀ q k, k < mid → (orelseB q).heads[k]? = q.heads[k]?)
    (both : ∀ p q, Level a b sa sb nodes (some i) lo asks p q → p.UnderLeader full G q →
      (bodyB q).Under full G → (∀ k, lo ≤ k → k < mid → (bodyB q).heads[k]? = G.heads[k]?) →
      Progress.Follows full G p q (bodyA p) (bodyB q))
    (bothLast : ∀ p q, Level a b sa sb nodes (some i) mid [] p q → p.UnderLeader full G q →
      (orelseB q).Under full G → (∀ k, mid ≤ k → k < hi → (orelseB q).heads[k]? = G.heads[k]?) →
      Progress.Follows full G p q (orelseA p) (orelseB q))
    (level : Level a b sa sb nodes (some i) lo asks p q) (behind : p.UnderLeader full G q)
    (ends : (q.loop b i bodyB orelseB).Under full G)
    (heads : ∀ k, i ≤ k → k < hi → (q.loop b i bodyB orelseB).heads[k]? = G.heads[k]?)
      (most : mid ≤ hi) :
    Progress.Follows full G p q (p.loop a i bodyA orelseA) (q.loop b i bodyB orelseB) := by
  -- The leader settles on a head, and its last pass begins there.
  have steady := Trait.steady_sound nodes race.known
  have steadyLeader := Trait.steady_sound nodes race.knownLeader
  have start := Poised.start race.knownLeader level.leader
  have settled := settled_settle (fun r s poised => poised.sound.within)
    (fun r s poised => (poised.pass race.knownLeader le passLeader).2) start
    (Nat.lt_of_lt_of_le race.enough (Nat.le_add_left _ _))
  obtain ⟨sound, led⟩ := steadyLeader.invariant.settles le passLeader
    (Nat.zero_lt_of_lt race.enough) start.sound start.ready (forall_mem_nil _)
  generalize found : Progress.settle bodyB b.passes (loopStart b i q)
      { q with breaks := [], continues := [] } =
    s at settled sound led
  obtain ⟨H, L⟩ := s
  dsimp only at settled sound led
  obtain ⟨r, poised, last⟩ := settled.pass
  rw [loop_eq i bodyB orelseB found] at ends heads ⊢
  have restored := (level.leader.less (nil_subset _)).next
    (steadyLeader.restores level.leader.kept led i sound) le
  have ended := lastLeader (settledAt q i H L) restored
  have known : L.Under full G := Progress.Under.trans (q := orelseB (settledAt q i H L))
    ended.under.of_full ends
  have kept : ∀ k, k < mid → (settledAt q i H L).heads[k]? =
      ((orelseB (settledAt q i H L)).heads[k]?) :=
    fun k below => (headsLast _ k below).symm
  have head : G.heads[i]? = some H := by
    rw [← heads i (Nat.le_refl i) (by omega)]
    refine (kept i (by omega)).symm.trans ?_
    rw [settledAt, ExtTreeMap.getElem?_insert_self]
  have inner : ∀ k, lo ≤ k → k < mid → L.heads[k]? = G.heads[k]? := by
    intro k above below
    rw [← heads k (by omega) (by omega)]
    refine Eq.trans ?_ (kept k below)
    rw [settledAt, ExtTreeMap.getElem?_insert, if_neg]
    rw [Std.LawfulEqOrd.compare_eq_iff_eq]
    omega
  -- The follower goes round under that head.
  have rounds : ∀ t s, Circling full a sa nodes G H L i lo asks t s →
      Circling full a sa nodes G H L i lo asks (bodyA (t.resume s)) s ∧
        Circling full a sa nodes G H L i lo asks (bodyA (t.resume s))
          (State.join (s :: (bodyA (t.resume s)).state :: (bodyA (t.resume s)).continues)) := by
    intro t s circling
    obtain ⟨same, grown⟩ := circling.toPoised.pass race.known le pass
    have next : Level a b sa sb nodes (some i) lo asks (t.resume s) (r.resume H) :=
      ⟨circling.ready.resume circling.sound, poised.ready.resume poised.sound⟩
    have follows := both _ _ next ⟨circling.under, circling.facts, circling.heads⟩ (last ▸ known)
      (last ▸ inner)
    rw [← last] at follows
    have breaks : ∀ u ∈ (bodyA (t.resume s)).breaks, ∃ v ∈ L.breaks, u.Under full v :=
      fun u member => (follows.breaks u member).elim (circling.breaks u) id
    have continues : ∀ u ∈ (bodyA (t.resume s)).continues, u.Under full H := by
      intro u member
      rcases follows.continues u member with old | ⟨v, among, under⟩
      · exact circling.continues u old
      · exact under.trans (State.under_of_below (settled.again v among))
    have merged := State.under_of_join (forall_mem_cons.mpr ⟨circling.under, forall_mem_cons.mpr
      ⟨follows.behind.state.trans (State.under_of_below settled.back), continues⟩⟩)
    exact ⟨⟨same, circling.under, follows.behind.facts, follows.behind.heads, breaks, continues⟩,
      ⟨grown, merged, follows.behind.facts, follows.behind.heads, breaks, continues⟩⟩
  have startA := Poised.start race.known level.follower
  have begun : (loopStart a i p).Under full H :=
    under_loopStart (behind.state.trans
      (State.under_of_below ((below_loopStart b i q).trans settled.above))) fun s kept => by
        obtain ⟨t, foundT, under⟩ := behind.heads i s kept
        exact Option.some.inj (foundT.symm.trans head) ▸ under
  have circling := settle_keeps rounds a.passes (p := { p with breaks := [], continues := [] })
    ⟨startA, begun, behind.facts, behind.heads, forall_mem_nil _, forall_mem_nil _⟩
  obtain ⟨_, ledA⟩ := steady.invariant.settles le pass race.allowed startA.sound startA.ready
    (forall_mem_nil _)
  generalize foundA : Progress.settle bodyA a.passes (loopStart a i p)
      { p with breaks := [], continues := [] } =
    s at circling ledA
  obtain ⟨h, T⟩ := s
  dsimp only at circling ledA
  rw [loop_eq i bodyA orelseA foundA]
  have atLast : Level a b sa sb nodes (some i) mid [] (settledAt p i h T) (settledAt q i H L) :=
    ⟨(level.follower.less (nil_subset _)).next
      (steady.restores level.follower.kept ledA i circling.sound) le, restored⟩
  have behindLast : (settledAt p i h T).UnderLeader full G (settledAt q i H L) := by
    refine ⟨circling.under, circling.facts, fun k s noted => ?_⟩
    rw [settledAt, ExtTreeMap.getElem?_insert] at noted
    split at noted
    · rename_i same
      rw [Std.LawfulEqOrd.compare_eq_iff_eq] at same
      subst same
      exact ⟨H, head, Option.some.inj noted ▸ circling.under⟩
    · exact circling.heads k s noted
  have follows := bothLast _ _ atLast behindLast ends fun k above below => heads k (by omega) below
  refine ⟨follows.behind.resume (State.under_join ?_), follows.breaks, follows.continues⟩
  refine forall_mem_cons.mpr ⟨⟨_, mem_cons_self .., follows.behind.state⟩, fun v member => ?_⟩
  obtain ⟨u, among, under⟩ := circling.breaks v member
  exact ⟨u, mem_cons_of_mem _ among, under⟩

/-- A statement that both visit. If it has no blocks it does the same for both. -/
structure Shared (a b : Env) (sa sb : Scope) (nodes : Nat → Option Node) (i : Nat) (n : Node) :
    Prop where
  stated : Stated sa nodes i n
  leader : Stated sb nodes i n
  same : n.kind.isCompound = false → flatActions a n = flatActions b n

/-- What both may do at the head of a compound statement. -/
def Fair (sa sb : Scope) (action : Action) : Prop :=
  action.Plain sa.names ∧ action.Plain sb.names

/-- A compound statement whose expressions have been evaluated is known to run unknown code exactly
if it does. -/
theorem Leads.dynamic_eq (kept : p.Kept env scope nodes)
    (leads : Leads (.sound env scope nodes) env (some i) lo hi asks p q) {g : StatementFacts}
    (found : p.facts[i]? = some f) (compound : f.node.kind.isCompound = true)
    (all : ∀ e, e ∈ asks ↔ e ∈ f.node.headParts) (foundG : q.facts[i]? = some g) :
    g.dynamic = f.node.isUnclear env.settings := by
  obtain ⟨_, foundG', same⟩ := leads.flags i rfl f found
  obtain rfl := Option.some.inj (foundG.symm.trans foundG')
  have unclear : f.node.isUnclear env.settings = asks.any (Node.runsUnknown env.settings) := by
    rw [Node.isUnclear, if_pos compound, Bool.eq_iff_iff, any_eq_true, any_eq_true]
    simp only [all]
  rw [same, ← unclear, Bool.or_eq_right_iff_imp]
  exact (kept.fitting found).dynamic

theorem Progress.under_leave (i : Nat) (compound : n.kind.isCompound = true) (entry : State)
    (p : Progress) : p.Under full (p.leave i n entry) := by
  unfold Progress.leave
  rw [compound, Bool.true_or]
  split
  · exact p.under_revise i fun f _ => (f.notes_useEverything p.facts entry).under
  · exact .refl p

/-- Both leave a compound statement. -/
theorem follows_compound (race : Race full a b sa sb G) (compound : n.kind.isCompound = true)
    (shared : Shared a b sa sb nodes i n) (parent : Option Nat)
    (level : Level a b sa sb nodes own i [] p q) (behind : p.UnderLeader full G q)
    {f g : Progress → Progress} (all : ∀ e, e ∈ asks ↔ e ∈ n.headParts)
      (leads : ∀ p, (Trait.sound a sa nodes).Ready (some i) (i + 1) asks p →
        Leads (.sound a sa nodes) a (some i) (i + 1) hi asks p (f p))
    (leadsLeader : ∀ q, (Trait.sound b sb nodes).Ready (some i) (i + 1) asks q →
      Leads (.sound b sb nodes) b (some i) (i + 1) hi asks q (g q))
    (ends : ((g (q.enter parent i n)).leave i n q.state).Under full G)
    (inner : Level a b sa sb nodes (some i) (i + 1) asks (p.enter parent i n) (q.enter parent i n) →
      (p.enter parent i n).UnderLeader full G (q.enter parent i n) →
      (g (q.enter parent i n)).Under full G → Progress.Follows full G (p.enter parent i n)
        (q.enter parent i n) (f (p.enter parent i n)) (g (q.enter parent i n))) :
    Progress.Follows full G p q ((f (p.enter parent i n)).leave i n p.state)
      ((g (q.enter parent i n)).leave i n q.state) := by
  have size := level.follower.size
  have sizeLeader := level.leader.size
  have entered := level.kept.enter parent shared.stated.here shared.stated.below size
  have enteredLeader := level.keptLeader.enter parent shared.leader.here shared.leader.below
    sizeLeader
  obtain ⟨e, found, _⟩ := Progress.facts_enter parent n size
  obtain ⟨h, foundLeader, _⟩ := Progress.facts_enter parent n sizeLeader
  obtain rfl : e.node = n := Option.some.inj
    ((entered.fitting found).node.symm.trans shared.stated.here)
  have node : h.node = e.node :=
    Option.some.inj ((enteredLeader.fitting foundLeader).node.symm.trans shared.stated.here)
  have inside : Level a b sa sb nodes (some i) (i + 1) asks (p.enter parent i e.node)
      (q.enter parent i e.node) := by
    refine ⟨⟨entered, le_size_enter parent e.node size, ?_⟩,
      ⟨enteredLeader, le_size_enter parent e.node sizeLeader, ?_⟩⟩
    · rintro _ ⟨⟩
      exact ⟨Nat.lt_succ_self i, e, found, compound, fun x => (all x).mp⟩
    · rintro _ ⟨⟩
      refine ⟨Nat.lt_succ_self i, h, foundLeader, ?_⟩
      rw [node]
      exact ⟨compound, fun x => (all x).mp⟩
  have led := leads _ inside.follower
  have ledLeader := leadsLeader _ inside.leader
  obtain ⟨e', foundE, _⟩ := led.under i e found
  obtain ⟨h', foundH, _⟩ := ledLeader.under i h foundLeader
  have flags : e'.dynamic = h'.dynamic := by
    rw [led.dynamic_eq entered found compound all foundE,
      ledLeader.dynamic_eq enteredLeader foundLeader (node ▸ compound) (node.symm ▸ all) foundH,
      node, race.milder.isUnclear]
  have finished : (g (q.enter parent i e.node)).Under full G :=
    (Progress.under_leave i compound q.state _).trans ends
  have begun : (q.enter parent i e.node).Under full G := ledLeader.under.of_full.trans finished
  have follows := inner inside (behind.enter parent shared.stated.here size sizeLeader
    enteredLeader.placed begun) finished
  have wide : (f (p.enter parent i e.node)).UnderLeader full (G.allow i h'.definitions)
      (g (q.enter parent i e.node)) :=
    ⟨follows.behind.state, follows.behind.facts.trans (G.under_allow i _), follows.behind.heads⟩
  have reached : q.Under True (q.enter parent i e.node) :=
    Progress.under_enter parent e.node sizeLeader
  have backed := level.keptLeader.state.backed.mono (reached.trans ledLeader.under)
  refine ⟨wide.leave foundE foundH flags (Progress.Kept.placed led.kept)
    (Progress.Kept.placed ledLeader.kept) behind.state backed e.node ends, ?_, ?_⟩
  · rw [Progress.breaks_leave, Progress.breaks_leave, ← breaks_enter parent i e.node p]
    exact follows.breaks
  · rw [Progress.continues_leave, Progress.continues_leave, ← continues_enter parent i e.node p]
    exact follows.continues

/-- Both do something at the head of a compound statement. -/
theorem follows_acts (race : Race full a b sa sb G)
    (level : Level a b sa sb nodes (some i) lo asks p q) (behind : p.UnderLeader full G q)
    (actions : List Action) (ends : (q.acts b i actions).Under full G) :
    Progress.Follows full G p q (p.acts a i actions) (q.acts b i actions) := by
  obtain ⟨_, h, found, compound, _⟩ := level.leader.holds i rfl
  obtain ⟨inside, _⟩ := Array.getElem?_eq_some_iff.mp found
  have abreast : Progress.Abreast full nodes G i p q :=
    ⟨behind.state, behind.facts, level.kept.placed, level.keptLeader.placed, inside⟩
  obtain ⟨done, breaks, continues⟩ := abreast.acts race.milder race.modest level.kept.settled
    level.keptLeader.settled level.keptLeader.state.backed (level.keptLeader.fitting found).node
    (outward_compound compound) actions ends
  refine ⟨⟨done.state, done.facts, ?_⟩, breaks, continues⟩
  rw [Progress.heads_acts]
  exact behind.heads

theorem Level.acts (race : Race full a b sa sb G) {actions : List Action}
    (fair : ∀ action ∈ actions, Fair sa sb action)
    (level : Level a b sa sb nodes (some i) lo asks p q)
    (part : actions.flatMap Action.parts ⊆ asks) :
    Level a b sa sb nodes (some i) lo asks (p.acts a i actions) (q.acts b i actions) := by
  have own := level.part part
  exact level.next
    ((Trait.steady_sound nodes race.known).invariant.acts
    (fun action member => (fair action member).1) own.follower)
    ((Trait.steady_sound nodes race.knownLeader).invariant.acts
      (fun action member => (fair action member).2) own.leader) (Nat.le_refl lo)

/-- Wherever a plan leads, the follower stays behind the leader. -/
theorem follows_run (race : Race full a b sa sb G) {s : Plan}
    (lies : s.Lies (fun _ => Shared a b sa sb nodes) (Fair sa sb) own lo hi)
    (level : Level a b sa sb nodes own lo s.asks p q) (behind : p.UnderLeader full G q)
    (ends : (s.run b q).Under full G) (heads : ∀ k, lo ≤ k → k < hi → (s.run b q).heads[k]? =
    G.heads[k]?) : Progress.Follows full G p q (s.run a p) (s.run b q) ∧
      ∀ t ∈ s.stops a p, ∃ u ∈ s.stops b q, t.Under full u := by
  have allowed : 0 < b.passes := Nat.zero_lt_of_lt race.enough
  have steady := (Trait.steady_sound nodes race.known).invariant
  have steadyLeader := (Trait.steady_sound nodes race.knownLeader).invariant
  -- What each of the two does by itself.
  have leads : ∀ {s : Plan} {own : Option Nat} {lo hi : Nat},
      s.Lies (fun _ => Shared a b sa sb nodes) (Fair sa sb) own lo hi →
      ∀ {p : Progress}, (Trait.sound a sa nodes).Ready own lo s.asks p →
      Leads (.sound a sa nodes) a own lo hi s.asks p (s.run a p) ∧
        ∀ t ∈ s.stops a p, t.Sound a sa (s.run a p).facts :=
    fun lies => steady.run race.allowed
      (lies.imp (fun _ _ _ shared => shared.stated) fun _ fair => fair.1)
  have leadsLeader : ∀ {s : Plan} {own : Option Nat} {lo hi : Nat},
      s.Lies (fun _ => Shared a b sa sb nodes) (Fair sa sb) own lo hi →
      ∀ {q : Progress}, (Trait.sound b sb nodes).Ready own lo s.asks q →
      Leads (.sound b sb nodes) b own lo hi s.asks q (s.run b q) ∧
        ∀ t ∈ s.stops b q, t.Sound b sb (s.run b q).facts :=
    fun lies => steadyLeader.run allowed
      (lies.imp (fun _ _ _ shared => shared.leader) fun _ fair => fair.2)
  induction lies generalizing p q with
  | skip =>
    simp only [Plan.run, Plan.stops]
    exact ⟨⟨behind, .refl _ _, .refl _ _⟩, forall_mem_nil _⟩
  | stop =>
    simp only [Plan.run, Plan.stops]
    refine ⟨⟨behind, .refl _ _, .refl _ _⟩,
      forall_mem_singleton.mpr ⟨_, mem_singleton_self _, behind.state⟩⟩
  | @acts i lo actions before fair =>
    simp only [Plan.run, Plan.stops] at ends ⊢
    exact ⟨follows_acts race level behind actions ends, forall_mem_nil _⟩
  | flat simple _ shared =>
    simp only [Plan.run, Plan.stops] at ends ⊢
    exact ⟨behind.flat race.milder race.modest level.follower.kept level.leader.kept _ simple
      shared.stated shared.leader (shared.same simple) level.follower.size level.leader.size ends,
      forall_mem_nil _⟩
  | @compound own parent i n inner compound shared _ parts lies ih =>
    simp only [Plan.run, Plan.stops] at ends heads ⊢
    refine ⟨follows_compound race compound shared parent level behind parts
      (fun p ready => (leads lies ready).1) (fun q ready => (leadsLeader lies ready).1) ends
      fun level behind ends => ?_, forall_mem_nil _⟩
    refine (ih level behind ends fun k above below => ?_).1
    rw [← heads k (Nat.le_of_succ_le above) below, Progress.heads_leave]
  | @cycle own parent i mid n before again body orelse compound shared _ fair parts noBody noElse
      first second ihBody ihElse =>
    simp only [Plan.run, Plan.stops] at ends heads ⊢
    have le := first.le
    have more := second.le
    obtain ⟨fairBefore, fairAgain⟩ := forall_mem_append.mp fair
    have own : ∀ {s : Plan} {lo hi : Nat}, s.Lies (fun _ => Shared a b sa sb nodes) (Fair sa sb)
        (some i) lo hi → s.asks = [] → ∀ q, (Trait.sound a sa nodes).Ready (some i) lo [] q →
          Leads (.sound a sa nodes) a (some i) lo hi [] q (s.run a q) :=
      fun lies => steady.quiet race.allowed
        (lies.imp (fun _ _ _ shared => shared.stated) fun _ fair => fair.1)
    have ownLeader : ∀ {s : Plan} {lo hi : Nat}, s.Lies (fun _ => Shared a b sa sb nodes)
        (Fair sa sb) (some i) lo hi → s.asks = [] → ∀ q, (Trait.sound b sb nodes).Ready
          (some i) lo [] q → Leads (.sound b sb nodes) b (some i) lo hi [] q (s.run b q) :=
      fun lies => steadyLeader.quiet allowed
        (lies.imp (fun _ _ _ shared => shared.leader) fun _ fair => fair.2)
    have pass := own first noBody
    have passLeader := ownLeader first noBody
    have lastLeader := ownLeader second noElse
    have passes := steady.pass (fun action member => (fairAgain action member).1) le pass
    have passesLeader := steadyLeader.pass (fun action member => (fairAgain action member).2) le
      passLeader
    refine ⟨follows_compound race compound shared parent level behind parts
      (fun p => steady.cycles race.allowed le more
        (fun action member => (fairBefore action member).1) passes (own second noElse))
      (fun q => steadyLeader.cycles allowed le more
        (fun action member => (fairBefore action member).2) passesLeader lastLeader) ends
        fun inside behind ends => ?_, forall_mem_nil _⟩
    rw [flatMap_append] at inside
    have atLoop := (inside.acts race fairBefore (subset_append_left _ _)).part
      (subset_append_right _ _)
    have looped : Leads (.sound b sb nodes) b (some i) (i + 1) (i + n.extent) _ _ _ :=
      steadyLeader.loops allowed le more passesLeader lastLeader atLoop.leader
    have fronted := follows_acts race inside behind before (looped.under.of_full.trans ends)
    refine fronted.trans (follows_loop race (Nat.lt_succ_self i) le passes passesLeader lastLeader
      (fun q k below => heads_run second b (Or.inl below) q) (fun p q level behind ends heads => ?_)
      (fun p q level behind ends heads => ?_) atLoop fronted.behind ends
      (fun k above below => ?_) more) looped.breaks looped.continues
    · have acted := (level.acts race fairAgain fun _ => id).part (nil_subset _)
      have led := passLeader _ acted.leader
      have begun := follows_acts race level behind again (led.under.of_full.trans ends)
      rw [← noBody] at acted
      exact begun.trans (ihBody acted begun.behind ends heads).1 led.breaks led.continues
    · rw [← noElse] at level
      exact (ihElse level behind ends heads).1
    · rw [← heads k above below, Progress.heads_leave]
  | seq first second ihFirst ihSecond =>
    simp only [Plan.run, Plan.stops, Plan.asks] at level ends heads ⊢
    have levelFirst := level.part (subset_append_left _ _)
    obtain ⟨led, _⟩ := leads first levelFirst.follower
    obtain ⟨ledLeader, _⟩ := leadsLeader first levelFirst.leader
    have levelSecond := (level.next led ledLeader first.le).part (subset_append_right _ _)
    obtain ⟨later, _⟩ := leadsLeader second levelSecond.leader
    obtain ⟨follows, stops⟩ := ihFirst levelFirst behind (later.under.of_full.trans ends)
        fun k above below => by
      rw [← heads k above (Nat.lt_of_lt_of_le below second.le), heads_run second b (Or.inl below)]
    obtain ⟨followsMore, stopsMore⟩ := ihSecond levelSecond follows.behind ends fun k above below =>
      heads k (Nat.le_trans first.le above) below
    refine ⟨follows.trans followsMore later.breaks later.continues,
      forall_mem_append.mpr ⟨fun t member => ?_, fun t member => ?_⟩⟩
    · obtain ⟨u, among, under⟩ := stops t member
      exact ⟨u, mem_append_left _ among, under⟩
    · obtain ⟨u, among, under⟩ := stopsMore t member
      exact ⟨u, mem_append_right _ among, under⟩
  | @protect _ _ _ _ _ bodyPlan rescuePlan _ first second third ihBody ihRescue ihAfter =>
    simp only [Plan.run, Plan.stops, Plan.asks] at level ends heads ⊢
    rw [append_assoc] at level
    have levelBody := level.part (subset_append_left _ _)
    obtain ⟨led, stopped⟩ := leads first levelBody.follower
    obtain ⟨ledLeader, stoppedLeader⟩ := leadsLeader first levelBody.leader
    have rest := (level.next led ledLeader first.le).part (subset_append_right _ _)
    have levelRescue := (rest.part (subset_append_left _ _)).resume
      (steady.join (level.kept.state.mono led.under) stopped)
      (steadyLeader.join (level.keptLeader.state.mono ledLeader.under) stoppedLeader)
    obtain ⟨rescued, _⟩ := leads second levelRescue.follower
    obtain ⟨rescuedLeader, _⟩ := leadsLeader second levelRescue.leader
    have levelAfter := ((rest.next rescued.of_resume rescuedLeader.of_resume second.le).part
      (subset_append_right _ _)).resume (led.kept.state.mono rescued.under)
      (ledLeader.kept.state.mono rescuedLeader.under)
    obtain ⟨later, _⟩ := leadsLeader third levelAfter.leader
    have afterRescue := later.of_resume.under.of_full.trans ends
    obtain ⟨body, stops⟩ := ihBody levelBody behind
      (rescuedLeader.of_resume.under.of_full.trans afterRescue) fun k above below => by
        rw [← heads k above (Nat.lt_of_lt_of_le below (Nat.le_trans second.le third.le))]
        refine ((heads_run third b (Or.inl (Nat.lt_of_lt_of_le below second.le)) _).trans ?_).symm
        exact heads_run second b (Or.inl below) _
    have raised := State.under_join (forall_mem_cons.mpr ⟨⟨_, mem_cons_self .., behind.state⟩,
      fun t member => (stops t member).imp fun u both => ⟨mem_cons_of_mem _ both.1, both.2⟩⟩)
    have rescue := (ihRescue levelRescue (body.behind.resume raised) afterRescue
        fun k above below => by
      rw [← heads k (Nat.le_trans first.le above) (Nat.lt_of_lt_of_le below third.le)]
      exact (heads_run third b (Or.inl below)
        ((rescuePlan.run b _).resume (bodyPlan.run b q).state)).symm).1
    have after := (ihAfter levelAfter (rescue.behind.resume body.behind.state) ends
        fun k above below =>
      heads k (Nat.le_trans (Nat.le_trans first.le second.le) above) below).1
    refine ⟨⟨after.behind.resume (after.behind.state.merge rescue.behind.state), ?_, ?_⟩, stops⟩
    · exact (body.breaks.trans rescue.breaks rescuedLeader.breaks).trans after.breaks later.breaks
    · exact (body.continues.trans rescue.continues rescuedLeader.continues).trans after.continues
        later.continues

end Along

end Lineage.Flow
