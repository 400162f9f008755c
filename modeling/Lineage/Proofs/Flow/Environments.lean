import Lineage.Proofs.Flow.Leader
import Lineage.Proofs.Flow.Layout

/-!
What a statement does does not depend on what calls are known to do. It could only do so through the
bodies of functions and classes, of which the statements around see the names that they read from
outside and those that they bind. Two analyses of a body are each behind the other as far as these
names go.
-/

namespace Lineage

open List Std

variable {code : List Node} {n : Node} {a b : Result} {name : String} {params : List String}

theorem Node.Everywhere.imp {P Q : Node → Prop} (holds : n.Everywhere P) (weaker : ∀ m, P m → Q m) :
    n.Everywhere Q := by
  induction holds with
  | intro own _ ih => exact .intro (weaker _ own) ih

namespace Flow

/-! ### What compound statements do by themselves -/

/-- Compound statements evaluate and bind with names that stand in them. -/
theorem plain_headActions {names : NameSet} (named : NamedIn names n) : ∀ a ∈ n.headActions,
    a.Plain names := by
  intro a member
  have binds := binds_headActions n a member
  cases a with
  | evaluate es => exact fun e part => named.below (headParts_subset n
      (mem_flatMap.mpr ⟨_, member, part⟩))
  | define d => exact named d.name binds
  | _ => exact binds.elim

/-! ### Bodies -/

/-- The scope of a block with parameters. -/
def Scope.ofBlock (writes : GlobalWrites) (params : List String) (code : List Node) : Scope :=
  ⟨vocabulary writes params code, ExtTreeSet.ofList params, blockExtent code⟩

theorem reaching_parameterState (params : List String) (name : String) :
    (parameterState params).reaching name = if name ∈ params then {Origin.parameter}
    else State.untouched := by
  have each : ∀ (params : List String) (s : State), State.reaching
      (params.foldl (fun s name => s.insert name {Origin.parameter}) s) name =
        if name ∈ params then {Origin.parameter} else s.reaching name := by
    intro params
    induction params with
    | nil => intro s; simp
    | cons first rest ih =>
      intro s
      rw [foldl_cons, ih, State.reaching_insert]
      by_cases later : name ∈ rest
      · simp [later]
      · by_cases same : first = name
        · simp [same, later]
        · simp [same, later, Ne.symm same]
  rw [parameterState, each, State.reaching_empty]

theorem mem_parameterState : name ∈ parameterState params → name ∈ params := by
  have each : ∀ (params : List String) (s : State),
      name ∈ params.foldl (fun s name => s.insert name {Origin.parameter}) s → name ∈ params ∨
      name ∈ s := by
    intro params
    induction params with
    | nil => exact fun s held => Or.inr held
    | cons first rest ih =>
      intro s held
      rcases ih _ held with later | held
      · exact Or.inl (mem_cons_of_mem _ later)
      · rcases ExtTreeMap.mem_insert.mp held with same | held
        · exact Or.inl (mem_cons.mpr (Or.inl (Std.LawfulEqOrd.eq_of_compare same).symm))
        · exact Or.inr held
  exact fun held => (each params ∅ held).resolve_right ExtTreeMap.not_mem_empty

theorem origin_parameterState {origin : Origin}
    (reaches : origin ∈ (parameterState params).reaching name) :
    (name ∈ params ∧ origin = .parameter) ∨ origin = .entry := by
  rw [reaching_parameterState] at reaches
  split at reaches
  · rename_i own
    exact Or.inl ⟨own, Origins.mem_singleton.mp reaches⟩
  · exact Or.inr (State.mem_untouched.mp reaches)

theorem within_parameterState (writes : GlobalWrites) (params : List String) (code : List Node) :
    (parameterState params).Within (.ofBlock writes params code) := by
  refine ⟨fun name foreign => ?_, fun name k reaches => ?_, fun name reaches => ?_,
    fun name held => ?_⟩
  · rw [reaching_parameterState, if_neg]
    exact fun own => foreign (mem_vocabulary.mpr (Or.inr (Or.inl own)))
  · rcases origin_parameterState reaches with ⟨_, same⟩ | same <;> exact nomatch same
  · rcases origin_parameterState reaches with ⟨own, _⟩ | same
    · exact ExtTreeSet.mem_ofList.mpr (contains_iff_mem.mpr own)
    · exact nomatch same
  · refine ⟨.parameter, ?_, nofun⟩
    rw [reaching_parameterState, if_pos (mem_parameterState held)]
    exact Origins.mem_singleton.mpr rfl

theorem flatActions_forBlock (env : Env) (params : List String) (code : List Node) (n : Node) :
    flatActions (env.forBlock params code) n = flatActions env n := by
  cases n
  case decorated loc decorators definition => cases definition <;> rfl
  all_goals rfl

section Both

variable {full : Prop} {a b : Env}

/-- The statements of a block by their indices. -/
def statementAt (code : List Node) (i : Nat) : Option Node :=
  (Node.blockStatements code)[i]?

theorem stated_blockPlaces (writes : GlobalWrites) (params : List String) {place : Place}
    (among : place ∈ blockPlaces none 0 code) :
    Stated (.ofBlock writes params code) (statementAt code) place.index place.node := by
  obtain ⟨k, found⟩ := mem_iff_getElem?.mp among
  have here : statementAt code k = some place.node := by
    rw [statementAt, ← node_blockPlaces none 0 code, getElem?_map, found, Option.map_some]
  have below : k < blockExtent code := by
    rw [← length_blockPlaces none 0 code]
    exact (List.getElem?_eq_some_iff.mp found).1
  refine ⟨?_, ?_, ?_⟩
  · rwa [index_of_getElem? found]
  · obtain ⟨c, own, inside⟩ := Node.mem_nodes_of_blockStatements (mem_of_getElem? here)
    exact (namedIn_vocabulary writes params own).below inside
  · rwa [index_of_getElem? found]

/-- Whatever is steady in a block is kept all along its analysis. -/
theorem Trait.Steady.visitBlock {t : Trait} {env : Env} {writes : GlobalWrites}
    (steady : t.Steady env (Stated (.ofBlock writes params code) (statementAt code))
      (Action.Plain (vocabulary writes params code))) (allowed : 0 < env.passes)
    (plain : ∀ c ∈ code, c.ModuleFree) {s : State} (start : t.Held (.start s)) :
    Leads t env none 0 (blockExtent code) [] (.start s)
        (Flow.visitBlock env none 0 code (.start s)) := by
  have all : Goods (fun _ => Stated (.ofBlock writes params code) (statementAt code))
      (blockPlaces none 0 code) :=
    fun place among => stated_blockPlaces writes params among
  have lies : (blockPlan none 0 code).Lies _ (Action.Plain (vocabulary writes params code)) none 0
      (0 + blockExtent code) := standing_blockPlan
    (fun c member => standing (fun _ _ _ stated => plain_headActions stated.named) c
      (plain c member)) all
  have leads := (steady.invariant.run (p := .start s) allowed lies ⟨start, Nat.zero_le _, nofun⟩).1
  rwa [asks_blockPlan, ← visitBlock_eq_plan, Nat.zero_add] at leads

/-- Every statement of a block gets its facts. -/
theorem size_visitBlock (env : Env) (params : List String)
    (plain : ∀ c ∈ code, c.ModuleFree) :
    (visitBlock (env.forBlock params code) none 0 code
      (.start (parameterState params))).facts.size = blockExtent code := by
  have allowed : 0 < (env.forBlock params code).passes := passLimit_pos env.writes params code
  exact (filled_visitBlock allowed plain _).2

/-- Of two analyses of a block, the one that knows more of the callees stays behind the other. -/
theorem underLeader_visitBlock (milder : a.Milder full b) (params : List String)
    (plain : ∀ c ∈ code, c.ModuleFree)
    (same : ∀ m ∈ Node.blockStatements code, m.kind.isCompound = false →
      flatActions a m = flatActions b m) :
    let p := visitBlock (a.forBlock params code) none 0 code (.start (parameterState params))
    let q := visitBlock (b.forBlock params code) none 0 code (.start (parameterState params))
    p.UnderLeader full q q := by
  have shared : Goods (fun _ => Shared (a.forBlock params code) (b.forBlock params code)
      (.ofBlock a.writes params code) (.ofBlock b.writes params code) (statementAt code))
      (blockPlaces none 0 code) := by
    intro place among
    have stated := stated_blockPlaces a.writes params among
    refine ⟨stated, stated_blockPlaces b.writes params among, fun flat => ?_⟩
    rw [flatActions_forBlock, flatActions_forBlock]
    exact same _ (mem_of_getElem? stated.here) flat
  have lies : (blockPlan none 0 code).Lies
      (fun _ => Shared (a.forBlock params code) (b.forBlock params code)
      (.ofBlock a.writes params code) (.ofBlock b.writes params code) (statementAt code))
      (Fair (.ofBlock a.writes params code) (.ofBlock b.writes params code)) none 0
      (0 + blockExtent code) := by
    refine standing_blockPlan (fun c member => standing (fun _ _ _ shared action among => ?_) c
      (plain c member)) shared
    exact ⟨plain_headActions shared.stated.named action among,
      plain_headActions shared.leader.named action among⟩
  have known : ∀ env : Env, (env.forBlock params code).Known
      (Scope.ofBlock env.writes params code).names :=
    fun env => known_vocabulary env.writes params code rfl
  have unbound : ∀ name k, .statement k ∉ (parameterState params).reaching name := by
    intro name k reaches
    rcases origin_parameterState reaches with ⟨_, same⟩ | same <;> exact nomatch same
  have starts : ∀ env : Env, Progress.Kept (env.forBlock params code)
      (.ofBlock env.writes params code) (statementAt code) (.start (parameterState params)) :=
      fun env => .start (within_parameterState env.writes params code) unbound
  have level : Level (a.forBlock params code) (b.forBlock params code)
      (.ofBlock a.writes params code) (.ofBlock b.writes params code) (statementAt code) none 0
      (blockPlan none 0 code).asks (.start (parameterState params))
      (.start (parameterState params)) :=
    ⟨⟨starts a, Nat.zero_le _, nofun⟩, ⟨starts b, Nat.zero_le _, nofun⟩⟩
  have leads := (Trait.steady_sound (statementAt code) (known b)).visitBlock (Nat.succ_pos _) plain
    (starts b)
  rw [visitBlock_eq_plan] at leads
  have behind : (Progress.start (parameterState params)).UnderLeader full
      ((blockPlan none 0 code).run (b.forBlock params code) (.start (parameterState params)))
      (.start (parameterState params)) :=
    ⟨.refl _, fun k f found => by simp [Progress.start] at found,
      fun k s found => by simp [Progress.start] at found⟩
  have race : Race full (a.forBlock params code) (b.forBlock params code)
      (.ofBlock a.writes params code) (.ofBlock b.writes params code)
        ((blockPlan none 0 code).run (b.forBlock params code) (.start (parameterState params))) :=
    ⟨⟨milder.dynamicNames, milder.pure, milder.writes⟩, known a, known b,
      Nat.succ_pos _, Nat.lt_succ_self _, Progress.Kept.modest leads.kept⟩
  rw [visitBlock_eq_plan, visitBlock_eq_plan]
  exact (follows_run race lies level behind (.refl _) fun _ _ _ => rfl).1.behind

end Both

/-! ### What cannot depend on the callees -/

namespace Result

/-- What is seen of the statements of a body: where they stand and what they read from outside, at
once and in the bodies inside them. -/
def outline (body : Result) : List (Location × NameSet × NameSet) :=
  body.statements.toList.map fun f => (f.location, f.external, f.free)

theorem classUses_eq (body : Result) : body.classUses =
    body.outline.flatMap fun seen => seen.2.1.toList.map
    fun name => ⟨name, name, .direct, seen.1⟩ := by
  rw [outline, flatMap_map]
  rfl

theorem innerFree_eq (body : Result) :
    body.innerFree = body.outline.foldl (fun free seen => free ∪ seen.2.2) ∅ := by
  rw [outline, foldl_map]
  rfl

theorem freeNames_eq (body : Result) (locals : NameSet) : body.freeNames locals = body.outline.foldl
    (fun free seen => free ∪ seen.2.1 ∪ seen.2.2.filter fun name => !locals.contains name) ∅ := by
  rw [outline, foldl_map]
  rfl

/-- Both bodies look the same from outside. -/
structure Matches (a b : Result) : Prop where
  outline : a.outline = b.outline
  bound : ∀ name, name ∈ a.bound ↔ name ∈ b.bound

theorem Matches.writesOutside (same : a.Matches b) (declared : NameSet) :
    a.writesOutside declared = b.writesOutside declared := by
  ext name
  simp only [Result.writesOutside, ExtTreeSet.mem_ofList, contains_iff_mem, mem_filter, same.bound]

theorem Matches.locals (same : a.Matches b) (params : List String) (declared : NameSet) :
    a.locals params declared = b.locals params declared := by
  ext name
  simp only [Result.locals, ExtTreeSet.mem_ofList, contains_iff_mem, mem_append, mem_filter,
    same.bound]

theorem Matches.functionActions (same : a.Matches b) (loc : Location) (name : String)
    (decorators : List Node) (params : List (Param Node)) (returns : Option Node)
    (code : List Node) :
    Flow.functionActions loc name decorators params returns code a =
      Flow.functionActions loc name decorators params returns code b := by
  unfold Flow.functionActions
  rw [same.writesOutside, same.locals, freeNames_eq, freeNames_eq, same.outline]

theorem Matches.classActions (same : a.Matches b) (loc : Location) (name : String)
    (decorators bases : List Node) (keywords : List (Keyword Node)) :
    Flow.classActions loc name decorators bases keywords a = Flow.classActions loc name decorators
    bases keywords b := by
  unfold Flow.classActions
  rw [classUses_eq, classUses_eq, innerFree_eq, innerFree_eq, same.outline]

theorem mem_bound {body : Result} : name ∈ body.bound ↔
    ∃ f ∈ body.statements.toList, ∃ d ∈ f.definitions, d.kind.kills = true ∧ d.name = name := by
  simp only [bound, mem_flatMap, mem_map, mem_filter, and_assoc]

end Result

namespace Env

/-- Both environments have the same names for running unknown code; nothing else need be the
same. -/
def SameDynamicNames (a b : Env) : Prop :=
  a.settings.dynamicNames = b.settings.dynamicNames

theorem SameDynamicNames.milder {a b : Env} (akin : a.SameDynamicNames b) : a.Milder False b :=
  ⟨akin, False.elim, False.elim⟩

end Env

/-- Analyses that are each behind the other find the same of a block, seen from outside. -/
theorem matches_of_under {p q : Progress} (size : p.facts.size = q.facts.size)
    (behind : p.Under False q) (ahead : q.Under False p) : p.result.Matches q.result where
  outline := by
    refine ext_getElem? fun k => ?_
    simp only [Result.outline, Progress.result, getElem?_map, Array.getElem?_toList]
    cases found : p.facts[k]? with
    | none =>
      have outside := Array.getElem?_eq_none_iff.mp found
      rw [Array.getElem?_eq_none (size ▸ outside)]
    | some f =>
      obtain ⟨g, there, under⟩ := behind k f found
      obtain ⟨f', again, back⟩ := ahead k g there
      obtain rfl : f = f' := Option.some.inj (found.symm.trans again)
      have external : f.external = g.external :=
        ExtTreeSet.ext_mem fun name => ⟨under.external name, back.external name⟩
      have free : f.free = g.free := ExtTreeSet.ext_mem
        fun name => ⟨under.free name, back.free name⟩
      rw [there, Option.map_some, Option.map_some, StatementFacts.location, StatementFacts.location,
        under.node, external, free]
  bound name := by
    have each : ∀ {p q : Progress}, p.Under False q → name ∈ p.result.bound →
        name ∈ q.result.bound := by
      intro p q under member
      simp only [Result.mem_bound, Progress.result, Array.mem_toList_iff,
        Array.mem_iff_getElem?] at member ⊢
      obtain ⟨f, ⟨k, found⟩, d, defined, kills, same⟩ := member
      obtain ⟨g, there, under⟩ := under k f found
      exact ⟨g, ⟨k, there⟩, d, under.definitions d defined (Or.inr kills), kills, same⟩
    exact ⟨each behind, each ahead⟩

namespace Env.SameDynamicNames

variable {a b : Env}

theorem symm (akin : a.SameDynamicNames b) : b.SameDynamicNames a :=
  Eq.symm akin

/-- If the statements of a block do the same in both environments, the block looks the same from
outside. -/
theorem matches_visitBlock (akin : a.SameDynamicNames b) (params : List String)
    (plain : ∀ c ∈ code, c.ModuleFree)
    (same : ∀ m ∈ Node.blockStatements code, m.kind.isCompound = false →
    flatActions a m = flatActions b m) :
      (visitBlock (a.forBlock params code) none 0 code
        (.start (parameterState params))).result.Matches
        (visitBlock (b.forBlock params code) none 0 code
          (.start (parameterState params))).result := by
  refine matches_of_under ?_ (underLeader_visitBlock akin.milder params plain same).facts
    (underLeader_visitBlock akin.symm.milder params plain
      fun m member flat => (same m member flat).symm).facts
  rw [size_visitBlock a params plain, size_visitBlock b params plain]

/-- If the statements in the body of a definition do the same in both environments, so does the
definition. -/
theorem flatActions_of_bodies (akin : a.SameDynamicNames b) (plain : ∀ c ∈ n.bodies, c.ModuleFree)
    (same : ∀ c ∈ n.bodies, c.Throughout fun m => m.kind.isCompound = false →
    flatActions a m = flatActions b m) : flatActions a n = flatActions b n := by
  have block : ∀ params, (visitBlock (a.forBlock params n.bodies) none 0 n.bodies
      (.start (parameterState params))).result.Matches
      (visitBlock (b.forBlock params n.bodies) none 0 n.bodies
        (.start (parameterState params))).result := by
    refine fun params => akin.matches_visitBlock params plain fun m member flat => ?_
    rw [Node.blockStatements_eq_flatMap] at member
    obtain ⟨c, body, inside⟩ := mem_flatMap.mp member
    exact same c body m inside flat
  cases n
  case function => exact (block _).functionActions ..
  case classDef => exact (block []).classActions ..
  case decorated loc decorators definition =>
    cases definition
    case function => exact (block _).functionActions ..
    case classDef => exact (block []).classActions ..
    all_goals rfl
  all_goals rfl

/-- A statement without blocks does the same in both environments. -/
theorem flatActions_eq (akin : a.SameDynamicNames b) (plain : n.NoModules) :
    n.Everywhere fun m => flatActions a m = flatActions b m := by
  induction plain with
  | intro _ bodies ih =>
    refine .intro (akin.flatActions_of_bodies (fun c body => (bodies c body).throughout)
      fun c body => ?_) ih
    exact fun m inside _ => (ih c body).throughout m inside

end Env.SameDynamicNames

end Flow

end Lineage
