import Lineage.Proofs.Flow.Collect
import Lineage.Proofs.Tree.Scopes

/-!
What running a statement loads and what its expressions do, against what its analysis records. Every
name that is loaded is recorded as a use, apart from what stands in three places that the analysis
does not look at; and every effect of evaluating an expression is recorded, apart from those of the
defaults of a lambda.
-/

namespace Lineage

open List

namespace Node

/-- The expressions that running a statement evaluates, those in its blocks and bodies apart. Of a
target these are the objects and indices of the attributes and items in it. -/
def loadedParts : Node → List Node
  | .assign _ targets value op hint _ =>
    value.toList ++ hint.toList ++ (if op.isSome then targets else []) ++
      targets.flatMap targetParts
  | .delete _ targets => targets.flatMap targetParts
  | .assertion _ condition message => condition :: message.toList
  | .returning _ value => value.toList
  | .raising _ exception cause => exception.toList ++ cause.toList
  | .expression _ value => [value]
  | .branch _ _ test _ elifs _ => test :: elifs.map Elif.test
  | .whileLoop _ _ test _ _ => [test]
  | .forLoop _ _ target iter _ _ _ => iter :: target.targetParts
  | .attempt _ _ _ handlers _ _ => handlers.flatMap fun h => h.type.toList
  | .context _ _ items _ _ => items.flatMap fun item => item.context :: item.target.toList.flatMap
      targetParts
  | .function _ _ _ params returns _ _ => params.flatMap Param.nodes ++ returns.toList
  | .classDef _ _ _ bases keywords _ => bases ++ keywords.map Keyword.value
  | .decorated _ decorators (.function _ _ _ params returns _ _) =>
    decoratorParts decorators ++ (params.flatMap Param.nodes ++ returns.toList)
  | .decorated _ decorators (.classDef _ _ _ bases keywords _) =>
    decoratorParts decorators ++ (bases ++ keywords.map Keyword.value)
  | _ => []

/-- The expressions of a statement that its analysis does not look at: those of the target of a bare
annotation, and those beside the names of a deletion. -/
def strayParts : Node → List Node
  | .assign _ targets none _ _ _ => targets.flatMap targetParts
  | .delete _ targets => (targets.filter fun t => !t.targetNames.isEmpty).flatMap targetParts
  | _ => []

/-- Whether assigning to a node assigns to its children. -/
def unpacks : Node → Bool
  | .tuple .. | .list .. | .starred .. => true
  | _ => false

/-- Whether a name at the end of a way is loaded from the scope around: it is neither assigned to
nor the own name of a lambda or comprehension on the way. `target` tells that what stands at the
beginning is assigned to. -/
def Loads (id : String) : (target : Bool) → List (Node × Role) → Prop
  | target, [] => target = false
  | true, (n, _) :: rest => Loads id n.unpacks rest
  | false, (_, .around) :: rest => Loads id false rest
  | false, (n, .inside) :: rest => id ∉ n.localNames ∧ Loads id false rest
  | false, (n, .bound) :: rest => id ∉ n.localNames ∧ Loads id true rest

theorem free_of_loads {id : String} {steps : List (Node × Role)} (loads : Loads id false steps)
    (unbound : ∀ step ∈ steps, step.2 ≠ .bound) :
    ∀ step ∈ steps, step.2 ≠ .bound ∧ (step.2 = .inside → id ∉ step.1.localNames) := by
  induction steps with
  | nil => exact fun _ none => nomatch none
  | cons step rest ih =>
    obtain ⟨n, role⟩ := step
    obtain ⟨here, others⟩ := forall_mem_cons.mp unbound
    cases role with
    | around => exact forall_mem_cons.mpr ⟨⟨here, nofun⟩, ih loads others⟩
    | inside => exact forall_mem_cons.mpr ⟨⟨here, fun _ => loads.1⟩, ih loads.2 others⟩
    | bound => exact absurd rfl here

theorem mem_paramReads {params : List (Param Node)} {e : Node} :
    e ∈ params.flatMap Flow.paramReads ↔ e ∈ params.flatMap Param.nodes :=
  (paramReads_perm params).mem_iff

/-- What running a statement evaluates its analysis looks at, apart from stray parts. -/
theorem loadedParts_subset (n : Node) : n.loadedParts ⊆ n.ownParts ++ n.strayParts := by
  intro e member
  cases n
  case assign loc targets value op hint isExpression =>
    rcases mem_append.mp member with first | target
    · exact mem_append_left _ (mem_append_left _ first)
    · cases value with
      | none => exact mem_append_right _ target
      | some value =>
        refine mem_append_left _ (mem_append_right _ ?_)
        rwa [← targetPartsList_eq_flatMap] at target
  case delete loc targets =>
    obtain ⟨t, among, member⟩ := mem_flatMap.mp member
    by_cases names : t.targetNames.isEmpty = true
    · refine mem_append_left _ (mem_flatMap.mpr ⟨t, among, ?_⟩)
      rwa [if_pos names]
    · exact mem_append_right _ (mem_flatMap.mpr
        ⟨t, mem_filter.mpr ⟨among, by simp [names]⟩, member⟩)
  case context loc header items code isAsync =>
    obtain ⟨item, among, member⟩ := mem_flatMap.mp member
    refine mem_append_left _ (mem_flatMap.mpr ⟨item, among, ?_⟩)
    rwa [targetPartsList_eq_flatMap]
  case function =>
    exact mem_append_left _ ((mem_append.mp member).elim
      (fun param => mem_append_left _ (mem_paramReads.mpr param)) (mem_append_right _))
  case decorated loc decorators definition =>
    cases definition
    case function =>
      refine mem_append_left _ ((mem_append.mp member).elim (mem_append_left _) fun member => ?_)
      exact mem_append_right _ ((mem_append.mp member).elim
        (fun param => mem_append_left _ (mem_paramReads.mpr param)) (mem_append_right _))
    all_goals exact mem_append_left _ member
  all_goals exact mem_append_left _ member

end Node

namespace Flow

open Node

/-- Evaluating an expression uses every name that is read in it. -/
theorem mem_readUses {env : Env} {es : List Node} {e : Node} (part : e ∈ es) {o : Occurrence}
    (read : o ∈ e.freeNames) : ∃ u ∈ readUses env es, u.name = o.id ∧ u.location = o.loc := by
  rw [← e.steady env.isPure .bare] at read
  obtain ⟨r, among, rfl⟩ := mem_map.mp read
  exact ⟨Progress.useOfRead r, mem_flatMap.mpr ⟨e, part, mem_map_of_mem among⟩, rfl, rfl⟩

/-- A statement asks for what its expressions use. -/
theorem readUses_subset (env : Env) (n : Node) : readUses env n.ownParts ⊆ ownUses env n := by
  rw [ownUses]
  split
  · exact List.Subset.refl _
  · rename_i simple
    rw [ownParts_flat (Bool.eq_false_iff.mpr simple), ← parts_flatActions env n]
    intro u member
    obtain ⟨e, part, member⟩ := mem_flatMap.mp member
    obtain ⟨action, among, part⟩ := mem_flatMap.mp part
    refine mem_flatMap.mpr ⟨action, among, ?_⟩
    cases action with
    | evaluate es => exact mem_flatMap.mpr ⟨e, part, member⟩
    | _ => exact absurd part not_mem_nil

/-- Every name that running a statement loads is recorded as a use of the statement, unless it
stands in a part of it that the analysis does not look at, or in a target of a comprehension. -/
theorem loads_recorded (env : Env) (params : List String) {code : List Node}
    (faultless : blockFault code = none) {f : StatementFacts}
    (recorded : f ∈ (blockResult env params code).statements) {e : Node}
    (part : e ∈ f.node.loadedParts) {t : Trail} (place : t ∈ e.trails) {loc : Location}
    {id : String} (named : t.node = .name loc id) (loads : Loads id false t.steps)
    (proper : id ≠ allNames) : e ∈ f.node.strayParts ∨ (∃ step ∈ t.steps, step.2 = .bound) ∨
    ∃ u ∈ f.uses, u.name = id ∧ u.location = loc := by
  by_cases stray : e ∈ f.node.strayParts
  · exact Or.inl stray
  by_cases bound : ∃ step ∈ t.steps, step.2 = .bound
  · exact Or.inr (Or.inl bound)
  have own : e ∈ f.node.ownParts := (mem_append.mp (loadedParts_subset f.node part)).resolve_right
    stray
  have free : t.Free id := free_of_loads loads fun step member same => bound ⟨step, member, same⟩
  obtain ⟨u, used, rfl, rfl⟩ := mem_readUses own (mem_freeNames place named free)
  have told := recorded_blockResult env params (plain_of_blockFault faultless) recorded
  refine Or.inr (Or.inr ⟨u, (told.uses u).mpr (Or.inl ⟨u, readUses_subset env f.node used, ?_⟩),
    rfl, rfl⟩)
  rw [Use.recorded, if_neg proper]

/-- `for a, d[k + j] in xs:` with `pass`. -/
def unpackedItem : List Node :=
  [.forLoop ⟨1, 0, 2, 8⟩ default
    (.tuple default [.name default "a", .subscript default (.name default "d")
      (.binary default "+" (.name default "k") (.name ⟨1, 13, 1, 14⟩ "j"))])
    (.name default "xs") [.pass ⟨2, 4, 2, 8⟩] none false]

/-- The loop uses the names in the index of an item that it assigns to. -/
theorem loads_recorded_unpacked : blockFault unpackedItem = none ∧
    ∃ f ∈ (blockResult ⟨⟨∅, ∅⟩, ∅, 0, true⟩ [] unpackedItem).statements,
      ∃ e ∈ f.node.loadedParts, ∃ t ∈ e.trails, t.node = .name ⟨1, 13, 1, 14⟩ "j" ∧
      Loads "j" false t.steps ∧ ∃ u ∈ f.uses, u.name = "j" ∧ u.location = ⟨1, 13, 1, 14⟩ := by
  obtain ⟨f, found, node⟩ : ∃ f, (blockResult ⟨⟨∅, ∅⟩, ∅, 0, true⟩ [] unpackedItem).statements[0]? =
      some f ∧ some f.node = unpackedItem[0]? := ⟨_, rfl, rfl⟩
  have recorded := Array.mem_of_getElem? found
  obtain ⟨e, part, stray, t, place, named, loads, unbound⟩ : ∃ e ∈ f.node.loadedParts,
      e ∉ f.node.strayParts ∧ ∃ t ∈ e.trails, t.node = .name ⟨1, 13, 1, 14⟩ "j" ∧
      Loads "j" false t.steps ∧ ¬ ∃ step ∈ t.steps, step.2 = .bound := by
    rw [Option.some.inj node]
    refine ⟨_, mem_of_getElem? (i := 2) rfl, not_mem_nil, _, mem_of_getElem? (i := 2) rfl, rfl,
      rfl, ?_⟩
    rintro ⟨step, member, bound⟩
    obtain rfl := List.mem_singleton.mp member
    exact nomatch bound
  refine ⟨rfl, f, recorded, e, part, t, place, named, loads, ?_⟩
  exact ((loads_recorded _ [] rfl recorded part place named loads (by decide)).resolve_left
    stray).resolve_left unbound

/-- `del (a, d[k])`, `d[k]: t`, then `[0 for d[k] in xs]`. -/
def unseenItems : Node :=
  .module default
    [.delete ⟨1, 0, 1, 13⟩ [.tuple default
      [.name default "a", .subscript default (.name ⟨1, 8, 1, 9⟩ "d") (.name default "k")]],
        .assign ⟨2, 0, 2, 7⟩ [.subscript default (.name ⟨2, 0, 2, 1⟩ "d") (.name default "k")]
        none none (some (.name default "t")) false,
      .expression ⟨3, 0, 3, 18⟩ (.comprehension default "list" (.literal default (.int 0)) none
        [⟨.subscript default (.name ⟨3, 7, 3, 8⟩ "d") (.name default "k"), .name default "xs", [],
          false⟩])]

/-- A statement loads a name and is not known to use it. -/
def StatementFacts.Misses (f : StatementFacts) (id : String) (loc : Location) : Prop :=
  (∃ e ∈ f.node.loadedParts, ∃ t ∈ e.trails, t.node = .name loc id ∧ Loads id false t.steps) ∧
    ∀ u ∈ f.uses, u.name ≠ id

/-- The object of an item is missed beside the names of a deletion, in a bare annotation, and in a
target of a comprehension. -/
theorem loads_missed : ∃ r f g h, analyze ⟨∅, ∅⟩ ∅ unseenItems = .ok r ∧
    r.statements.toList = [f, g, h] ∧ f.Misses "d" ⟨1, 8, 1, 9⟩ ∧ g.Misses "d" ⟨2, 0, 2, 1⟩ ∧
    h.Misses "d" ⟨3, 7, 3, 8⟩ := by
  refine ⟨_, _, _, _, rfl, rfl, ⟨⟨_, mem_of_getElem? (i := 0) rfl, _, mem_of_getElem? (i := 0) rfl,
    rfl, rfl⟩, ?_⟩, ⟨⟨_, mem_of_getElem? (i := 1) rfl, _, mem_of_getElem? (i := 0) rfl, rfl, rfl⟩,
    ?_⟩, ⟨⟨_, mem_of_getElem? (i := 0) rfl, _, mem_of_getElem? (i := 3) rfl, rfl, ?_⟩, ?_⟩⟩
  · decide
  · decide
  · exact ⟨by decide, rfl⟩
  · decide

/-- Whatever is evaluated with an expression of a statement that runs no unknown code has its
effects recorded, unless it stands in a default of a lambda. -/
theorem effects_recorded (env : Env) (params : List String) {code : List Node}
    (faultless : blockFault code = none) {f : StatementFacts}
    (recorded : f ∈ (blockResult env params code).statements) (clear : f.dynamic = false) {e : Node}
    (part : e ∈ f.node.ownParts) {t : Trail} (place : t ∈ e.trails)
    (now : ∀ step ∈ t.steps, ¬ (step.1.isLambda = true ∧ step.2 = .inside)) :
    (∃ step ∈ t.steps, step.1.isLambda = true ∧ step.2 ≠ .inside) ∨ t.node.effects env.isPure ⊆
    f.definitions := by
  by_cases default : ∃ step ∈ t.steps, step.1.isLambda = true
  · obtain ⟨step, member, lambda⟩ := default
    exact Or.inl ⟨step, member, lambda, fun inside => now step member ⟨lambda, inside⟩⟩
  have evaluated : t.node ∈ e.evaluated :=
    mem_evaluated place fun step member => Bool.eq_false_iff.mpr fun lambda => default
      ⟨step, member, lambda⟩
  have told := recorded_blockResult env params (plain_of_blockFault faultless) recorded
  refine Or.inr fun d effect => told.effects clear ?_
  exact mem_flatMap.mpr ⟨e, part, mem_flatMap.mpr ⟨t.node, evaluated, effect⟩⟩

/-- `x = [g(a) for b in (y := c)]`. -/
def bindingInside : List Node :=
  [.assign ⟨1, 0, 1, 30⟩ [.name default "x"] (some (.comprehension default "list"
    (.call ⟨1, 5, 1, 9⟩ (.name default "g") [.name default "a"] []) none
    [⟨.name default "b", .assign default [.name ⟨1, 20, 1, 21⟩ "y"] (some (.name default "c"))
    none none true, [], false⟩])) none none false]

/-- What is assigned and what is changed in a comprehension is defined by the statement around
it. -/
theorem effects_recorded_inside : blockFault bindingInside = none ∧
    ∃ f ∈ (blockResult ⟨⟨∅, ∅⟩, ∅, 0, true⟩ [] bindingInside).statements, f.dynamic = false ∧
      ⟨"a", "a", .mutation, ⟨1, 5, 1, 9⟩⟩ ∈ f.definitions ∧
      ⟨"y", "y", .assignment, ⟨1, 20, 1, 21⟩⟩ ∈ f.definitions := by
  obtain ⟨f, found, node, clear⟩ : ∃ f,
      (blockResult ⟨⟨∅, ∅⟩, ∅, 0, true⟩ [] bindingInside).statements[0]? = some f ∧
      some f.node = bindingInside[0]? ∧ f.dynamic = false := ⟨_, rfl, rfl, rfl⟩
  have recorded := Array.mem_of_getElem? found
  obtain ⟨e, part, plain, changed, bound⟩ : ∃ e ∈ f.node.ownParts,
      (∀ t ∈ e.trails, ∀ step ∈ t.steps, step.1.isLambda = false) ∧
      (∃ t ∈ e.trails, ⟨"a", "a", .mutation, ⟨1, 5, 1, 9⟩⟩ ∈ t.node.effects
      (Env.isPure ⟨⟨∅, ∅⟩, ∅, 0, true⟩)) ∧ ∃ t ∈ e.trails, ⟨"y", "y", .assignment, ⟨1, 20, 1, 21⟩⟩ ∈
      t.node.effects (Env.isPure ⟨⟨∅, ∅⟩, ∅, 0, true⟩) := by
    rw [Option.some.inj node]
    exact ⟨_, mem_of_getElem? (i := 0) rfl, by decide, by decide, by decide⟩
  have known : ∀ t ∈ e.trails, t.node.effects (Env.isPure ⟨⟨∅, ∅⟩, ∅, 0, true⟩) ⊆
      f.definitions := by
    intro t place
    refine (effects_recorded _ [] rfl recorded clear part place ?_).resolve_left ?_
    · exact fun step member lambda => Bool.eq_false_iff.mp (plain t place step member) lambda.1
    · rintro ⟨step, among, lambda, -⟩
      exact Bool.eq_false_iff.mp (plain t place step among) lambda
  obtain ⟨t, place, changed⟩ := changed
  obtain ⟨s, there, bound⟩ := bound
  exact ⟨rfl, f, recorded, clear, known t place changed, known s there bound⟩

/-- `f = lambda x=(y := 1): x`, then `f = lambda x=g(a): x`. -/
def defaultEffects : Node :=
  .module default
    [.assign ⟨1, 0, 1, 24⟩ [.name default "f"] (some (.lambda default
        [⟨"x", some (.assign default [.name ⟨1, 14, 1, 15⟩ "y"] (some (.literal default (.int 1)))
        none none true), none, default⟩] (.name default "x"))) none none false,
      .assign ⟨2, 0, 2, 20⟩ [.name default "f"] (some (.lambda default
        [⟨"x", some (.call ⟨2, 13, 2, 17⟩ (.name default "g") [.name default "a"] []), none,
        default⟩] (.name default "x"))) none none false]

/-- Evaluating a statement has an effect that is not among its definitions. -/
def StatementFacts.Forgets (f : StatementFacts) (pure : Node → Bool) (d : Definition) : Prop :=
  f.dynamic = false ∧ d ∉ f.definitions ∧ ∃ e ∈ f.node.ownParts, ∃ t ∈ e.trails,
    (∀ step ∈ t.steps, ¬ (step.1.isLambda = true ∧ step.2 = .inside)) ∧ d ∈ t.node.effects pure

/-- What the defaults of a lambda assign and change is forgotten, though they are evaluated with
it. -/
theorem effects_missed : ∃ r f g, analyze ⟨∅, ∅⟩ ∅ defaultEffects = .ok r ∧
    r.statements.toList = [f, g] ∧ f.Forgets (Env.isPure ⟨⟨∅, ∅⟩, ∅, 0, true⟩)
    ⟨"y", "y", .assignment, ⟨1, 14, 1, 15⟩⟩ ∧ g.Forgets (Env.isPure ⟨⟨∅, ∅⟩, ∅, 0, true⟩)
    ⟨"a", "a", .mutation, ⟨2, 13, 2, 17⟩⟩ := by
  refine ⟨_, _, _, rfl, rfl, ⟨rfl, by decide, _, mem_of_getElem? (i := 0) rfl, _,
    mem_of_getElem? (i := 1) rfl, ?_, ?_⟩,
    ⟨rfl, by decide, _, mem_of_getElem? (i := 0) rfl, _, mem_of_getElem? (i := 1) rfl, ?_, ?_⟩⟩
  all_goals decide

end Flow

end Lineage
