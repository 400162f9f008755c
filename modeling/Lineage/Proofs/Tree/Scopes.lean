import Lineage.Proofs.Tree.Reads
import Lineage.Proofs.Flow.Faults
import Mathlib.Data.List.Perm.Basic

/-!
Scopes inside an expression. A place in a tree is told by the way that leads to it, and every step
of the way by how the child stands in its node. Whether a name is free at a place follows from the
way alone. The names that evaluating an expression reads are the free ones, each place once.
-/

namespace Lineage.Node

open List

/-- How a child stands in a node: in the scope around the node, in the scope that the node opens, or
as a target to bind. -/
inductive Role where
  | around
  | inside
  | bound
deriving DecidableEq, Repr

/-- The children in the `for`s of a comprehension; `first` tells how what the next one goes over
stands. -/
def generatorParts (first : Role) : List (Generator Node) → List (Role × Node)
  | [] => []
  | g :: rest =>
    (.bound, g.target) :: (first, g.iter) :: g.conditions.map (Prod.mk .inside) ++
      generatorParts .inside rest

/-- The children of a node with their roles. -/
def parts : Node → List (Role × Node)
  | .lambda _ params body => (params.flatMap Param.nodes).map (Prod.mk .around) ++ [(.inside, body)]
  | .comprehension _ _ element value generators =>
    (element :: value.toList).map (Prod.mk .inside) ++ generatorParts .around generators
  | .assign _ targets value _ hint true =>
    targets.map (fun t => (if t.isName then .bound else .around, t)) ++ hint.toList.map
      (Prod.mk .bound) ++ value.toList.map (Prod.mk .around)
  | n => n.children.map (Prod.mk .around)

/-- A place in a tree: the node that stands there, and the nodes that are passed on the way with the
role of the next. -/
structure Trail where
  steps : List (Node × Role)
  node : Node

/-- The same place, seen from a node further up. -/
def Trail.below (n : Node) (role : Role) (t : Trail) : Trail :=
  ⟨(n, role) :: t.steps, t.node⟩

/-- A name is free at a place that lies in no target and in no scope that binds it. -/
def Trail.Free (t : Trail) (id : String) : Prop :=
  ∀ step ∈ t.steps, step.2 ≠ .bound ∧ (step.2 = .inside → id ∉ step.1.localNames)

instance (t : Trail) (id : String) : Decidable (t.Free id) :=
  inferInstanceAs (Decidable (∀ step ∈ t.steps, step.2 ≠ .bound ∧
    (step.2 = .inside → id ∉ step.1.localNames)))

/-- The name that stands at a place, if it is free there. -/
def Trail.freeNames (t : Trail) : List Occurrence :=
  match t.node with
  | .name loc id => if t.Free id then [⟨id, loc⟩] else []
  | _ => []

/-- All places of a tree, each in front of those below it. -/
def trails (n : Node) : List Trail :=
  n.fold fun n below => ⟨[], n⟩ :: (n.parts.zip below).flatMap fun part => part.2.map
    (Trail.below n part.1.1)

theorem snd_generatorParts (first : Role) (gs : List (Generator Node)) :
    (generatorParts first gs).map Prod.snd = gs.flatMap Generator.nodes := by
  induction gs generalizing first with
  | nil => rfl
  | cons g rest ih => simp [generatorParts, Generator.nodes, ih, Function.comp_def]

theorem snd_parts (n : Node) : n.parts.map Prod.snd = n.children := by
  have all : ∀ (role : Role) (ns : List Node), (ns.map (Prod.mk role)).map Prod.snd = ns :=
      fun role ns => by
    rw [map_map]
    exact map_id ns
  cases n
  case lambda => simp [parts, children, all]
  case comprehension => simp [parts, children, all, snd_generatorParts]
  case assign loc targets value op hint isExpression =>
    cases isExpression with
    | true => simp [parts, children, all, Function.comp_def]
    | false => exact all _ _
  all_goals exact all _ _

theorem trails_eq (n : Node) :
    n.trails = ⟨[], n⟩ :: n.parts.flatMap fun part => part.2.trails.map (Trail.below n part.1) := by
  have zipped : ∀ ps : List (Role × Node), ps.zip (ps.map fun part => part.2.trails) =
      ps.map fun part => (part, part.2.trails) := fun ps => by
    induction ps with
    | nil => rfl
    | cons part rest ih => rw [map_cons, zip_cons_cons, ih, map_cons]
  rw [trails, fold_eq, ← snd_parts, map_map]
  refine congrArg (List.cons _) ?_
  exact (congrArg (List.flatMap _) (zipped n.parts)).trans (flatMap_map ..)

/-- The places of a tree are its nodes. -/
theorem node_trails (n : Node) : n.trails.map Trail.node = n.nodes := by
  induction n using children_induction with
  | step n ih =>
    have each : ∀ part ∈ n.parts, (part.2.trails.map (Trail.below n part.1)).map Trail.node =
        part.2.nodes := by
      intro part member
      rw [map_map]
      exact ih part.2 (snd_parts n ▸ mem_map_of_mem member)
    rw [trails_eq, nodes_eq, map_cons, map_flatMap, flatMap_congr each, ← snd_parts, flatMap_map]

/-- The free names of a tree, in the order of the places where they stand. -/
def exposed (n : Node) : List Occurrence :=
  n.trails.flatMap Trail.freeNames

/-- What stays free of the names that are free in a child. -/
def kept (n : Node) (role : Role) (os : List Occurrence) : List Occurrence :=
  os.filter fun o => role ≠ .bound ∧ (role = .inside → o.id ∉ n.localNames)

theorem kept_around (n : Node) (os : List Occurrence) : n.kept .around os = os := by
  simp [kept]

theorem kept_inside (n : Node) (os : List Occurrence) : n.kept .inside os = n.escaping os := by
  simp [kept, escaping]

theorem kept_bound (n : Node) (os : List Occurrence) : n.kept .bound os = [] := by
  simp [kept]

theorem freeNames_below (n : Node) (role : Role) (t : Trail) :
    (t.below n role).freeNames = n.kept role t.freeNames := by
  obtain ⟨steps, node⟩ := t
  cases node
  case name loc id =>
    have split : (Trail.below n role ⟨steps, name loc id⟩).Free id ↔
        (role ≠ .bound ∧ (role = .inside → id ∉ n.localNames)) ∧
        Trail.Free ⟨steps, name loc id⟩ id := forall_mem_cons
    show (if Trail.Free _ id then [(⟨id, loc⟩ : Occurrence)] else []) =
      n.kept role (if Trail.Free _ id then [(⟨id, loc⟩ : Occurrence)] else [])
    by_cases free : Trail.Free ⟨steps, name loc id⟩ id
    · simp only [split, free, kept, and_true, if_true, filter_cons, filter_nil, decide_eq_true_eq]
    · simp [split, free, kept]
  all_goals rfl

theorem exposed_eq (n : Node) :
    n.exposed = Trail.freeNames ⟨[], n⟩ ++ n.parts.flatMap
    fun part => n.kept part.1 part.2.exposed := by
  rw [exposed, trails_eq, flatMap_cons, flatMap_assoc]
  refine congrArg _ (flatMap_congr fun part _ => ?_)
  rw [flatMap_map, kept, exposed, filter_flatMap]
  exact flatMap_congr fun t _ => freeNames_below n part.1 t

theorem escaping_flatMap (n : Node) (f : Node → List Occurrence) (ns : List Node) :
    n.escaping (ns.flatMap f) = ns.flatMap fun c => n.escaping (f c) :=
  filter_flatMap

section Gathered

variable (n : Node) (f : Node → List Occurrence)

theorem flatMap_around (ns : List Node) :
    ((ns.map (Prod.mk Role.around)).flatMap fun part => n.kept part.1 (f part.2)) =
    ns.flatMap f := by
  rw [flatMap_map]
  exact flatMap_congr fun c _ => kept_around n (f c)

theorem flatMap_inside (ns : List Node) :
    ((ns.map (Prod.mk Role.inside)).flatMap fun part => n.kept part.1 (f part.2)) =
    n.escaping (ns.flatMap f) := by
  rw [flatMap_map, escaping_flatMap]
  exact flatMap_congr fun c _ => kept_inside n (f c)

theorem flatMap_laterParts (gs : List (Generator Node)) :
    ((generatorParts .inside gs).flatMap fun part => n.kept part.1 (f part.2)) =
      n.escaping ((gs.flatMap fun g => g.iter :: g.conditions).flatMap f) := by
  induction gs with
  | nil => rfl
  | cons g rest ih =>
    simp only [generatorParts, cons_append, flatMap_cons, flatMap_append, kept_bound,
      kept_inside, ih, flatMap_inside, nil_append, escaping, filter_append]

theorem flatMap_generatorParts (gs : List (Generator Node)) :
    ((generatorParts .around gs).flatMap fun part => n.kept part.1 (f part.2)) =
      (firstIters gs).flatMap f ++ n.escaping ((scopedParts gs).flatMap f) := by
  cases gs with
  | nil => rfl
  | cons g rest =>
    simp only [generatorParts, firstIters, scopedParts, cons_append, flatMap_cons, flatMap_append,
      kept_bound, kept_around, flatMap_inside, flatMap_laterParts, nil_append, escaping,
      filter_append, append_assoc, take_succ_cons, take_zero, map_cons, map_nil, flatMap_nil]

end Gathered

theorem flatMap_targets (n : Node) (f : Node → List Occurrence) (ts : List Node) :
    ((ts.map fun t => (if t.isName then Role.bound else .around, t)).flatMap
      fun part => n.kept part.1 (f part.2)) = (ts.filter fun t => !t.isName).flatMap f := by
  induction ts with
  | nil => rfl
  | cons t rest ih =>
    rw [map_cons, flatMap_cons, ih, filter_cons]
    cases t.isName with
    | true => exact congrArg (· ++ _) (kept_bound n (f t))
    | false => exact congrArg (· ++ _) (kept_around n (f t))

theorem paramReads_perm (params : List (Param Node)) :
    (params.flatMap Flow.paramReads).Perm (params.flatMap Param.nodes) :=
  List.Perm.flatMap_left params fun _ _ => perm_append_comm

/-- What a node reads is its own name and what its children read, as far as it is free in the
node. -/
theorem gathered_perm {n : Node} (expression : n.kind = .assign → n.isWalrus = true) :
    n.gathered.Perm (Trail.freeNames ⟨[], n⟩ ++ n.parts.flatMap
      fun part => n.kept part.1 part.2.freeNames) := by
  have plain := flatMap_around n freeNames
  cases n
  case name loc id => exact List.Perm.refl _
  case lambda loc params body =>
    show (_ ++ _ : List Occurrence).Perm ([] ++ List.flatMap _ (_ ++ [_]))
    rw [nil_append, flatMap_append, flatMap_around, flatMap_singleton, kept_inside]
    exact ((paramReads_perm params).flatMap_right _).append_right _
  case comprehension loc flavor element value generators =>
    have own := flatMap_inside (.comprehension loc flavor element value generators) freeNames
      (element :: value.toList)
    have others := flatMap_generatorParts (.comprehension loc flavor element value generators)
      freeNames generators
    refine List.Perm.trans ?_ (List.Perm.of_eq
      (flatMap_append.trans (congrArg₂ (· ++ ·) own others)).symm)
    show (_ ++ _ : List Occurrence).Perm (_ ++ _)
    rw [append_assoc, flatMap_append, escaping, filter_append, ← append_assoc]
    exact perm_append_comm
  case assign loc targets value op hint isExpression =>
    obtain rfl : isExpression = true := expression rfl
    refine List.Perm.of_eq ?_
    have bound : ∀ m : Node, ((hint.toList.map (Prod.mk Role.bound)).flatMap
        fun part => m.kept part.1 part.2.freeNames) = [] :=
      fun m => by simp [flatMap_map, kept_bound]
    show _ ++ [] = [] ++ List.flatMap _ (_ ++ _ ++ _)
    rw [append_nil, nil_append, flatMap_append, flatMap_append, flatMap_append, bound, plain,
      flatMap_targets, append_nil]
  all_goals exact List.Perm.of_eq (plain _).symm

/-- The names that an expression reads are its free names, each place once. -/
theorem freeNames_perm {e : Node} (expression : ∀ m ∈ e.nodes, m.kind = .assign →
    m.isWalrus = true) : e.freeNames.Perm e.exposed := by
  induction e using children_induction with
  | step e ih =>
    have below : ∀ part ∈ e.parts, (e.kept part.1 part.2.freeNames).Perm
        (e.kept part.1 part.2.exposed) := by
      intro part member
      have child : part.2 ∈ e.children := snd_parts e ▸ mem_map_of_mem member
      exact (ih part.2 child fun m inside => expression m
        (nodes_subset_of_child child inside)).filter _
    rw [freeNames_eq, exposed_eq]
    exact (gathered_perm (expression e (mem_nodes_self e))).trans
      ((List.Perm.flatMap_left _ below).append_left _)

theorem gathered_superset (n : Node) :
    (Trail.freeNames ⟨[], n⟩ ++ n.parts.flatMap fun part => n.kept part.1 part.2.freeNames) ⊆
    n.gathered := by
  by_cases expression : n.kind = .assign → n.isWalrus = true
  · exact (gathered_perm expression).symm.subset
  · obtain ⟨assign, statement⟩ := Classical.not_imp.mp expression
    cases n
    case assign loc targets value op hint isExpression =>
      obtain rfl : isExpression = false := Bool.eq_false_iff.mpr statement
      show [] ++ List.flatMap _ (List.map (Prod.mk Role.around) _) ⊆ _ ++ _
      rw [flatMap_around]
      exact subset_append_right _ _
    all_goals nomatch assign

/-- Whatever the tree, every free name in it is read. -/
theorem exposed_subset (e : Node) : e.exposed ⊆ e.freeNames := by
  induction e using children_induction with
  | step e ih =>
    intro o member
    rw [exposed_eq] at member
    rw [freeNames_eq]
    refine gathered_superset e ?_
    rcases mem_append.mp member with own | below
    · exact mem_append_left _ own
    · obtain ⟨part, among, member⟩ := mem_flatMap.mp below
      obtain ⟨read, free⟩ := mem_filter.mp member
      have child : part.2 ∈ e.children := snd_parts e ▸ mem_map_of_mem among
      have kept : o ∈ e.kept part.1 part.2.freeNames := mem_filter.mpr ⟨ih part.2 child read, free⟩
      exact mem_append_right _ (mem_flatMap.mpr ⟨part, among, kept⟩)

theorem mem_freeNames {e : Node} {t : Trail} (place : t ∈ e.trails) {loc : Location} {id : String}
    (named : t.node = .name loc id) (free : t.Free id) : ⟨id, loc⟩ ∈ e.freeNames := by
  refine exposed_subset e (mem_flatMap.mpr ⟨t, place, ?_⟩)
  rw [Trail.freeNames, named]
  simp only [free, if_true, mem_singleton]

/-- Evaluating an expression takes in every place that does not lie in a lambda. -/
theorem mem_evaluated {e : Node} {t : Trail} (place : t ∈ e.trails)
    (outside : ∀ step ∈ t.steps, step.1.isLambda = false) : t.node ∈ e.evaluated := by
  induction e using children_induction generalizing t with
  | step e ih =>
    rw [evaluated, walk_eq]
    rw [trails_eq] at place
    rcases mem_cons.mp place with rfl | place
    · exact mem_cons_self ..
    · obtain ⟨part, among, place⟩ := mem_flatMap.mp place
      obtain ⟨inner, below, rfl⟩ := mem_map.mp place
      obtain ⟨here, outside⟩ := forall_mem_cons.mp outside
      have child : part.2 ∈ e.children := snd_parts e ▸ mem_map_of_mem among
      have reached : inner.node ∈ part.2.evaluated := ih part.2 child below outside
      refine mem_cons_of_mem _ ?_
      rw [here]
      exact mem_flatMap.mpr ⟨part.2, child, reached⟩

/-- Reading an expression that is well made meets no fault. The names that are read are exactly the
free ones: every place of the tree once, if a name stands there that is no target and that no scope
around binds. -/
theorem freeNames_exact (e : Node) (expression : ∀ m ∈ e.nodes, m.kind.isStatement = true →
    m.isWalrus = true) : ((∀ m ∈ e.nodes, m.WellMade) → e.readFault = none) ∧
      e.trails.map Trail.node = e.nodes ∧ e.freeNames.Perm (e.trails.flatMap Trail.freeNames) := by
  refine ⟨fun made => readFault_eq_none fun m member => ⟨made m member, expression m member⟩,
    node_trails e, ?_⟩
  exact freeNames_perm fun m member assign => expression m member (by rw [assign]; rfl)

/-- `[(lambda a=b: a(x, c))(w := x) for x in x if d]`. -/
def nestedScopes : Node :=
  .comprehension default "list"
    (.call default
      (.lambda default [⟨"a", some (.name default "b"), none, default⟩]
        (.call default (.name default "a") [.name default "x", .name default "c"] []))
      [.assign default [.name default "w"] (some (.name default "x")) none none true] [])
    none [⟨.name default "x", .name default "x", [.name default "d"], false⟩]

/-- What is gone over is free, though the comprehension binds the same name; so is a default, though
it stands in a lambda. -/
theorem freeNames_exact_nested :
    nestedScopes.readFault = none ∧ nestedScopes.trails.map Trail.node = nestedScopes.nodes ∧
      nestedScopes.freeNames.Perm (nestedScopes.trails.flatMap Trail.freeNames) ∧
      nestedScopes.freeNames.map Occurrence.id = ["x", "d", "b", "c"] := by
  have made : ∀ m ∈ nestedScopes.nodes, m.WellMade := by
    simp [nestedScopes, nodes_eq, children, Generator.nodes, Param.nodes, WellMade]
  obtain ⟨fine, places, exact_⟩ := freeNames_exact nestedScopes (by decide)
  exact ⟨fine made, places, exact_, by decide⟩

end Lineage.Node
