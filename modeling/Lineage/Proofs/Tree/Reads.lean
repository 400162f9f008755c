import Lineage.Proofs.Tree.Mentions
import Mathlib.Data.List.Basic

/-!
The names that an expression reads stand in it. Which names these are depends neither on the view
nor on what is known of calls: they are put together from the names that the children of a node
read, without those that the node binds itself.
-/

namespace Lineage.Node

open List

section Lists

variable {pure : Node → Bool} {v : View}

theorem reads_append {xs ys : List Read} {ns ms : List Node} (left : xs = ns.flatMap (reads pure v))
    (right : ys = ms.flatMap (reads pure v)) : xs ++ ys = (ns ++ ms).flatMap (reads pure v) := by
  rw [left, right, flatMap_append]

theorem reads_single (n : Node) : reads pure v n = [n].flatMap (reads pure v) :=
  (flatMap_singleton ..).symm

theorem readsList_eq (ns : List Node) : readsList pure v ns = ns.flatMap (reads pure v) := by
  induction ns with
  | nil => rfl
  | cons n rest ih => exact reads_append (reads_single n) ih

theorem readsOption_eq (o : Option Node) :
    readsOption pure v o = o.toList.flatMap (reads pure v) := by
  cases o with
  | none => rfl
  | some n => exact reads_single n

theorem readsUnnamed_eq (ns : List Node) :
    readsUnnamed pure v ns = (ns.filter fun n => !n.isName).flatMap (reads pure v) := by
  induction ns with
  | nil => rfl
  | cons n rest ih =>
    show (if n.isName then [] else reads pure v n) ++ readsUnnamed pure v rest = _
    rw [ih, filter_cons]
    cases n.isName <;> rfl

theorem readsKeywords_eq (ks : List (Keyword Node)) :
    readsKeywords pure v ks = (ks.map Keyword.value).flatMap (reads pure v) := by
  induction ks with
  | nil => rfl
  | cons k rest ih => exact reads_append (reads_single k.value) ih

theorem readsParams_eq (ps : List (Param Node)) :
    readsParams pure v ps = (ps.flatMap Param.nodes).flatMap (reads pure v) := by
  induction ps with
  | nil => rfl
  | cons p rest ih =>
    exact reads_append (reads_append (readsOption_eq p.hint) (readsOption_eq p.default)) ih

theorem readsDefaults_eq (ps : List (Param Node)) :
    readsDefaults pure v ps = (ps.flatMap Flow.paramReads).flatMap (reads pure v) := by
  induction ps with
  | nil => rfl
  | cons p rest ih =>
    exact reads_append (reads_append (readsOption_eq p.default) (readsOption_eq p.hint)) ih

theorem readsEntries_eq (es : List (Entry Node)) :
    readsEntries pure v es = (es.flatMap Entry.nodes).flatMap (reads pure v) := by
  induction es with
  | nil => rfl
  | cons e rest ih =>
    exact reads_append (reads_append (readsOption_eq e.key) (reads_single e.value)) ih

theorem readsItems_eq (is : List (WithItem Node)) :
    readsItems pure v is = (is.flatMap WithItem.nodes).flatMap (reads pure v) := by
  induction is with
  | nil => rfl
  | cons i rest ih =>
    exact reads_append (reads_append (reads_single i.context) (readsOption_eq i.target)) ih

theorem readsElifs_eq (es : List (Elif Node)) :
    readsElifs pure v es = (es.flatMap Elif.nodes).flatMap (reads pure v) := by
  induction es with
  | nil => rfl
  | cons e rest ih =>
    exact reads_append (reads_append (reads_single e.test) (readsList_eq e.body)) ih

theorem readsHandlers_eq (hs : List (Handler Node)) :
    readsHandlers pure v hs = (hs.flatMap Handler.nodes).flatMap (reads pure v) := by
  induction hs with
  | nil => rfl
  | cons h rest ih =>
    exact reads_append (reads_append (readsOption_eq h.type) (readsList_eq h.body)) ih

theorem readsClause_eq (clause : Option (Clause Node)) :
    readsClause pure v clause = (Clause.statements clause).flatMap (reads pure v) := by
  cases clause with
  | none => rfl
  | some c => exact readsList_eq c.body

/-- What the first `for` of a comprehension goes over. -/
def firstIters (generators : List (Generator Node)) : List Node :=
  (generators.take 1).map Generator.iter

/-- What the `for`s of a comprehension evaluate in its own scope, in order. -/
def scopedParts : List (Generator Node) → List Node
  | [] => []
  | g :: rest => g.conditions ++ rest.flatMap fun g => g.iter :: g.conditions

theorem readsFirstIter_eq (gs : List (Generator Node)) :
    readsFirstIter pure v gs = (firstIters gs).flatMap (reads pure v) := by
  cases gs with
  | nil => rfl
  | cons g rest => exact reads_single g.iter

theorem readsGenerators_false (gs : List (Generator Node)) :
    readsGenerators pure v false gs = (gs.flatMap fun g => g.iter :: g.conditions).flatMap
    (reads pure v) := by
  induction gs with
  | nil => rfl
  | cons g rest ih =>
    exact reads_append (reads_append (reads_single g.iter) (readsList_eq g.conditions)) ih

theorem readsGenerators_true (gs : List (Generator Node)) :
    readsGenerators pure v true gs = (scopedParts gs).flatMap (reads pure v) := by
  cases gs with
  | nil => rfl
  | cons g rest => exact reads_append (readsList_eq g.conditions) (readsGenerators_false rest)

end Lists

/-- The names of the scope that a node opens: the parameters of a lambda, or what the targets of a
comprehension bind. -/
def localNames : Node → List String
  | .lambda _ params _ => paramNames params
  | .comprehension _ _ _ _ generators => generators.flatMap fun g => g.target.targetIds
  | _ => []

/-- Of names that are read in the scope that a node opens, those that it does not bind. -/
def escaping (n : Node) (os : List Occurrence) : List Occurrence :=
  os.filter fun o => !n.localNames.contains o.id

/-- What a node reads, put together from what its children read. -/
def gathered : Node → List Occurrence
  | .name loc id => [⟨id, loc⟩]
  | n@(.lambda _ params body) => (params.flatMap Flow.paramReads).flatMap freeNames ++
      n.escaping body.freeNames
  | n@(.comprehension _ _ element value generators) =>
    (firstIters generators).flatMap freeNames ++
      n.escaping ((scopedParts generators ++ [element] ++ value.toList).flatMap freeNames)
  | .assign _ targets value _ hint isExpression =>
    (targets.filter (fun t => !t.isName) ++ value.toList).flatMap freeNames ++
      if isExpression then [] else (targets ++ hint.toList ++ value.toList).flatMap freeNames
  | n => n.children.flatMap freeNames

/-- A node reads the same names however it is viewed. -/
def Steady (n : Node) : Prop :=
  ∀ pure v, (reads pure v n).map Read.occurrence = n.freeNames

section Steady

variable {pure : Node → Bool} {v : View}

theorem occurrences_filter (bound : List String) (rs : List Read) :
    (rs.filter fun r => !bound.contains r.id).map Read.occurrence =
      (rs.map Read.occurrence).filter fun o => !bound.contains o.id := by
  rw [filter_map]
  rfl

theorem firstIters_subset (gs : List (Generator Node)) :
    firstIters gs ⊆ gs.flatMap Generator.nodes := by
  cases gs <;> simp [firstIters, Generator.nodes]

theorem scopedParts_subset (gs : List (Generator Node)) :
    scopedParts gs ⊆ gs.flatMap Generator.nodes := by
  cases gs with
  | nil => exact nil_subset _
  | cons g rest =>
    intro n member
    simp only [scopedParts, mem_append, mem_flatMap, mem_cons] at member
    simp only [Generator.nodes, flatMap_cons, mem_append, mem_flatMap, mem_cons]
    grind

theorem occurrences_of_reads {ns : List Node} {rs : List Read}
    (same : rs = ns.flatMap (reads pure v)) (steady : ∀ n ∈ ns, n.Steady) :
    rs.map Read.occurrence = ns.flatMap freeNames := by
  rw [same, map_flatMap]
  exact flatMap_congr fun n member => steady n member pure v

/-- The names that a node reads come from what its children read. -/
theorem occurrences_reads (n : Node) (steady : ∀ c ∈ n.children, c.Steady) :
    (reads pure v n).map Read.occurrence = n.gathered := by
  -- Under the binders of a scope only the names read inside are kept apart; elsewhere the lists of
  -- reads are joined in order.
  cases n
  case name => rfl
  case lambda loc params body =>
    have given : ∀ c ∈ params.flatMap Flow.paramReads, c.Steady := fun c member =>
      steady c (mem_append_left _ (paramReads_subset params member))
    have inside : body.Steady := steady body (mem_append_right _ (mem_singleton_self body))
    refine (map_append ..).trans (congrArg₂ (· ++ ·) ?_ ?_)
    · exact occurrences_of_reads (readsDefaults_eq params) given
    · exact (occurrences_filter (paramNames params)
          _).trans (congrArg (List.filter _) (inside pure v.later))
  case comprehension loc flavor element value generators =>
    have first : ∀ c ∈ firstIters generators, c.Steady := fun c member =>
      steady c (mem_append_right _ (firstIters_subset generators member))
    have inside : ∀ c ∈ scopedParts generators ++ [element] ++ value.toList, c.Steady := by
      intro c member
      rw [append_assoc] at member
      rcases mem_append.mp member with member | member
      · exact steady c (mem_append_right _ (scopedParts_subset generators member))
      · exact steady c (mem_append_left _ member)
    refine (map_append ..).trans (congrArg₂ (· ++ ·) ?_ ?_)
    · exact occurrences_of_reads (readsFirstIter_eq generators) first
    · refine (occurrences_filter _ _).trans (congrArg (List.filter _) ?_)
      exact occurrences_of_reads
        (reads_append (reads_append (readsGenerators_true generators) (reads_single
          element)) (readsOption_eq value)) inside
  case assign loc targets value op hint isExpression =>
    have now : ∀ c ∈ targets.filter (fun t => !t.isName) ++ value.toList, c.Steady := by
      intro c member
      rcases mem_append.mp member with member | member
      · exact steady c (mem_append_left _ (mem_append_left _ (mem_of_mem_filter member)))
      · exact steady c (mem_append_right _ member)
    refine (map_append ..).trans (congrArg₂ (· ++ ·) ?_ ?_)
    · exact occurrences_of_reads (reads_append (readsUnnamed_eq targets) (readsOption_eq value)) now
    · cases isExpression with
      | true => rfl
      | false =>
        exact occurrences_of_reads (reads_append (reads_append (readsList_eq targets)
          (readsOption_eq hint)) (readsOption_eq value)) steady
  case member loc value attr => exact occurrences_of_reads (reads_single value) steady
  case call loc func args keywords =>
    have given : ∀ c ∈ args ++ keywords.map Keyword.value,
        c.Steady := fun c member => steady c (.tail _ member)
    refine (congrArg (List.map Read.occurrence) (append_assoc ..)).trans ((map_append ..).trans ?_)
    refine congrArg₂ (· ++ ·) (steady func (mem_cons_self ..) pure _) ?_
    exact occurrences_of_reads (reads_append (readsList_eq args) (readsKeywords_eq keywords)) given
  case imports | importsFrom | «break» | «continue» | pass | global | nonlocal | verbatim
      | literal => rfl
  case module | delete | tuple | list | set | formatted =>
    exact occurrences_of_reads (readsList_eq _) steady
  case decorator | expression | unary | starred =>
    exact occurrences_of_reads (reads_single _) steady
  case returning | yielding => exact occurrences_of_reads (readsOption_eq _) steady
  case dict => exact occurrences_of_reads (readsEntries_eq _) steady
  case assertion =>
    exact occurrences_of_reads (reads_append (reads_single _) (readsOption_eq _)) steady
  case raising =>
    exact occurrences_of_reads (reads_append (readsOption_eq _) (readsOption_eq _)) steady
  case binary | subscript =>
    exact occurrences_of_reads (reads_append (reads_single _) (reads_single _)) steady
  case decorated =>
    exact occurrences_of_reads (reads_append (readsList_eq _) (reads_single _)) steady
  case context =>
    exact occurrences_of_reads (reads_append (readsItems_eq _) (readsList_eq _)) steady
  case function =>
    exact occurrences_of_reads (reads_append (reads_append (readsParams_eq _) (readsOption_eq _))
      (readsList_eq _)) steady
  case classDef =>
    exact occurrences_of_reads (reads_append (reads_append (readsList_eq _) (readsKeywords_eq _))
      (readsList_eq _)) steady
  case slice =>
    exact occurrences_of_reads (reads_append (reads_append (readsOption_eq _) (readsOption_eq _))
      (readsOption_eq _)) steady
  case conditional =>
    exact occurrences_of_reads (reads_append (reads_append (reads_single _) (reads_single _))
      (reads_single _)) steady
  case whileLoop =>
    exact occurrences_of_reads (reads_append (reads_append (reads_single _) (readsList_eq _))
      (readsClause_eq _)) steady
  case branch =>
    exact occurrences_of_reads (reads_append (reads_append (reads_append (reads_single _)
      (readsList_eq _)) (readsElifs_eq _)) (readsClause_eq _)) steady
  case forLoop =>
    exact occurrences_of_reads (reads_append (reads_append (reads_append (reads_single _)
      (reads_single _)) (readsList_eq _)) (readsClause_eq _)) steady
  case attempt =>
    exact occurrences_of_reads (reads_append (reads_append (reads_append (readsList_eq _)
      (readsHandlers_eq _)) (readsClause_eq _)) (readsClause_eq _)) steady

end Steady

theorem steady (n : Node) : n.Steady := by
  induction n using children_induction with
  | step n ih => exact fun pure v => (occurrences_reads n ih).trans (occurrences_reads n ih).symm

theorem freeNames_eq (n : Node) : n.freeNames = n.gathered :=
  occurrences_reads n fun c _ => c.steady

/-- Which names a node reads depends neither on the callees that are pure nor on how it is
viewed. -/
theorem ids_reads (pure other : Node → Bool) (v w : View) (n : Node) :
    (reads pure v n).map Read.id = (reads other w n).map Read.id := by
  have same : (reads pure v n).map Read.occurrence = (reads other w n).map Read.occurrence :=
    (n.steady pure v).trans (n.steady other w).symm
  have ids : ∀ rs : List Read, rs.map Read.id = (rs.map Read.occurrence).map Occurrence.id :=
      fun rs =>
    (map_map (f := Read.occurrence) (g := Occurrence.id)).symm
  rw [ids, ids, same]

theorem gathered_cases {n : Node} {o : Occurrence} (member : o ∈ n.gathered) :
    n = .name o.loc o.id ∨ ∃ c ∈ n.children, o ∈ c.freeNames := by
  cases n
  case name loc id =>
    obtain rfl := mem_singleton.mp member
    exact Or.inl rfl
  case lambda loc params body =>
    right
    rcases mem_append.mp member with member | member
    · obtain ⟨c, among, member⟩ := mem_flatMap.mp member
      exact ⟨c, mem_append_left _ (paramReads_subset params among), member⟩
    · exact ⟨body, mem_append_right _ (mem_singleton_self body), mem_of_mem_filter member⟩
  case comprehension loc flavor element value generators =>
    right
    rcases mem_append.mp member with member | member
    · obtain ⟨c, among, member⟩ := mem_flatMap.mp member
      exact ⟨c, mem_append_right _ (firstIters_subset generators among), member⟩
    · obtain ⟨c, among, member⟩ := mem_flatMap.mp (mem_of_mem_filter member)
      rw [append_assoc] at among
      rcases mem_append.mp among with among | among
      · exact ⟨c, mem_append_right _ (scopedParts_subset generators among), member⟩
      · exact ⟨c, mem_append_left _ among, member⟩
  case assign loc targets value op hint isExpression =>
    right
    rcases mem_append.mp member with member | member
    · obtain ⟨c, among, member⟩ := mem_flatMap.mp member
      rcases mem_append.mp among with among | among
      · exact ⟨c, mem_append_left _ (mem_append_left _ (mem_of_mem_filter among)), member⟩
      · exact ⟨c, mem_append_right _ among, member⟩
    · cases isExpression with
      | true => exact absurd member not_mem_nil
      | false => exact mem_flatMap.mp member
  all_goals exact Or.inr (mem_flatMap.mp member)

theorem freeNames_subset {n : Node} {o : Occurrence} (member : o ∈ n.freeNames) :
    o.id ∈ n.identifiers := by
  induction n using children_induction with
  | step n ih =>
    rw [freeNames_eq] at member
    rcases gathered_cases member with same | ⟨c, child, member⟩
    · exact mem_identifiers_own (by rw [same]; rfl) (by rw [same]; exact mem_singleton_self _)
    · exact identifiers_subset_of_child child (ih c child member)

theorem reads_subset {pure : Node → Bool} {v : View} {r : Read} {n : Node}
    (member : r ∈ n.reads pure v) : r.id ∈ n.identifiers := by
  have read : r.occurrence ∈ n.freeNames := n.steady pure v ▸ mem_map_of_mem member
  exact freeNames_subset read

end Lineage.Node
