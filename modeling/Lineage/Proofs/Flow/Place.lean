import Lineage.Flow.Analysis
import Lineage.Proofs.Tree.Blocks

/-!
The places of the statements of a block, listed from the source alone: each has its index, the
statement around it and its node. A statement takes up as many indices as it has statements in its
blocks, and its own.
-/

namespace Lineage.Flow

open List

/-- Where a statement stands: its index, the compound statement around it with its index, and the
statement. -/
structure Place where
  index : Nat
  parent : Option (Nat × Node)
  node : Node

mutual

/-- The places of the statements in the blocks of a statement with an index. -/
def innerPlaces (i : Nat) : Node → List Place
  | n@(.module _ code) => blockPlaces (some (i, n)) (i + 1) code
  | n@(.branch _ _ _ code elifs orelse) =>
    blockPlaces (some (i, n)) (i + 1) code ++ elifPlaces (i, n) (i + 1 + blockExtent code) elifs ++
      clausePlaces (i, n) (i + 1 + blockExtent code + (Node.elifStatements elifs).length) orelse
  | n@(.whileLoop _ _ _ code orelse) =>
    blockPlaces (some (i, n)) (i + 1) code ++ clausePlaces (i, n) (i + 1 + blockExtent code) orelse
  | n@(.forLoop _ _ _ _ code orelse _) =>
    blockPlaces (some (i, n)) (i + 1) code ++ clausePlaces (i, n) (i + 1 + blockExtent code) orelse
  | n@(.attempt _ _ code handlers orelse final) =>
    blockPlaces (some (i, n)) (i + 1) code ++ handlerPlaces (i, n) (i + 1 + blockExtent code)
      handlers ++ clausePlaces (i, n) (i + 1 + blockExtent code +
        (Node.handlerStatements handlers).length) orelse ++ clausePlaces (i, n)
          (i + 1 + blockExtent code + (Node.handlerStatements handlers).length +
            (Node.clauseStatements orelse).length) final
  | n@(.context _ _ _ code _) => blockPlaces (some (i, n)) (i + 1) code
  | _ => []

/-- The places of the statements of a block, the first of which has an index. -/
def blockPlaces (parent : Option (Nat × Node)) (i : Nat) : List Node → List Place
  | [] => []
  | n :: rest => (⟨i, parent, n⟩ :: innerPlaces i n) ++ blockPlaces parent (i + n.extent) rest

/-- The places of the statements of `elif` clauses. -/
def elifPlaces (parent : Nat × Node) (i : Nat) : List (Elif Node) → List Place
  | [] => []
  | ⟨_, _, body⟩ :: rest => blockPlaces (some parent) i body ++ elifPlaces parent
      (i + blockExtent body) rest

/-- The places of the statements of `except` clauses. -/
def handlerPlaces (parent : Nat × Node) (i : Nat) : List (Handler Node) → List Place
  | [] => []
  | ⟨_, body, _, _⟩ :: rest => blockPlaces (some parent) i body ++ handlerPlaces parent
      (i + blockExtent body) rest

/-- The places of the statements of an optional clause. -/
def clausePlaces (parent : Nat × Node) (i : Nat) : Option (Clause Node) → List Place
  | none => []
  | some ⟨_, body⟩ => blockPlaces (some parent) i body

end

theorem blockExtent_cons (n : Node) (rest : List Node) :
    blockExtent (n :: rest) = n.extent + blockExtent rest := by
  rw [blockExtent, Node.blockStatements, length_append, length_cons]
  rfl

theorem blockExtent_enclosed (n : Node) : blockExtent n.enclosed + 1 = n.extent := by
  rw [blockExtent, ← Node.statements_eq_enclosed, Node.extent]

theorem blockPlaces_append (parent : Option (Nat × Node)) (i : Nat) (code more : List Node) :
    blockPlaces parent i (code ++ more) = blockPlaces parent i code ++ blockPlaces parent
    (i + blockExtent code) more := by
  induction code generalizing i with
  | nil => rfl
  | cons n rest ih => rw [cons_append, blockPlaces, ih, blockPlaces, blockExtent_cons, append_assoc,
      Nat.add_assoc]

theorem elifPlaces_eq (parent : Nat × Node) (i : Nat) (elifs : List (Elif Node)) :
    elifPlaces parent i elifs = blockPlaces (some parent) i (elifs.flatMap Elif.body) := by
  induction elifs generalizing i with
  | nil => rfl
  | cons e rest ih => rw [elifPlaces, ih, flatMap_cons, blockPlaces_append]

theorem handlerPlaces_eq (parent : Nat × Node) (i : Nat) (handlers : List (Handler Node)) :
    handlerPlaces parent i handlers = blockPlaces (some parent) i
    (handlers.flatMap Handler.body) := by
  induction handlers generalizing i with
  | nil => rfl
  | cons h rest ih => rw [handlerPlaces, ih, flatMap_cons, blockPlaces_append]

theorem clausePlaces_eq (parent : Nat × Node) (i : Nat) (clause : Option (Clause Node)) :
    clausePlaces parent i clause = blockPlaces (some parent) i (Clause.statements clause) := by
  cases clause <;> rfl

theorem length_elifStatements (elifs : List (Elif Node)) :
    (Node.elifStatements elifs).length = blockExtent (elifs.flatMap Elif.body) := by
  rw [blockExtent, Node.blockStatements_eq_flatMap, flatMap_assoc, Node.elifStatements_eq_flatMap]
  simp only [Node.blockStatements_eq_flatMap]

theorem length_handlerStatements (handlers : List (Handler Node)) :
    (Node.handlerStatements handlers).length = blockExtent (handlers.flatMap Handler.body) := by
  rw [blockExtent, Node.blockStatements_eq_flatMap, flatMap_assoc,
    Node.handlerStatements_eq_flatMap]
  simp only [Node.blockStatements_eq_flatMap]

theorem length_clauseStatements (clause : Option (Clause Node)) :
    (Node.clauseStatements clause).length = blockExtent (Clause.statements clause) := by
  cases clause <;> rfl

/-- The statements in the blocks of a statement have places as those of one block behind it. -/
theorem innerPlaces_eq (i : Nat) (n : Node) : innerPlaces i n = blockPlaces (some (i, n))
    (i + 1) n.enclosed := by
  have clause : ∀ o : Option (Clause Node), (Clause.blocks o).flatMap Prod.snd =
      Clause.statements o := by
    intro o
    cases o <;> simp [Clause.blocks, Clause.statements]
  cases n
  case branch loc header test code elifs orelse =>
    rw [innerPlaces, elifPlaces_eq, clausePlaces_eq, length_elifStatements, Node.enclosed,
      Node.clauseBlocks, cons_append, flatMap_cons, flatMap_append, flatMap_map, clause,
      blockPlaces_append, blockPlaces_append, append_assoc]
  case attempt loc header code handlers orelse final =>
    rw [innerPlaces, handlerPlaces_eq, clausePlaces_eq, clausePlaces_eq, length_handlerStatements,
      length_clauseStatements, Node.enclosed, Node.clauseBlocks, cons_append, cons_append,
      flatMap_cons, flatMap_append, flatMap_append, flatMap_map, clause, clause,
      append_assoc _ (Clause.statements orelse), blockPlaces_append, blockPlaces_append,
      blockPlaces_append, append_assoc, append_assoc]
  case whileLoop | forLoop =>
    rw [innerPlaces, clausePlaces_eq, Node.enclosed, Node.clauseBlocks, flatMap_cons, clause,
      blockPlaces_append]
  case module | context => rw [innerPlaces, Node.enclosed, Node.clauseBlocks, flatMap_singleton]
  all_goals rfl

/-- The places of a block hold its statements in order, and their indices count up. -/
theorem node_blockPlaces (parent : Option (Nat × Node)) (i : Nat) (code : List Node) :
    (blockPlaces parent i code).map Place.node = Node.blockStatements code := by
  induction code using Node.block_induction generalizing parent i with
  | nil => rfl
  | cons n rest inner ih =>
    rw [blockPlaces, innerPlaces_eq, map_append, map_cons, inner, ih, Node.blockStatements,
      Node.statements_eq_enclosed]

theorem index_blockPlaces (parent : Option (Nat × Node)) (i : Nat) (code : List Node) :
    (blockPlaces parent i code).map Place.index = List.range' i (blockExtent code) := by
  induction code using Node.block_induction generalizing parent i with
  | nil => rfl
  | cons n rest inner ih =>
    rw [blockPlaces, innerPlaces_eq, map_append, map_cons, inner, ih, blockExtent_cons, blockExtent,
      ← Node.statements_eq_enclosed]
    exact List.range'_append_1 (s := i) (m := n.extent)

theorem node_innerPlaces (i : Nat) (n : Node) :
    (innerPlaces i n).map Place.node = n.statements := by
  rw [innerPlaces_eq, node_blockPlaces, Node.statements_eq_enclosed]

theorem length_blockPlaces (parent : Option (Nat × Node)) (i : Nat) (code : List Node) :
    (blockPlaces parent i code).length = blockExtent code := by
  rw [blockExtent, ← node_blockPlaces parent i code, length_map]

/-- The places of a block lie behind its beginning, with all that is in their blocks, and hold
statements of it. -/
theorem mem_blockPlaces {parent : Option (Nat × Node)} {i : Nat} {code : List Node} {place : Place}
    (member : place ∈ blockPlaces parent i code) : i ≤ place.index ∧
      place.index + place.node.extent ≤ i + blockExtent code ∧
      place.node ∈ Node.blockStatements code := by
  induction code using Node.block_induction generalizing parent i with
  | nil => exact absurd member not_mem_nil
  | cons n rest inner ih =>
    rw [blockPlaces, innerPlaces_eq] at member
    rw [blockExtent_cons, Node.blockStatements, Node.statements_eq_enclosed]
    rcases mem_append.mp member with own | later
    · rcases mem_cons.mp own with rfl | inside
      · refine ⟨Nat.le_refl i, ?_, mem_append_left _ (mem_cons_self ..)⟩
        rw [← Nat.add_assoc]
        exact Nat.le_add_right _ _
      · obtain ⟨above, below, among⟩ := inner inside
        have whole := blockExtent_enclosed n
        exact ⟨by omega, by omega, mem_append_left _ (mem_cons_of_mem n among)⟩
    · obtain ⟨above, below, among⟩ := ih later
      exact ⟨by omega, by omega, mem_append_right _ among⟩

theorem mem_innerPlaces {i : Nat} {n : Node} {place : Place} (member : place ∈ innerPlaces i n) :
    i < place.index ∧ place.index + place.node.extent ≤ i + n.extent ∧
    place.node ∈ n.statements := by
  rw [innerPlaces_eq] at member
  obtain ⟨above, below, among⟩ := mem_blockPlaces member
  have whole := blockExtent_enclosed n
  rw [← Node.statements_eq_enclosed] at among
  exact ⟨above, by omega, among⟩

theorem index_of_getElem? {code : List Node} {place : Place} {k : Nat}
    (found : (blockPlaces none 0 code)[k]? = some place) : place.index = k := by
  have inside : k < blockExtent code := by
    rw [← length_blockPlaces none 0 code]
    exact (List.getElem?_eq_some_iff.mp found).1
  have indices := congrArg (fun xs : List Nat => xs[k]?) (index_blockPlaces none 0 code)
  rw [getElem?_map, found, getElem?_range' inside] at indices
  simpa using indices

/-! ### Nesting -/

namespace Place

/-- The second place lies in a block of the statement at the first, or in a block inside such a
one. -/
def Around (outer inner : Place) : Prop :=
  outer.index < inner.index ∧ inner.index < outer.index + outer.node.extent

/-- Among some places, the parent of a place is the innermost one around it. A place that none of
them lies around is one of a statement of the block that they are the places of. -/
inductive Nested (places : List Place) (parent : Option (Nat × Node)) (code : List Node)
    (place : Place) : Prop where
  | top (around : place.parent = parent) (own : place.node ∈ code)
      (outside : ∀ other ∈ places, ¬ other.Around place)
  | inside {outer : Place} (among : outer ∈ places)
      (around : place.parent = some (outer.index, outer.node))
      (own : place.node ∈ outer.node.enclosed) (within : outer.Around place)
      (innermost : ∀ other ∈ places, other.Around place → other.index ≤ outer.index)

end Place

/-- In the places of a block, each place has the innermost one around it as its parent. -/
theorem nested_blockPlaces (parent : Option (Nat × Node)) (i : Nat) (code : List Node) :
    ∀ place ∈ blockPlaces parent i code, place.Nested (blockPlaces parent i code) parent code := by
  induction code using Node.block_induction generalizing parent i with
  | nil => exact forall_mem_nil _
  | cons n rest inner ih =>
    have extent : n.extent = blockExtent n.enclosed +
      1 := by rw [Node.extent, Node.statements_eq_enclosed, blockExtent]
    rw [blockPlaces, innerPlaces_eq]
    -- What lies behind the first statement is not around anything in it, nor the other way round.
    have split : ∀ place, i ≤ place.index → place.index < i + n.extent →
        ∀ other ∈ blockPlaces parent (i + n.extent) rest, ¬ other.Around place := by
      intro place _ below other member around
      have := (mem_blockPlaces member).1
      have := around.1
      omega
    have first : ∀ place, i + n.extent ≤ place.index →
        ∀ other ∈ ⟨i, parent, n⟩ :: blockPlaces (some (i, n)) (i + 1) n.enclosed,
        ¬ Place.Around other place := by
      intro place above other member around
      have := around.2
      rcases mem_cons.mp member with rfl | inside
      · exact absurd this (Nat.not_lt.mpr above)
      · have := (mem_blockPlaces inside).2.1
        omega
    intro place among
    rcases mem_append.mp among with own | later
    · rcases mem_cons.mp own with rfl | inside
      · refine .top rfl (mem_cons_self ..) fun other member around => ?_
        rcases mem_append.mp member with member | member
        · rcases mem_cons.mp member with rfl | member
          · exact Nat.lt_irrefl _ around.1
          · have before : other.index < i := around.1
            have := (mem_blockPlaces member).1
            omega
        · exact split ⟨i, parent, n⟩ (Nat.le_refl _) (Nat.lt_add_of_pos_right (Nat.succ_pos _))
            other member around
      · have range := mem_blockPlaces inside
        have place_extent : 0 < place.node.extent := Nat.succ_pos _
        have outer : Place.Around ⟨i, parent, n⟩ place :=
        ⟨by dsimp only; omega, by dsimp only; omega⟩
        have behind := split place (by omega) (by omega)
        have here : (⟨i, parent, n⟩ : Place) ∈ (⟨i, parent, n⟩ ::
          blockPlaces (some (i, n)) (i + 1) n.enclosed) ++
            blockPlaces parent (i + n.extent) rest := mem_append_left _ (mem_cons_self ..)
        cases inner (some (i, n)) (i + 1) place inside with
        | top around own outside =>
          refine .inside here around own outer fun other member around => ?_
          rcases mem_append.mp member with member | member
          · rcases mem_cons.mp member with rfl | member
            · exact Nat.le_refl _
            · exact absurd around (outside other member)
          · exact absurd around (behind other member)
        | inside amongInner around own within innermost =>
          refine .inside (mem_append_left _ (mem_cons_of_mem _ amongInner)) around own within ?_
          intro other member around
          rcases mem_append.mp member with member | member
          · rcases mem_cons.mp member with rfl | member
            · have := (mem_blockPlaces amongInner).1
              dsimp only
              omega
            · exact innermost other member around
          · exact absurd around (behind other member)
    · have range := mem_blockPlaces later
      have before := first place (by omega)
      cases ih parent _ place later with
      | top around own outside =>
        refine .top around (mem_cons_of_mem _ own) fun other member => ?_
        exact (mem_append.mp member).elim (before other) (outside other)
      | inside amongRest around own within innermost =>
        refine .inside (mem_append_right _ amongRest) around own within
          fun other member around => ?_
        exact (mem_append.mp member).elim (fun member => absurd around (before other member))
          fun member => innermost other member around

/-! ### Extents -/

section Extents

variable {loc header : Location} {test target iter : Node} {code : List Node}
  {elifs : List (Elif Node)} {handlers : List (Handler Node)} {items : List (WithItem Node)}
  {orelse final : Option (Clause Node)} {isAsync : Bool}

/-- A statement without blocks comes alone. -/
theorem extent_flat {n : Node} (flat : n.kind.isCompound = false) (statement : n.kind ≠ .module) :
    n.extent = 1 := by
  cases n
  case module => exact absurd rfl statement
  case branch => nomatch flat
  case whileLoop => nomatch flat
  case forLoop => nomatch flat
  case attempt => nomatch flat
  case context => nomatch flat
  all_goals rfl

theorem extent_branch : (Node.branch loc header test code elifs orelse).extent =
    1 + blockExtent code + (Node.elifStatements elifs).length +
    (Node.clauseStatements orelse).length := by
  simp only [Node.extent, Node.statements, length_append, blockExtent]
  omega

theorem extent_while : (Node.whileLoop loc header test code orelse).extent =
    1 + blockExtent code + (Node.clauseStatements orelse).length := by
  simp only [Node.extent, Node.statements, length_append, blockExtent]
  omega

theorem extent_for : (Node.forLoop loc header target iter code orelse isAsync).extent =
    1 + blockExtent code + (Node.clauseStatements orelse).length := by
  simp only [Node.extent, Node.statements, length_append, blockExtent]
  omega

theorem extent_attempt : (Node.attempt loc header code handlers orelse final).extent =
    1 + blockExtent code + (Node.handlerStatements handlers).length +
      (Node.clauseStatements orelse).length + (Node.clauseStatements final).length := by
  simp only [Node.extent, Node.statements, length_append, blockExtent]
  omega

theorem extent_context : (Node.context loc header items code isAsync).extent =
    1 + blockExtent code := by
  simp only [Node.extent, Node.statements, blockExtent]
  omega

end Extents

end Lineage.Flow
