import Lineage.Proofs.Flow.Faults
import Lineage.Proofs.Flow.Regular

/-!
How the statements of an analysis are nested. The statements inside a statement have the indices
right behind its own, so the numbers alone tell what lies in what. Each statement names the
innermost one around it as its parent, and it depends on the course of that one and of no other.
-/

namespace Lineage.Flow

open List

namespace Result

/-- One statement lies around another: the other is one of those that its blocks come with. -/
def Encloses (r : Result) (j k : Nat) : Prop :=
  ∃ g, r.statements[j]? = some g ∧ j < k ∧ k ≤ j + g.node.statements.length

end Result

theorem compound_of_enclosed {n c : Node} (plain : n.kind ≠ .module) (own : c ∈ n.enclosed) :
    n.kind.isCompound = true := by
  cases n
  case module => exact absurd rfl plain
  all_goals first
    | rfl
    | exact absurd own not_mem_nil

/-- The analysis of a module in order has a result unless something that is no statement stands in
the place of one. In a result the facts stand in the order of the statements, one for each. A
statement at the top has no parent, and no statement lies around it. The parent of any other is the
innermost of those around it; it has the statement in one of its blocks, and the only edge of
control to the statement comes from it. -/
theorem analyze_nesting (settings : Settings) (writes : GlobalWrites) (loc : Location)
    (code : List Node) :
    ((Node.module loc code).WellFormed → (∀ s, Node.Seat code s → s.kind.isStatement = true) →
      ∃ r, analyze settings writes (.module loc code) = .ok r) ∧
    ∀ r, analyze settings writes (.module loc code) = .ok r →
      r.statements.toList.map StatementFacts.node = (Node.module loc code).statements ∧
      ∀ (k : Nat) (f : StatementFacts), r.statements[k]? = some f → f.index = k ∧
        (f.parent = none → f.node ∈ code ∧ f.controls = [] ∧ ∀ j, ¬ r.Encloses j k) ∧
        ∀ j, f.parent = some j → j < k ∧ r.Encloses j k ∧ (∀ i, r.Encloses i k → i ≤ j) ∧
          ∃ g, r.statements[j]? = some g ∧ g.node.kind.isCompound = true ∧
            (∃ block ∈ g.node.clauseBlocks, f.node ∈ block.2) ∧
            f.controls = [⟨.control, g.location, f.location, none⟩] := by
  refine ⟨fun wellFormed statements => ?_,
    fun r analyzed => ⟨nodes_analyze analyzed, fun k f found => ?_⟩⟩
  · rcases analyze_cases settings writes wellFormed with ⟨result, _⟩ | ⟨s, seat, other, _⟩
    · exact result
    · rw [statements s seat] at other
      exact nomatch other
  obtain ⟨faultless, rfl⟩ := analyze_eq_ok analyzed
  have plain := Node.plain_of_blockFault faultless
  -- The facts are those of the places, so what lies around what is told by the places.
  have placed : ∀ {j : Nat} {g : StatementFacts},
      (analyzeBlock settings writes (Node.module loc code).code).statements[j]? = some g →
      ∃ place ∈ blockPlaces none 0 code, place.index = j ∧ place.Held g := by
    intro j g foundG
    obtain ⟨place, at_, held⟩ := exists_place settings writes plain foundG
    exact ⟨place, mem_of_getElem? at_, index_of_getElem? at_, held⟩
  have facts : ∀ place ∈ blockPlaces none 0 code, ∃ g,
      (analyzeBlock settings writes (Node.module loc code).code).statements[place.index]? = some g ∧
        place.Held g := by
    intro place member
    obtain ⟨j, at_⟩ := mem_iff_getElem?.mp member
    rw [index_of_getElem? at_]
    exact held_analyzeBlock settings writes plain at_
  have encloses : ∀ {place : Place} {j : Nat},
      (analyzeBlock settings writes (Node.module loc code).code).Encloses j place.index →
      ∃ outer ∈ blockPlaces none 0 code, outer.index = j ∧ outer.Around place := by
    rintro place j ⟨g, foundG, after, within⟩
    obtain ⟨outer, member, rfl, held⟩ := placed foundG
    rw [held.node] at within
    exact ⟨outer, member, rfl, after, Nat.lt_succ_of_le within⟩
  obtain ⟨place, member, rfl, held⟩ := placed found
  refine ⟨held.index, fun parentless => ?_, fun j parent => ?_⟩
  · cases nested_blockPlaces none 0 code place member with
    | top around own outside =>
      refine ⟨held.node ▸ own, by rw [held.controls, around]; rfl, fun j surrounds => ?_⟩
      obtain ⟨outer, amongOuter, _, around⟩ := encloses surrounds
      exact outside outer amongOuter around
    | inside _ around =>
      rw [held.parent, around] at parentless
      exact nomatch parentless
  · cases nested_blockPlaces none 0 code place member with
    | top around =>
      rw [held.parent, around] at parent
      exact nomatch parent
    | @inside outer among around own within innermost =>
      rw [held.parent, around] at parent
      obtain rfl := Option.some.inj parent
      obtain ⟨g, foundG, heldG⟩ := facts outer among
      refine ⟨within.1, ⟨g, foundG, within.1, ?_⟩, fun i surrounds => ?_, g, foundG, ?_, ?_, ?_⟩
      · rw [heldG.node]
        exact Nat.le_of_lt_succ within.2
      · obtain ⟨other, amongOther, rfl, around⟩ := encloses surrounds
        exact innermost other amongOther around
      · have statement : outer.node ∈ Node.blockStatements code := by
          rw [← node_blockPlaces none 0 code]
          exact mem_map_of_mem among
        rw [heldG.node]
        refine compound_of_enclosed ?_ own
        rw [Node.blockStatements_eq_flatMap] at statement
        obtain ⟨c, top, below⟩ := mem_flatMap.mp statement
        exact plain c top _ below
      · rw [held.node, heldG.node]
        obtain ⟨block, amongBlocks, inside⟩ := mem_flatMap.mp own
        exact ⟨block, amongBlocks, inside⟩
      · rw [held.controls, around, show g.location = outer.node.loc from congrArg Node.loc
          heldG.node]
        rfl

/-- `while a:` with `if b:`, `x = y`, `else:`, `break` in it, then `x`. -/
def branchInLoop : Node :=
  .module default
    [.whileLoop ⟨1, 0, 5, 9⟩ default (.name default "a")
        [.branch ⟨2, 4, 5, 13⟩ default (.name default "b")
          [.assign ⟨3, 8, 3, 13⟩ [.name default "x"] (some (.name default "y")) none none false] []
          (some ⟨default, [.break ⟨5, 8, 5, 13⟩]⟩)] none,
      .expression ⟨6, 0, 6, 1⟩ (.name default "x")]

/-- The loop is passed twice. The jump in it depends on the branch, not on the loop around both. -/
theorem analyze_nesting_branch : ∃ r f g, analyze ⟨∅, ∅⟩ ∅ branchInLoop = .ok r ∧
    r.statements.toList.map StatementFacts.node = branchInLoop.statements ∧
    r.statements[3]? = some f ∧ f.parent = some 1 ∧
    f.controls = [⟨.control, ⟨2, 4, 5, 13⟩, ⟨5, 8, 5, 13⟩, none⟩] ∧ r.Encloses 1 3 ∧
    r.Encloses 0 3 ∧ r.statements[4]? = some g ∧ g.controls = [] := by
  obtain ⟨r, analyzed⟩ : ∃ r, analyze ⟨∅, ∅⟩ ∅ branchInLoop = .ok r := ⟨_, rfl⟩
  have found : ∃ f g h b, r.statements[3]? = some f ∧ r.statements[4]? = some g ∧
      r.statements[0]? = some h ∧ r.statements[1]? = some b ∧ f.parent = some 1 ∧ g.parent = none ∧
      h.node.statements.length = 3 ∧ b.location = ⟨2, 4, 5, 13⟩ ∧ f.location = ⟨5, 8, 5, 13⟩ := by
    obtain rfl := (analyze_eq_ok analyzed).2
    exact ⟨_, _, _, _, rfl, rfl, rfl, rfl, rfl, rfl, rfl, rfl, rfl⟩
  obtain ⟨f, g, h, b, foundF, foundG, foundH, foundB, parent, parentless, length, branch, jump⟩ :=
    found
  obtain ⟨nodes, nesting⟩ := (analyze_nesting _ _ _ _).2 r analyzed
  obtain ⟨_, within, _, b', foundB', _, _, controls⟩ := (nesting 3 f foundF).2.2 1 parent
  obtain rfl := Option.some.inj (foundB.symm.trans foundB')
  refine ⟨r, f, g, analyzed, nodes, foundF, parent, ?_, within,
    ⟨h, foundH, by decide, by omega⟩, foundG, ((nesting 4 g foundG).2.1 parentless).2.1⟩
  rw [controls, branch, jump]

end Lineage.Flow
