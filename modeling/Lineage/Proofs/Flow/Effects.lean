import Lineage.Proofs.Flow.Regular
import Lineage.Proofs.Flow.Faults

/-!
What is known of calls only takes away. Whatever calls are known to do, an analysis finds the same
names external and the same names possibly unset; only what changes objects depends on it. If one
analysis knows more callees to be pure than another and of no more assignments by functions from
before the block, all that it finds to reach a statement, to be bound by it or to be read by it the
other finds as well.
-/

namespace Lineage

namespace Flow

/-! ### Two analyses of a tree -/

/-- Both facts are of one statement and agree on the names that may have their value from before the
block and on what calling the statement's functions or running unknown code means; nothing is said
of origins inside the block. -/
structure StatementFacts.Agree (f g : StatementFacts) : Prop where
  index : f.index = g.index
  node : f.node = g.node
  entry : ∀ name, .entry ∈ f.entry.reaching name ↔ .entry ∈ g.entry.reaching name
  external : f.external = g.external
  free : f.free = g.free
  globalWrites : f.globalWrites = g.globalWrites
  dynamic : f.dynamic = g.dynamic

/-- All that the first facts find to reach the statement, to be bound by it or to be read by it the
second find, too. -/
structure StatementFacts.Contained (f g : StatementFacts) : Prop where
  entry : ∀ name, ∀ origin ∈ f.entry.reaching name, origin ∈ g.entry.reaching name
  definitions : ∀ d ∈ f.definitions, d ∈ g.definitions
  data : ∀ edge ∈ f.inbound, edge.kind = .data → edge ∈ g.inbound

namespace Result

/-- Two analyses of one tree that find the same names possibly unset everywhere. -/
structure Agree (r s : Result) : Prop where
  size : r.statements.size = s.statements.size
  statements : ∀ (k : Nat) (f g : StatementFacts), r.statements[k]? = some f →
    s.statements[k]? = some g → f.Agree g
  exit : ∀ name, .entry ∈ r.reachingAtExit name ↔ .entry ∈ s.reachingAtExit name
  definite : ∀ name, r.definitelyDefines name = s.definitelyDefines name

/-- The second analysis finds all that the first finds. -/
structure Contained (r s : Result) : Prop where
  statements : ∀ (k : Nat) (f g : StatementFacts), r.statements[k]? = some f →
    s.statements[k]? = some g → f.Contained g
  exit : ∀ name, ∀ origin ∈ r.reachingAtExit name, origin ∈ s.reachingAtExit name

variable {p q : Progress}

theorem agree_of_underLeader (size : p.facts.size = q.facts.size) (behind : p.UnderLeader False q q)
    (ahead : q.UnderLeader False p p) : p.result.Agree q.result where
  size := size
  statements k f g found there := by
    obtain ⟨g', found', under⟩ := behind.facts k f found
    obtain rfl : g = g' := Option.some.inj (there.symm.trans found')
    obtain ⟨f', again, back⟩ := ahead.facts k g there
    obtain rfl : f = f' := Option.some.inj (Eq.trans (Eq.symm found) again)
    exact {
      index := back.index
      node := back.node
      entry := fun name => ⟨under.entry name _ (Or.inr rfl), back.entry name _ (Or.inr rfl)⟩
      external := Std.ExtTreeSet.ext_mem fun name => ⟨under.external name, back.external name⟩
      free := Std.ExtTreeSet.ext_mem fun name => ⟨under.free name, back.free name⟩
      globalWrites := Std.ExtTreeSet.ext_mem
        fun name => ⟨under.globalWrites name, back.globalWrites name⟩
      dynamic := Bool.eq_iff_iff.mpr ⟨under.dynamic, back.dynamic⟩ }
  exit name := ⟨behind.state name _ (Or.inr rfl), ahead.state name _ (Or.inr rfl)⟩
  definite name := by
    rw [definitelyDefines, definitelyDefines, Bool.eq_iff_iff, Bool.not_eq_true', Bool.not_eq_true',
      Bool.eq_false_iff, Bool.eq_false_iff, not_iff_not]
    exact ⟨behind.state name _ (Or.inr rfl), ahead.state name _ (Or.inr rfl)⟩

theorem contained_of_underLeader (behind : p.UnderLeader True q q) :
    p.result.Contained q.result where
  statements k f g found there := by
    obtain ⟨g', found', under⟩ := behind.facts k f found
    obtain rfl : g = g' := Option.some.inj (there.symm.trans found')
    exact ⟨fun name origin => under.entry name origin (Or.inl trivial),
      fun d member => under.definitions d member (Or.inl trivial), under.data trivial⟩
  exit name origin := behind.state name origin (Or.inl trivial)

end Result

/-- Knowing more of the callees only takes away. For the same names of unknown code, two analyses of
a tree agree on which names are external, which may be unset and which are bound for certain,
whatever is known of callees and of the functions from before. If the second knows all callees to be
pure that the first does, and of no assignments that the first does not know of, everything that it
finds the first finds. -/
theorem analyze_of_effects {first second : Settings}
    (same : first.dynamicNames = second.dynamicNames) (more less : GlobalWrites) {tree : Node}
    {r : Result} (analyzed : analyze first more tree = .ok r) :
      ∃ s, analyze second less tree = .ok s ∧ r.Agree s ∧
          ((∀ callee : Node, first.effects.isPure callee.dottedPath callee.memberName = true →
            second.effects.isPure callee.dottedPath callee.memberName = true) →
        (∀ function, ∀ name ∈ less.getD function ∅, name ∈ more.getD
            function ∅) → s.Contained r) := by
  obtain ⟨faultless, rfl⟩ := analyze_eq_ok analyzed
  have plain := Node.plain_of_blockFault faultless
  let a : Env := .ofModule second less tree.code
  let b : Env := .ofModule first more tree.code
  have akin : a.SameDynamicNames b := same.symm
  have does : ∀ m ∈ Node.blockStatements tree.code, m.kind.isCompound = false →
      flatActions a m = flatActions b m := by
    intro m member _
    rw [Node.blockStatements_eq_flatMap] at member
    obtain ⟨c, own, inside⟩ := List.mem_flatMap.mp member
    have everywhere := Node.everywhere_of_blockFault faultless c own
    exact (akin.flatActions_eq everywhere).throughout m inside
  refine ⟨analyzeBlock second less tree.code, ?_, ?_, fun pure writes => ?_⟩
  · rw [analyze, faultless]
  · refine Result.agree_of_underLeader ?_ (underLeader_visitBlock akin.symm.milder [] plain
      fun m member flat => (does m member flat).symm)
      (underLeader_visitBlock akin.milder [] plain does)
    exact (size_visitBlock b [] plain).trans (size_visitBlock a [] plain).symm
  · exact Result.contained_of_underLeader
      (underLeader_visitBlock ⟨akin, fun _ => pure, fun _ => writes⟩ [] plain does)

/-- `data = start`, and then `while data:` with `show(data)` and `bump()`. -/
def shownAndBumped : List Node :=
  [.assign ⟨1, 0, 1, 12⟩ [.name default "data"] (some (.name default "start")) none none false,
    .whileLoop ⟨2, 0, 4, 10⟩ default (.name default "data")
      [.expression ⟨3, 4, 3, 14⟩ (.call default (.name default "show") [.name default "data"] []),
        .expression ⟨4, 4, 4, 10⟩ (.call default (.name default "bump") [] [])] none]

/-- Settings in which `show` is known to be pure. -/
def showingIsPure : Settings :=
  ⟨.ofEntries [("show", true)], ∅⟩

/-- A loop that calls two functions. To an analysis that knows nothing of one and of the other that
it assigns a global name, the calls may change both; one that knows better finds less, but the same
names external. -/
theorem analyze_of_effects_bumped :
    (∀ callee : Node, EffectTable.isPure ∅ callee.dottedPath callee.memberName = true →
      showingIsPure.effects.isPure callee.dottedPath callee.memberName = true) ∧
    (∀ function, ∀ name ∈ (∅ : GlobalWrites).getD function ∅,
      name ∈ ((∅ : GlobalWrites).insert "bump" {"total"}).getD function ∅) ∧
    ∃ r s, analyze ⟨∅, ∅⟩ ((∅ : GlobalWrites).insert "bump" {"total"})
      (.module default shownAndBumped) = .ok r ∧
      analyze showingIsPure ∅ (.module default shownAndBumped) = .ok s ∧ r.Agree s ∧ s.Contained r ∧
      .statement 2 ∈ r.reachingAtExit "data" ∧ .statement 2 ∉ s.reachingAtExit "data" ∧
      .statement 3 ∈ r.reachingAtExit "total" ∧ .statement 3 ∉ s.reachingAtExit "total" ∧
      r.definitelyDefines "data" = true ∧ r.definitelyDefines "total" = false := by
  have pure : ∀ callee : Node, EffectTable.isPure ∅ callee.dottedPath callee.memberName = true →
      showingIsPure.effects.isPure callee.dottedPath callee.memberName = true := by
    intro callee known
    have unknown : EffectTable.isPure ∅ callee.dottedPath callee.memberName = false := by
      unfold EffectTable.isPure
      cases callee.dottedPath <;> cases callee.memberName <;> simp
    exact absurd (unknown.symm.trans known) Bool.false_ne_true
  have writes : ∀ function, ∀ name ∈ (∅ : GlobalWrites).getD function ∅,
      name ∈ ((∅ : GlobalWrites).insert "bump" {"total"}).getD function ∅ := by
    intro function name member
    simp at member
  have same : (⟨∅, ∅⟩ : Settings).dynamicNames = showingIsPure.dynamicNames := rfl
  have known : ∃ r, analyze ⟨∅, ∅⟩ ((∅ : GlobalWrites).insert "bump" {"total"})
      (.module default shownAndBumped) = .ok r :=
    ⟨_, rfl⟩
  obtain ⟨r, known⟩ := known
  obtain ⟨s, better, agree, contained⟩ := analyze_of_effects same _ ∅ known
  refine ⟨pure, writes, r, s, known, better, agree, contained pure writes, ?_⟩
  obtain rfl := (analyze_eq_ok known).2
  obtain rfl := (analyze_eq_ok better).2
  decide +kernel

end Flow

end Lineage
