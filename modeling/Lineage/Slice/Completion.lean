import Lineage.Slice.Closure

/-!
What has to join a closure so that its lines make a program: no block of a needed statement may be
empty, the jumps of a needed loop stay in it, and statements that share a line go together.
-/

namespace Lineage.Slice

/-- The indices of the statements at the places of some nodes. -/
def indicesAt (r : Flow.Result) (nodes : List Node) : List Int :=
  nodes.filterMap fun n => (r.at? n.loc).map fun f => (f.index : Int)

/-- The first statement of a block none of whose statements is needed. -/
def missingFrom (r : Flow.Result) (needed : List Int) (block : List Node) : Option Int :=
  let indices := indicesAt r block
  if indices.any needed.contains then none else indices.head?

/-- What a needed statement brings along: a statement of each of its blocks, and its jumps if it is
a loop. -/
def broughtAlong (r : Flow.Result) (needed : List Int) (f : Flow.StatementFacts) : List Int :=
  f.node.clauseBlocks.filterMap (fun block => missingFrom r needed block.2) ++
    (indicesAt r f.node.loopJumps).filter fun k => !needed.contains k

/-- Whether two statements share a line. -/
def sharesLine (f g : Flow.StatementFacts) : Bool :=
  f.spans.any fun (first, last) => g.spans.any fun (a, b) => decide (max first a ≤ min last b)

/-- The statements that have to join the needed ones of an execution. -/
def missingIn (r : Flow.Result) (needed : List Int) : List Int :=
  let found := r.statements.toList.filter fun f => needed.contains f.index
  let others := r.statements.toList.filter fun f => !needed.contains f.index
  found.flatMap (broughtAlong r needed) ++
    (others.filter fun f => found.any (sharesLine f)).map fun f => (f.index : Int)

namespace Closure

/-- The statements that have to join a closure. -/
def missing (s : Scene) (c : Closure) : List Timestamp :=
  c.ordinals.flatMap fun ordinal =>
    match (s.log.at? ordinal).bind Execution.facts? with
    | none => []
    | some r => (missingIn r (c.indicesOf ordinal)).map fun k => ⟨ordinal, k⟩

/-- Lets statements join until none is missing. Each round brings in a new one, so there need not be
more rounds than statements. -/
def complete (s : Scene) : (rounds : Nat) → Closure → Closure
  | 0, c => c
  | rounds + 1, c =>
    match (c.missing s).filter fun t => !c.included.contains t with
    | [] => c
    | extra => complete s rounds (c.require s none extra)

end Closure

end Lineage.Slice
