import Lineage.Tree.Walk

/-!
Blocks of statements: the clauses of a compound statement, the statements that run as part of a
node, and the jumps that leave or restart a loop. The bodies of functions and classes run in scopes
of their own and are not entered.
-/

namespace Lineage

/-- A clause as a block: its header and its statements. -/
abbrev Block := Location × List Node

/-- The block of an optional clause. -/
def Clause.blocks : Option (Clause Node) → List Block
  | none => []
  | some clause => [(clause.header, clause.body)]

namespace Node

/-- The blocks of a compound statement or a module, in order. -/
def clauseBlocks : Node → List Block
  | .module loc code => [(loc, code)]
  | .branch _ header _ code elifs orelse =>
    (header, code) :: elifs.map (fun e => (e.header, e.body)) ++ Clause.blocks orelse
  | .whileLoop _ header _ code orelse => (header, code) :: Clause.blocks orelse
  | .forLoop _ header _ _ code orelse _ => (header, code) :: Clause.blocks orelse
  | .attempt _ header code handlers orelse final =>
    (header, code) :: handlers.map (fun h => (h.header, h.body)) ++ Clause.blocks orelse ++
      Clause.blocks final
  | .context _ header _ code _ => [(header, code)]
  | _ => []

mutual

/-- Every statement that is reached from a node through its blocks, in the order of the source. -/
def statements : Node → List Node
  | .module _ code => blockStatements code
  | .branch _ _ _ code elifs orelse =>
    blockStatements code ++ elifStatements elifs ++ clauseStatements orelse
  | .whileLoop _ _ _ code orelse => blockStatements code ++ clauseStatements orelse
  | .forLoop _ _ _ _ code orelse _ => blockStatements code ++ clauseStatements orelse
  | .attempt _ _ code handlers orelse final =>
    blockStatements code ++ handlerStatements handlers ++ clauseStatements orelse ++
      clauseStatements final
  | .context _ _ _ code _ => blockStatements code
  | _ => []

/-- The statements of a block, each with those inside it. -/
def blockStatements : List Node → List Node
  | [] => []
  | n :: rest => n :: statements n ++ blockStatements rest

/-- The statements of `elif` clauses. -/
def elifStatements : List (Elif Node) → List Node
  | [] => []
  | ⟨_, _, body⟩ :: rest => blockStatements body ++ elifStatements rest

/-- The statements of `except` clauses. -/
def handlerStatements : List (Handler Node) → List Node
  | [] => []
  | ⟨_, body, _, _⟩ :: rest => blockStatements body ++ handlerStatements rest

/-- The statements of an optional clause. -/
def clauseStatements : Option (Clause Node) → List Node
  | none => []
  | some ⟨_, body⟩ => blockStatements body

end

mutual

/-- The jumps inside a statement that belong to the loop around it. Those in the body of a loop
belong to that loop; those in its `else` clause do not. -/
def jumps : Node → List Node
  | n@(.break _) => [n]
  | n@(.continue _) => [n]
  | .whileLoop _ _ _ _ orelse => clauseJumps orelse
  | .forLoop _ _ _ _ _ orelse _ => clauseJumps orelse
  | .module _ code => blockJumps code
  | .branch _ _ _ code elifs orelse => blockJumps code ++ elifJumps elifs ++ clauseJumps orelse
  | .attempt _ _ code handlers orelse final =>
    blockJumps code ++ handlerJumps handlers ++ clauseJumps orelse ++ clauseJumps final
  | .context _ _ _ code _ => blockJumps code
  | _ => []

/-- The jumps in a block. -/
def blockJumps : List Node → List Node
  | [] => []
  | n :: rest => jumps n ++ blockJumps rest

/-- The jumps in `elif` clauses. -/
def elifJumps : List (Elif Node) → List Node
  | [] => []
  | ⟨_, _, body⟩ :: rest => blockJumps body ++ elifJumps rest

/-- The jumps in `except` clauses. -/
def handlerJumps : List (Handler Node) → List Node
  | [] => []
  | ⟨_, body, _, _⟩ :: rest => blockJumps body ++ handlerJumps rest

/-- The jumps in an optional clause. -/
def clauseJumps : Option (Clause Node) → List Node
  | none => []
  | some ⟨_, body⟩ => blockJumps body

end

/-- The `break` and `continue` statements that leave or restart a loop. -/
def loopJumps : Node → List Node
  | .whileLoop _ _ _ code _ => blockJumps code
  | .forLoop _ _ _ _ code _ _ => blockJumps code
  | _ => []

end Node

end Lineage
