import Lineage.Grammar.Expr

/-!
Statements and modules as the grammar reads them.
-/

namespace Lineage.Grammar

/-- An `except` clause as it is read: its header is not yet told apart from its body. -/
structure ExceptClause (ε σ : Type) where
  loc : Location
  type : Option ε
  name : Option String
  body : List σ

/-- A statement. Of a `match` statement only its place is kept. A location covers the whole
statement; that of a decorated definition starts at the definition's own first word. -/
inductive Stmt where
  | functionDef (loc : Location) (name : String) (params : Arguments Expr) (returns : Option Expr)
      (body : List Stmt) (decorators : List Expr) (isAsync : Bool)
  | classDef (loc : Location) (name : String) (bases : List Expr) (keywords : List (Keyword Expr))
      (body : List Stmt) (decorators : List Expr)
  | returning (loc : Location) (value : Option Expr)
  | delete (loc : Location) (targets : List Expr)
  | assign (loc : Location) (targets : List Expr) (value : Expr)
  | augment (loc : Location) (target : Expr) (op : String) (value : Expr)
  | annotate (loc : Location) (target hint : Expr) (value : Option Expr)
  | forLoop (loc : Location) (target iter : Expr) (body orelse : List Stmt) (isAsync : Bool)
  | whileLoop (loc : Location) (test : Expr) (body orelse : List Stmt)
  | branch (loc : Location) (test : Expr) (body orelse : List Stmt)
  | context (loc : Location) (items : List (WithItem Expr)) (body : List Stmt) (isAsync : Bool)
  | matching (loc : Location)
  | raising (loc : Location) (exception cause : Option Expr)
  | attempt (loc : Location) (body : List Stmt) (handlers : List (ExceptClause Expr Stmt))
      (orelse final : List Stmt)
  | assertion (loc : Location) (test : Expr) (message : Option Expr)
  | imports (loc : Location) (names : List Alias)
  | importsFrom (loc : Location) (base : String) (level : Nat) (names : List Alias)
  | global (loc : Location) (names : List String)
  | nonlocal (loc : Location) (names : List String)
  | expression (loc : Location) (value : Expr)
  | pass (loc : Location)
  | break (loc : Location)
  | continue (loc : Location)

/-- Where a statement stands. -/
def Stmt.loc : Stmt → Location
  | .functionDef loc .. | .classDef loc .. | .returning loc .. | .delete loc .. | .assign loc ..
  | .augment loc .. | .annotate loc .. | .forLoop loc .. | .whileLoop loc .. | .branch loc ..
  | .context loc .. | .matching loc | .raising loc .. | .attempt loc .. | .assertion loc ..
  | .imports loc .. | .importsFrom loc .. | .global loc .. | .nonlocal loc .. | .expression loc ..
  | .pass loc | .break loc | .continue loc => loc

/-- The decorators of a definition. -/
def Stmt.decorators : Stmt → List Expr
  | .functionDef _ _ _ _ _ decorators _ => decorators
  | .classDef _ _ _ _ _ decorators => decorators
  | _ => []

/-- The statements of a whole text. -/
structure Module where
  body : List Stmt

end Lineage.Grammar
