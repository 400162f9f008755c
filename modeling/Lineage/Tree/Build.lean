import Lineage.Grammar.Statement
import Lineage.Text.Blank
import Lineage.Text.Lines
import Lineage.Tree.Node

/-!
From modules of the grammar to trees. Definitions and clauses get the lines they take up on display,
which the grammar does not know: a header ends on the line in front of its body, and the words
`elif`, `else` and `finally` are looked for among the lines between two blocks.
-/

namespace Lineage

open Grammar (Expr Stmt)

/-- The lines of a text on display. -/
structure Page where
  lines : Array (List Char)

namespace Page

/-- The page of a text. -/
def ofText (text : String) : Page :=
  ⟨((Text.wideLines text).map Text.Line.content).toArray⟩

/-- The characters on a line; lines outside the text are empty. -/
def line (p : Page) (number : Int) : List Char :=
  if 1 ≤ number then (p.lines[(number - 1).toNat]?).getD [] else []

/-- The number of characters on a line. -/
def width (p : Page) (number : Int) : Int :=
  (p.line number).length

/-- Whether the first word on a line starts with the given one. -/
def startsWith (p : Page) (number : Int) (word : String) : Bool :=
  word.toList.isPrefixOf (Text.trimStart (p.line number))

/-- How far a line is indented. -/
def indent (p : Page) (number : Int) : Int :=
  (p.line number).length - (Text.trimStart (p.line number)).length

/-- From a column of one line to the end of another, which is not in front of the first. -/
def span (p : Page) (first column last : Int) : Location :=
  let last := max first last
  ⟨first, column, last, p.width last⟩

/-- The place of a whole text. -/
def whole (p : Page) : Location :=
  ⟨1, 0, max p.lines.size 1, p.width p.lines.size⟩

end Page

namespace Grammar

/-- The first line of a statement, its decorators included. -/
def Stmt.firstLine (s : Stmt) : Int :=
  (s.decorators.map fun d => d.loc.firstLine).foldl min s.loc.firstLine

/-- The first line of a block. -/
def firstLine (body : List Stmt) : Int :=
  (body.head?.map Stmt.firstLine).getD 0

/-- The last line of a block. -/
def lastLine (body : List Stmt) : Int :=
  (body.getLast?.map fun s => s.loc.lastLine).getD 0

end Grammar

namespace Page

/-- The header of a statement or clause in front of its body. -/
def header (p : Page) (loc : Location) (body : List Stmt) : Location :=
  p.span loc.firstLine loc.firstColumn (Grammar.firstLine body - 1)

/-- The first line from `line` on, among `count` lines, that starts with the word. -/
def findWord (p : Page) (word : String) : (count : Nat) → (line : Int) → Option Int
  | 0, _ => none
  | count + 1, line => if p.startsWith line word then some line else p.findWord word count
      (line + 1)

/-- The header of an `else` or `finally` clause, which stands between the line `after` and its
body. -/
def wordHeader (p : Page) (word : String) (after : Int) (body : List Stmt) : Location :=
  let bodyLine := Grammar.firstLine body
  let first := (p.findWord word (bodyLine - after).toNat (after + 1)).getD (after + 1)
  p.span first (p.indent first) (bodyLine - 1)

end Page

/-- Takes the characters in the first `n` bytes. -/
def takeBytes : (n : Nat) → List Char → List Char
  | _, [] => []
  | n, c :: rest => if c.utf8Size ≤ n then c :: takeBytes (n - c.utf8Size) rest else []

/-- Drops the characters in the first `n` bytes. -/
def dropBytes : (n : Nat) → List Char → List Char
  | _, [] => []
  | n, c :: rest => if 0 < n then dropBytes (n - c.utf8Size) rest else c :: rest

/-- The source at a place, given the lines of a text with their endings. -/
def sourceAt (lines : List (List Char)) (loc : Location) : List Char :=
  let before := (loc.firstLine - 1).toNat
  let count := (loc.lastLine - loc.firstLine).toNat
  let here := lines.drop before
  let lead := (here.take count).flatten
  let last := takeBytes loc.lastColumn.toNat ((here.drop count).headD [])
  dropBytes loc.firstColumn.toNat (lead ++ last)

/-- What building a tree needs to know of the text. -/
structure Source where
  page : Page
  lines : List (List Char)

/-- The text as its tree is built from it. -/
def Source.ofText (text : String) : Source :=
  ⟨Page.ofText text, (Text.narrowLines text).map Text.Line.chars⟩

namespace Node

variable (src : Source)

mutual

/-- The node of an expression. Chains of comparisons and conditions become operations on two
operands. A part of a formatted text that stands outside of one is kept as it is written. -/
def ofExpr : Expr → Node
  | .boolean loc op first rest =>
    (ofExprs rest).foldl (fun left right => .binary loc op left right) (ofExpr first)
  | .named loc target value => .assign loc [ofExpr target] (some (ofExpr value)) none none true
  | .binary loc op left right => .binary loc op (ofExpr left) (ofExpr right)
  | .unary loc op operand => .unary loc op (ofExpr operand)
  | .lambda loc params body => .lambda loc (ofArguments params).params (ofExpr body)
  | .conditional loc test body orelse => .conditional loc (ofExpr test) (ofExpr body)
      (ofExpr orelse)
  | .dict loc keys values => .dict loc (List.zipWith Entry.mk (ofOptions keys) (ofExprs values))
  | .set loc items => .set loc (ofExprs items)
  | .comprehension loc flavor element value generators =>
    .comprehension loc flavor.word (ofExpr element) (ofExpr? value) (ofGenerators generators)
  | .await loc value => .unary loc "await" (ofExpr value)
  | .yield loc value => .yielding loc (ofExpr? value) false
  | .yieldFrom loc value => .yielding loc (some (ofExpr value)) true
  | .compare loc left ops comparators =>
    (ops.zip (ofExprs comparators)).foldl (fun left (op, right) => .binary loc op left right)
      (ofExpr left)
  | .call loc func args keywords => .call loc (ofExpr func) (ofExprs args) (ofKeywords keywords)
  | .joined loc values => .formatted loc (ofPieces values)
  | .formatted loc _ _ => .verbatim loc (String.ofList (sourceAt src.lines loc))
  | .constant loc value => .literal loc value
  | .member loc value attr => .member loc (ofExpr value) attr
  | .subscript loc value index => .subscript loc (ofExpr value) (ofExpr index)
  | .starred loc value => .starred loc (ofExpr value)
  | .name loc id => .name loc id
  | .list loc items => .list loc (ofExprs items)
  | .tuple loc items => .tuple loc (ofExprs items)
  | .slice loc lower upper step => .slice loc (ofExpr? lower) (ofExpr? upper) (ofExpr? step)

/-- The nodes of expressions. -/
def ofExprs : List Expr → List Node
  | [] => []
  | e :: rest => ofExpr e :: ofExprs rest

/-- The node of an optional expression. -/
def ofExpr? : Option Expr → Option Node
  | none => none
  | some e => some (ofExpr e)

/-- The nodes of a formatted literal's parts; the format of a part follows its value. -/
def ofPieces : List Expr → List Node
  | [] => []
  | .formatted _ value spec :: rest => ofExpr value :: (ofExpr? spec).toList ++ ofPieces rest
  | e :: rest => ofExpr e :: ofPieces rest

/-- The nodes of expressions that may be absent. -/
def ofOptions : List (Option Expr) → List (Option Node)
  | [] => []
  | o :: rest => ofExpr? o :: ofOptions rest

/-- The nodes in the annotations of parameters. -/
def ofArgs : List (Arg Expr) → List (Arg Node)
  | [] => []
  | ⟨id, hint⟩ :: rest => ⟨id, ofExpr? hint⟩ :: ofArgs rest

/-- The node in the annotation of a parameter that may be absent. -/
def ofArg? : Option (Arg Expr) → Option (Arg Node)
  | none => none
  | some ⟨id, hint⟩ => some ⟨id, ofExpr? hint⟩

/-- The nodes in the parameters of a definition. -/
def ofArguments : Arguments Expr → Arguments Node
  | ⟨posonly, args, vararg, kwonly, kwDefaults, kwarg, defaults⟩ =>
    ⟨ofArgs posonly, ofArgs args, ofArg? vararg, ofArgs kwonly, ofOptions kwDefaults, ofArg? kwarg,
      ofExprs defaults⟩

/-- The nodes in keyword arguments. -/
def ofKeywords : List (Keyword Expr) → List (Keyword Node)
  | [] => []
  | ⟨id, value⟩ :: rest => ⟨id, ofExpr value⟩ :: ofKeywords rest

/-- The nodes in generators. -/
def ofGenerators : List (Generator Expr) → List (Generator Node)
  | [] => []
  | ⟨target, iter, conditions, isAsync⟩ :: rest =>
    ⟨ofExpr target, ofExpr iter, ofExprs conditions, isAsync⟩ :: ofGenerators rest

end

/-- The contexts of a `with` statement. -/
def ofItems (items : List (WithItem Expr)) : List (WithItem Node) :=
  items.map fun i => ⟨ofExpr src i.context, ofExpr? src i.target⟩

/-- A definition with its decorators, which start its place. -/
def decorate (loc : Location) (decorators : List Expr) (definition : Node) : Node :=
  match decorators with
  | [] => definition
  | first :: _ =>
    .decorated (src.page.span first.loc.firstLine loc.firstColumn definition.loc.lastLine)
      (decorators.map fun d => .decorator d.loc (ofExpr src d)) definition

mutual

/-- The node of a statement. -/
def ofStmt : Stmt → Node
  | .functionDef loc id params returns body decorators isAsync =>
    decorate src loc decorators (.function
      (src.page.span loc.firstLine loc.firstColumn (Grammar.lastLine body)) id
      (src.page.header loc body) (ofArguments src params).params (ofExpr? src returns)
      (ofStmts body) isAsync)
  | .classDef loc id bases keywords body decorators =>
    decorate src loc decorators (.classDef
      (src.page.span loc.firstLine loc.firstColumn (Grammar.lastLine body)) id
      (src.page.header loc body) (ofExprs src bases) (ofKeywords src keywords) (ofStmts body))
  | .returning loc value => .returning loc (ofExpr? src value)
  | .delete loc targets => .delete loc (ofExprs src targets)
  | .assign loc targets value => .assign loc (ofExprs src targets) (some (ofExpr src value))
      none none false
  | .augment loc target op value => .assign loc [ofExpr src target] (some (ofExpr src value))
      (some op) none false
  | .annotate loc target hint value =>
    .assign loc [ofExpr src target] (ofExpr? src value) none (some (ofExpr src hint)) false
  | .forLoop loc target iter body orelse isAsync =>
    .forLoop loc (src.page.header loc body) (ofExpr src target) (ofExpr src iter) (ofStmts body)
      (ofClause "else" (Grammar.lastLine body) orelse) isAsync
  | .whileLoop loc test body orelse =>
    .whileLoop loc (src.page.header loc body) (ofExpr src test) (ofStmts body)
      (ofClause "else" (Grammar.lastLine body) orelse)
  | .branch loc test body orelse =>
    let rest := ofBranches (Grammar.lastLine body) orelse
    .branch loc (src.page.header loc body) (ofExpr src test) (ofStmts body) rest.1 rest.2
  | .context loc items body isAsync =>
    .context loc (src.page.header loc body) (ofItems src items) (ofStmts body) isAsync
  | .matching loc => .verbatim loc (String.ofList (sourceAt src.lines loc))
  | .raising loc exception cause => .raising loc (ofExpr? src exception) (ofExpr? src cause)
  | .attempt loc body handlers orelse final =>
    let afterBody := (handlers.getLast?.map fun h => Grammar.lastLine h.body).getD
      (Grammar.lastLine body)
    let afterElse := if orelse.isEmpty then afterBody else Grammar.lastLine orelse
    .attempt loc (src.page.header loc body) (ofStmts body) (ofHandlers handlers)
      (ofClause "else" afterBody orelse) (ofClause "finally" afterElse final)
  | .assertion loc test message => .assertion loc (ofExpr src test) (ofExpr? src message)
  | .imports loc names => .imports loc names
  | .importsFrom loc base level names => .importsFrom loc base level names
  | .global loc names => .global loc names
  | .nonlocal loc names => .nonlocal loc names
  | .expression loc value => .expression loc (ofExpr src value)
  | .pass loc => .pass loc
  | .break loc => .break loc
  | .continue loc => .continue loc

/-- The nodes of statements. -/
def ofStmts : List Stmt → List Node
  | [] => []
  | s :: rest => ofStmt s :: ofStmts rest

/-- The clause that a word introduces, behind the line `after`; none if it has no statements. -/
def ofClause (word : String) (after : Int) : List Stmt → Option (Clause Node)
  | [] => none
  | s :: rest => some ⟨src.page.wordHeader word after (s :: rest), ofStmt s :: ofStmts rest⟩

/-- The `elif` and `else` clauses of a branch, behind the line `after`. A branch that alone makes up
an alternative is an `elif` clause if its line says so. -/
def ofBranches (after : Int) : List Stmt → List (Elif Node) × Option (Clause Node)
  | [] => ([], none)
  | [.branch loc test body orelse] =>
    if src.page.startsWith loc.firstLine "elif" then
      let rest := ofBranches (Grammar.lastLine body) orelse
      (⟨src.page.header loc body, ofExpr src test, ofStmts body⟩ :: rest.1, rest.2)
    else
      let inner := ofBranches (Grammar.lastLine body) orelse
      ([], some ⟨src.page.wordHeader "else" after [.branch loc test body orelse],
        [.branch loc (src.page.header loc body) (ofExpr src test) (ofStmts body) inner.1 inner.2]⟩)
  | s :: rest => ([], some ⟨src.page.wordHeader "else" after (s :: rest), ofStmt s :: ofStmts rest⟩)

/-- The `except` clauses. -/
def ofHandlers : List (Grammar.ExceptClause Expr Stmt) → List (Handler Node)
  | [] => []
  | ⟨loc, type, id, body⟩ :: rest =>
    ⟨src.page.header loc body, ofStmts body, ofExpr? src type, id⟩ :: ofHandlers rest

end

/-- The tree of a module of a text. -/
def ofModule (m : Grammar.Module) : Node :=
  .module src.page.whole (ofStmts src m.body)

end Node

end Lineage
