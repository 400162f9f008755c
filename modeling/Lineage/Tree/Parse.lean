import Lineage.Tree.Build

/-!
Reading the tree of a text, and the errors that refuse one.
-/

namespace Lineage

/-- Why and where a text was refused. Lines count from one and columns from zero. -/
structure ParseError where
  message : String
  line : Option Int
  column : Option Int
deriving DecidableEq, Repr

namespace ParseError

/-- The error for a complaint whose column counts from one. A complaint without words is known by
its place in a text without a name. -/
def ofComplaint (message : String) (line offset : Option Int) : ParseError where
  message :=
    if message.isEmpty then
      match line with
      | none => " (<unknown>)"
      | some n => s!" (<unknown>, line {n})"
    else message
  line := line
  column := offset.map fun k => max (k - 1) 0

/-- The error in words. -/
def description (e : ParseError) : String :=
  match e.line with
  | none => e.message
  | some n => s!"{e.message} (line {n})"

/-- The error for a text that the grammar does not read. -/
def ofFailure : Grammar.ParseFailure → ParseError
  | .refused r =>
    match r.reason with
    | .nulCharacter => ⟨r.reason.message, none, none⟩
    | reason => ⟨reason.message, some r.place.line, some r.place.column⟩
  | .ungrammatical => ⟨"invalid syntax", none, none⟩

end ParseError

/-- The tree of a text, or the reason why it has none. A literal that names a character in full, as
`\N{DASH}` does, is not known here, and a text with one has no tree. -/
def Node.parse (text : String) : Except ParseError Node :=
  match Grammar.Module.parse text with
  | .error f => .error (.ofFailure f)
  | .ok m => .ok (Node.ofModule (Source.ofText text) m)

end Lineage
