import Lineage.Notebook.Output

/-!
Cells of a notebook as they are run. A cell keeps an id over its runs; it is stored among the cell's
metadata when it is first seen.
-/

namespace Lineage.Notebook

/-- A cell that is run. -/
structure Cell where
  id : String
  text : String
  count : Option Int
  outputs : List Output

namespace Cell

/-- Whether running the cell ended in an error. -/
def hasError (c : Cell) : Bool :=
  c.outputs.any fun o => o.kind = .error

/-- The field of a cell's metadata that holds its id. -/
def idField : String := "persistent_id"

/-- A count, if a value is one. -/
def countOfValue : Option Value → Option Int
  | some (.number n 0) => some n
  | _ => none

/-- Joins the texts of a list. -/
def joinTexts : List Value → Except ShapeError String
  | [] => .ok ""
  | .text s :: rest => do return s ++ (← joinTexts rest)
  | _ :: _ => .error .wrongType

/-- The source of a cell: a text, or texts to be joined. -/
def sourceOfValue : Option Value → Except ShapeError String
  | none => .ok ""
  | some (.text s) => .ok s
  | some (.list items) => joinTexts items
  | some (.object fields) => .ok (String.join (fields.map Prod.fst))
  | some _ => .error .wrongType

/-- Only cells of code can be run. -/
def checkCode : Option Value → Except ShapeError Unit
  | none => .ok ()
  | some (.text "code") => .ok ()
  | some v => .error (.notCode v.shown)

/-- The metadata of a cell with an id in it: the one it has, or else a fresh one. -/
def withId (fresh : String) : Option Value → Except ShapeError Fields
  | none => .ok [(idField, .text fresh)]
  | some (.object fields) =>
    .ok (if Fields.has fields idField then fields else Fields.set fields idField (.text fresh))
  | some _ => .error .wrongType

/-- The id in a cell's metadata. -/
def idOfFields (metadata : Fields) : Except ShapeError String :=
  match metadata.get? idField with
  | some (.text id) => .ok id
  | some _ => .error .wrongType
  | none => .error (.missing idField)

/-- Reads a cell from the fields it has in a notebook file. If it has no id it is given the fresh
one; the fields come back with the id in them. -/
def ofFields (fresh : String) (fields : Fields) : Except ShapeError (Cell × Fields) := do
  checkCode (fields.get? "cell_type")
  let metadata ← withId fresh (fields.get? "metadata")
  let text ← sourceOfValue (fields.get? "source")
  let outputs ← outputsOfValue (fields.get? "outputs")
  let id ← idOfFields metadata
  return (⟨id, text, countOfValue (fields.get? "execution_count"), outputs⟩,
    fields.set "metadata" (.object metadata))

end Cell

end Lineage.Notebook
