import Lineage.Notebook.Value

/-!
What running a cell put out.
-/

namespace Lineage.Notebook

/-- The kinds of output. -/
inductive OutputKind where
  | executeResult
  | displayData
  | stream
  | error
deriving DecidableEq, Repr

namespace OutputKind

/-- The word for a kind of output. -/
def word : OutputKind → String
  | executeResult => "execute_result"
  | displayData => "display_data"
  | stream => "stream"
  | error => "error"

/-- The kind that a word names; whatever names none is data on display. -/
def ofWord : String → OutputKind
  | "execute_result" => executeResult
  | "stream" => stream
  | "error" => error
  | _ => displayData

@[simp] theorem ofWord_word (k : OutputKind) : ofWord k.word = k := by
  cases k <;> rfl

/-- The kind that a value names. -/
def ofValue : Option Value → OutputKind
  | some (.text s) => ofWord s
  | _ => displayData

end OutputKind

/-- An output: its kind and all else that is known of it. -/
structure Output where
  kind : OutputKind
  payload : Fields

namespace Output

/-- The field that holds the kind of an output. -/
def kindField : String := "output_type"

/-- The output that some fields describe. -/
def ofFields (fields : Fields) : Output :=
  ⟨.ofValue (fields.get? kindField), fields.without kindField⟩

/-- The fields that describe an output. -/
def toFields (o : Output) : Fields :=
  (kindField, .text o.kind.word) :: o.payload

end Output

/-- Why a value has not the shape of what it is to describe. -/
inductive ShapeError where
  | wrongType
  | noFields
  | missing (field : String)
  | notCode (type : String)
  | notNumeral (text : String)
deriving DecidableEq, Repr

/-- The error in words; where only the shape is at fault, there are none. -/
def ShapeError.message? : ShapeError → Option String
  | wrongType => none
  | noFields => none
  | missing field => some (String.ofList (Text.quoted field.toList))
  | notCode type => some ("only code cells can be logged, got " ++ type)
  | notNumeral text =>
    some ("invalid literal for int() with base 10: " ++ String.ofList (Text.quoted text.toList))

/-- The outputs that a list of values describes. -/
def outputsOfList : List Value → Except ShapeError (List Output)
  | [] => .ok []
  | .object fields :: rest => do return .ofFields fields :: (← outputsOfList rest)
  | _ :: _ => .error .noFields

/-- The outputs that a value describes, if there is one. Whatever holds things can hold none of
them. -/
def outputsOfValue : Option Value → Except ShapeError (List Output)
  | none => .ok []
  | some (.list items) => outputsOfList items
  | some (.object fields) => if fields.isEmpty then .ok [] else .error .noFields
  | some (.text s) => if s.isEmpty then .ok [] else .error .noFields
  | some _ => .error .wrongType

end Lineage.Notebook
