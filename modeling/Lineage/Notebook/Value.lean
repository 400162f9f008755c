import Lineage.Text.Quoted

/-!
Values as they stand in notebook files: the data of outputs, whose meaning does not matter here, and
the fields of cells and records, which are to have a certain shape.
-/

namespace Lineage.Notebook

/-- A value. A number is its mantissa shifted right by so many decimal places. -/
inductive Value where
  | null
  | bool (b : Bool)
  | number (mantissa : Int) (places : Nat)
  | text (s : String)
  | list (items : List Value)
  | object (fields : List (String × Value))

instance : Inhabited Value := ⟨.null⟩

/-- The fields of an object, in order. -/
abbrev Fields := List (String × Value)

namespace Fields

/-- The value of a field. -/
def get? (fields : Fields) (key : String) : Option Value :=
  (fields.find? fun f => f.1 == key).map Prod.snd

/-- Whether there is a field. -/
def has (fields : Fields) (key : String) : Bool :=
  fields.any fun f => f.1 == key

/-- Sets a field: in its place if it is there, and else behind the others. -/
def set (fields : Fields) (key : String) (v : Value) : Fields :=
  if has fields key then fields.map fun f => if f.1 == key then (key, v) else f
  else fields ++ [(key, v)]

/-- The fields without one. -/
def without (fields : Fields) (key : String) : Fields :=
  fields.filter fun f => f.1 != key

end Fields

namespace Value

/-- A number in decimal notation. -/
def decimal (mantissa : Int) (places : Nat) : String :=
  if places = 0 then toString mantissa
  else
    let digits := (Nat.toDigits 10 mantissa.natAbs)
    let digits := List.replicate (places + 1 - digits.length) '0' ++ digits
    let whole := digits.take (digits.length - places)
    let fraction := digits.drop (digits.length - places)
    String.ofList ((if mantissa < 0 then ['-'] else []) ++ whole ++ '.' :: fraction)

mutual

/-- A value as it is written in a program. -/
def literal : Value → String
  | null => "None"
  | bool true => "True"
  | bool false => "False"
  | number mantissa places => decimal mantissa places
  | text s => String.ofList (Text.quoted s.toList)
  | list items => "[" ++ ", ".intercalate (literals items) ++ "]"
  | object fields => "\x7b" ++ ", ".intercalate (entries fields) ++ "\x7d"

/-- Values as they are written in a program. -/
def literals : List Value → List String
  | [] => []
  | v :: rest => literal v :: literals rest

/-- Fields as they are written in a program. -/
def entries : List (String × Value) → List String
  | [] => []
  | (key, v) :: rest => (String.ofList (Text.quoted key.toList) ++ ": " ++ literal v) ::
      entries rest

end

/-- A value as it is shown: a text stands for itself. -/
def shown : Value → String
  | text s => s
  | v => literal v

/-- A value that says yes or no: a truth value, or the number one or zero. -/
def flag? : Value → Option Bool
  | bool b => some b
  | number 1 0 => some true
  | number 0 0 => some false
  | _ => none

end Value

end Lineage.Notebook
