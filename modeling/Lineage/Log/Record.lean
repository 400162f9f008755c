import Lineage.Log.Basic
import Lineage.Text.Word

/-!
Saving a log as records and restoring it. A record keeps what was run and under which ordinal; all
else is found out anew.
-/

namespace Lineage

open Notebook

namespace Log

/-- The record of an execution. -/
def recordOf (e : Execution) : Fields :=
  [("persistent_id", .text e.id),
    ("ordinal", .number e.ordinal 0),
    ("execution_count", (e.count.map fun n => Value.number n 0).getD .null),
    ("text", .text e.text),
    ("outputs", .list (e.outputs.map fun o => .object o.toFields))]

/-- The records of a log. -/
def toRecords (l : Log) : List Value :=
  l.executions.map fun e => .object (recordOf e)

/-- The number that digits stand for; a single underscore may stand between digits. `started` tells
whether a digit stands in front. -/
def digitsValue (started : Bool) (value : Nat) : List Char → Option Nat
  | [] => if started then some value else none
  | '_' :: d :: rest =>
    if started then (Text.digitValue? d).bind fun k => digitsValue true (value * 10 + k) rest
      else none
  | c :: rest => (Text.digitValue? c).bind fun k => digitsValue true (value * 10 + k) rest

/-- The whole number that a text stands for, white space around it apart. -/
def numeral? (s : String) : Option Int :=
  match Text.trim s.toList with
  | '-' :: digits => (digitsValue false 0 digits).map fun n => -(n : Int)
  | '+' :: digits => (digitsValue false 0 digits).map fun n => (n : Int)
  | digits => (digitsValue false 0 digits).map fun n => (n : Int)

/-- The whole number that a value stands for; what is behind its decimal point is dropped. -/
def wholeNumber : Value → Except ShapeError Int
  | .bool b => .ok (if b then 1 else 0)
  | .number mantissa places => .ok (mantissa.tdiv (Int.pow 10 places))
  | .text s =>
    match numeral? s with
    | some n => .ok n
    | none => .error (.notNumeral s)
  | _ => .error .wrongType

/-- A field that has to be there. -/
def required (fields : Fields) (key : String) : Except ShapeError Value :=
  match fields.get? key with
  | some v => .ok v
  | none => .error (.missing key)

/-- A value that has to be a text. -/
def textOf : Value → Except ShapeError String
  | .text s => .ok s
  | _ => .error .wrongType

/-- The cell and the ordinal that a record holds. -/
def readRecord : Value → Except ShapeError (Cell × Int)
  | .object fields => do
    let text ← required fields "text"
    let outputs ← outputsOfValue (Fields.get? fields "outputs")
    let id ← required fields "persistent_id"
    let ordinal ← wholeNumber (← required fields "ordinal")
    return (⟨← textOf id, ← textOf text, Cell.countOfValue (Fields.get? fields "execution_count"),
      outputs⟩, ordinal)
  | _ => .error .wrongType

/-- Records again what a record holds. -/
def restoreOne (l : Log) (record : Value) : Except LogError Log := do
  let (cell, ordinal) ← (readRecord record).mapError LogError.shape
  return (← l.recordAt cell ordinal).1

/-- Records again what records hold, in order. -/
def restoreAll (l : Log) : List Value → Except LogError Log
  | [] => .ok l
  | record :: rest => do restoreAll (← l.restoreOne record) rest

/-- The log that records describe. -/
def ofRecords (settings : Flow.Settings) (plain : String → String) (epoch : Epoch)
    (records : List Value) : Except LogError Log :=
  (empty settings plain epoch).restoreAll records

end Log

/-- The error in words; where a tree or a shape is at fault there may be none. -/
def LogError.message? : LogError → Option String
  | fault _ => none
  | notIncreasing ordinal last =>
    some ("execution ordinals must strictly increase: got " ++ toString ordinal ++ " after " ++
      toString last)
  | shape error => error.message?

end Lineage
