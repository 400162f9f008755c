import Lineage.Magic.Command
import Lineage.Magic.Prompt

/-!
The plain source of a cell: blank lines in front, common indentation and prompts go, and commands to
the notebook become calls.
-/

namespace Lineage.Magic

open Lineage.Text

/-- Ends the last line of a text. -/
def endLine (text : List Char) : List Char :=
  if text.getLast? = some '\n' then text else text ++ ['\n']

/-- Drops the blank lines in front, unless there are no others. -/
def dropBlankLines (lines : List (List Char)) : List (List Char) :=
  match lines.dropWhile fun line => line.all isBlank with
  | [] => lines
  | rest => rest

/-- Whether a first line asks for help on a magic for whole cells. -/
def asksForHelp (line : List Char) : Bool :=
  match line with
  | '%' :: '%' :: rest =>
    rest.head?.any isWordChar && (rest.dropWhile isWordChar).head? = some '?'
  | _ => false

/-- A cell that is handed to a magic as a whole. -/
def wholeCell (lines : List (List Char)) : List (List Char) :=
  match lines with
  | ('%' :: '%' :: first) :: body =>
    if asksForHelp ('%' :: '%' :: first) then lines
    else
      let (name, args) := splitAtSpace (trimEnd first)
      [notebookCall "run_cell_magic" [name, args, body.flatten] ++ ['\n']]
  | _ => lines

/-- The most commands that a cell may have, with one round more to see that none is left. -/
def commandLimit : Nat := 500

/-- The plain source of a cell, or the reason why it has none. -/
def expand (text : String) : Except Obstacle String :=
  let lines := dropBlankLines (keptLines (endLine text.toList))
  let lines := keptLines (dedent lines.flatten)
  let lines := wholeCell (dropNumbered (dropArrows lines))
  (replaceAll commandLimit lines).map fun lines => String.ofList lines.flatten

/-- The plain source of a cell; a cell that has none is left as it is. -/
def plainSource (text : String) : String :=
  (expand text).toOption.getD text

end Lineage.Magic
