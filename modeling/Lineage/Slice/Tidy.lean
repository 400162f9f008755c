import Lineage.Magic.Token
import Lineage.Tree.Parse

/-!
Spacing of source that is to be shown: an assignment sign has a space on either side, and a comma
has one behind it. Source that cannot be read is left alone.
-/

namespace Lineage.Slice

open Magic

/-- Whether a token is the sign of an assignment, if it stands outside brackets. -/
def isAssignmentSign (text : List Char) : Bool :=
  ["=", "+=", "-=", "*=", "/=", "//=", "%=", "@=", "&=", "|=", "^=", ">>=", "<<=", "**="].contains
    (String.ofList text)

/-- The places in a statement, as lines and columns, where a space is wanted. `depth` counts the
brackets that are open; behind `lambda` a sign gives a default value and no assignment. -/
def wantedSpaces (depth : Nat) (inLambda : Bool) : List RoughToken → List (Nat × Nat)
  | [] => []
  | t :: rest =>
    let step := bracketStep t.text
    let next := wantedSpaces (if 0 < step then depth + 1 else if step < 0 then depth - 1 else depth)
      (inLambda || t.text = "lambda".toList) rest
    if t.kind != .other then next
    else if t.text = [','] then
      if rest.head?.any fun r => bracketStep r.text < 0 then next
      else (t.line, t.column + 1) :: next
    else if depth = 0 && !inLambda && isAssignmentSign t.text then
      (t.line, t.column) :: (t.line, t.column + t.text.length) :: next
    else next

/-- Puts spaces into a line at columns, wherever there is no white space yet. `before` tells whether
white space is in front. -/
def putSpaces (wanted : Nat → Bool) (column : Nat) (before : Bool) : List Char → List Char
  | [] => []
  | c :: rest =>
    let blank := Text.isBlank c
    let rest := c :: putSpaces wanted (column + 1) blank rest
    if wanted column && !before && !blank then ' ' :: rest else rest

/-- Puts spaces into lines, of which the first has an index. -/
def putAllSpaces (wanted : List (Nat × Nat)) (line : Nat) : List (List Char) → List (List Char)
  | [] => []
  | text :: rest =>
    putSpaces (fun column => wanted.contains (line, column)) 0 true text :: putAllSpaces wanted
      (line + 1) rest

/-- Source with its spacing in order and no white space around it; source that cannot be read is
left as it is. -/
def tidy (text : String) : String :=
  match Node.parse text with
  | .error _ => text
  | .ok _ =>
    let lines := (Text.wideLines text).map Text.Line.chars
    let wanted := ((statementTokens lines).getD []).flatMap (wantedSpaces 0 false)
    String.ofList (Text.trim (putAllSpaces wanted 0 lines).flatten)

end Lineage.Slice
