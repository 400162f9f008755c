import Lineage.Literal.Number

/-!
Escapes in string literals. A backslash in front of a character that starts no escape stands for
itself.
-/

namespace Lineage.Literal

/-- The escapes of one character: the code point each stands for, or nothing for an escaped line
end. -/
def shortEscape (c : Char) : Option (List Nat) :=
  match c with
  | '\n' => some []
  | '\\' => some [0x5c]
  | '\'' => some [0x27]
  | '"' => some [0x22]
  | 'a' => some [7]
  | 'b' => some [8]
  | 't' => some [9]
  | 'n' => some [10]
  | 'v' => some [11]
  | 'f' => some [12]
  | 'r' => some [13]
  | _ => none

/-- The octal escape whose first digit is `d`: its value and the number of digits behind the
first. -/
def octalEscape (d : Char) : List Char → Nat × Nat
  | e :: f :: _ =>
    if Token.isOctal e then
      if Token.isOctal f then (ofDigits 8 [d, e, f], 2) else (ofDigits 8 [d, e], 1)
    else (ofDigits 8 [d], 0)
  | [e] => if Token.isOctal e then (ofDigits 8 [d, e], 1) else (ofDigits 8 [d], 0)
  | [] => (ofDigits 8 [d], 0)

/-- The code point that `width` digits in base sixteen name. -/
def hexEscape (width : Nat) (cs : List Char) : Option Nat :=
  let ds := cs.take width
  let code := ofDigits 16 ds
  if ds.length = width && ds.all Token.isHex && code < 0x110000 then some code else none

/-- The number of digits behind the letter of an escape in base sixteen. -/
def hexWidth (c : Char) : Option Nat :=
  match c with
  | 'x' => some 2
  | 'u' => some 4
  | 'U' => some 8
  | _ => none

/-- The code points of a text literal's body. `skip` counts characters that belong to an escape
already read. No body has a malformed escape; characters named in full are not known, so a body that
names one has no code points. -/
def textCodes : (skip : Nat) → List Char → Option (List Nat)
  | _, [] => some []
  | skip + 1, _ :: rest => textCodes skip rest
  | 0, ['\\'] => some [0x5c]
  | 0, '\\' :: c :: rest =>
    match shortEscape c, hexWidth c with
    | some codes, _ => (textCodes 0 rest).map (codes ++ ·)
    | none, some width => do
      let code ← hexEscape width rest
      (textCodes width rest).map (code :: ·)
    | none, none =>
      if Token.isOctal c then
        let (code, used) := octalEscape c rest
        (textCodes used rest).map (code :: ·)
      else if c = 'N' then none
      else (textCodes 0 rest).map ([0x5c, c.toNat] ++ ·)
  | 0, c :: rest => (textCodes 0 rest).map (c.toNat :: ·)

/-- The bytes of a bytes literal's body, of which every character is an ASCII one. -/
def byteCodes : (skip : Nat) → List Char → Option (List Nat)
  | _, [] => some []
  | skip + 1, _ :: rest => byteCodes skip rest
  | 0, ['\\'] => some [0x5c]
  | 0, '\\' :: c :: rest =>
    match shortEscape c with
    | some codes => (byteCodes 0 rest).map (codes ++ ·)
    | none =>
      if c = 'x' then do
        let code ← hexEscape 2 rest
        (byteCodes 2 rest).map (code :: ·)
      else if Token.isOctal c then
        let (code, used) := octalEscape c rest
        (byteCodes used rest).map (code % 256 :: ·)
      else if c.toNat < 128 then (byteCodes 0 rest).map ([0x5c, c.toNat] ++ ·)
      else none
  | 0, c :: rest => if c.toNat < 128 then (byteCodes 0 rest).map (c.toNat :: ·) else none

/-- The code points of a text taken as it stands. -/
def rawCodes (cs : List Char) : List Nat :=
  cs.map Char.toNat

/-- The bytes of a body taken as it stands. -/
def rawBytes (cs : List Char) : Option (List Nat) :=
  if cs.all (·.toNat < 128) then some (rawCodes cs) else none

end Lineage.Literal
