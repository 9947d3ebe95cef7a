import BranchBound.Json.Basic

/-!
# Reading JSON text

A reader takes characters off the front of a text and returns what it read with the rest, or nothing
if the text does not start with what it reads. `Json.parse?` reads one value that fills the text. Of
several members of one name the last one stays, so an object that was read has no name twice.
-/

namespace BranchBound.Json.Reader

/-- Text without its leading blanks. -/
def skipBlanks (cs : List Char) : List Char :=
  cs.dropWhile fun c => c = ' ' || c = '\n' || c = '\r' || c = '\t'

/-- Value of a row of digits. -/
def digitsValue (cs : List Char) : Nat :=
  cs.foldl (fun n c => 10 * n + (c.toNat - '0'.toNat)) 0

/-- The digits at the front, and the rest. -/
def digits (cs : List Char) : List Char × List Char :=
  (cs.takeWhile Char.isDigit, cs.dropWhile Char.isDigit)

/-- Value of a hexadecimal digit. -/
def hexDigit? (c : Char) : Option Nat :=
  if '0' ≤ c ∧ c ≤ '9' then some (c.toNat - '0'.toNat)
  else if 'a' ≤ c ∧ c ≤ 'f' then some (c.toNat - 'a'.toNat + 10)
  else if 'A' ≤ c ∧ c ≤ 'F' then some (c.toNat - 'A'.toNat + 10)
  else none

/-- Value of hexadecimal digits. -/
def hex? (cs : List Char) : Option Nat :=
  cs.foldl (fun n c => n.bind fun n => (hexDigit? c).map (16 * n + ·)) (some 0)

/-- Part of a number after the point, if there is one. -/
def fraction? : List Char → Option (List Char × List Char)
  | '.' :: cs =>
    let (ds, rest) := digits cs
    if ds.isEmpty then none else some (ds, rest)
  | cs => some ([], cs)

/-- Power of ten at the end of a number, if there is one. -/
def power? (cs : List Char) : Option (Option Int × List Char) :=
  let body (sign : Int) (cs : List Char) :=
    let (ds, rest) := digits cs
    if ds.isEmpty then none else some (some (sign * (digitsValue ds : Int)), rest)
  match cs with
  | 'e' :: '-' :: cs | 'E' :: '-' :: cs => body (-1) cs
  | 'e' :: '+' :: cs | 'E' :: '+' :: cs => body 1 cs
  | 'e' :: cs | 'E' :: cs => body 1 cs
  | cs => some (none, cs)

/-- A number without its sign. A leading zero stands alone before the point. -/
def magnitude? (negative : Bool) (cs : List Char) : Option (Numeral × List Char) := do
  let (whole, rest) := digits cs
  if whole.isEmpty || (whole.length > 1 && whole.head? == some '0') then none
  let (places, rest) ← fraction? rest
  let (power, rest) ← power? rest
  some ({ negative
          digits := digitsValue (whole ++ places)
          exponent := power.getD 0 - (places.length : Int)
          whole := places.isEmpty && power.isNone }, rest)

/-- A number. -/
def number? : List Char → Option (Numeral × List Char)
  | '-' :: cs => magnitude? true cs
  | cs => magnitude? false cs

/-- Character named by one letter after a backslash. -/
def escape? : Char → Option Char
  | '"' => some '"'
  | '\\' => some '\\'
  | '/' => some '/'
  | 'b' => some '\x08'
  | 'f' => some '\x0c'
  | 'n' => some '\n'
  | 'r' => some '\r'
  | 't' => some '\t'
  | _ => none

/-- Text up to its closing quote. A character beyond the basic plane is written as two units. -/
def text? : List Char → Option (List Char × List Char)
  | '"' :: rest => some ([], rest)
  | '\\' :: 'u' :: a :: b :: c :: d :: rest => do
    let unit ← hex? [a, b, c, d]
    if 0xD800 ≤ unit ∧ unit < 0xDC00 then
      match rest with
      | '\\' :: 'u' :: e :: f :: g :: h :: rest => do
        let low ← hex? [e, f, g, h]
        if 0xDC00 ≤ low ∧ low < 0xE000 then
          let (cs, rest) ← text? rest
          some (Char.ofNat (0x10000 + (unit - 0xD800) * 0x400 + (low - 0xDC00)) :: cs, rest)
        else none
      | _ => none
    else if 0xDC00 ≤ unit ∧ unit < 0xE000 then none
    else
      let (cs, rest) ← text? rest
      some (Char.ofNat unit :: cs, rest)
  | '\\' :: c :: rest => do
    let c ← escape? c
    let (cs, rest) ← text? rest
    some (c :: cs, rest)
  | c :: rest =>
    if c < ' ' then none
    else do
      let (cs, rest) ← text? rest
      some (c :: cs, rest)
  | [] => none

/-- A member before those that follow it; one of them with its name takes its place. -/
def addMember (name : String) (v : Json) (members : List (String × Json)) :
    List (String × Json) :=
  if members.any (·.1 = name) then members else (name, v) :: members

mutual

/-- A value, nested at most as deep as the first argument. -/
def value? : Nat → List Char → Option (Json × List Char)
  | 0, _ => none
  | depth + 1, cs =>
    match skipBlanks cs with
    | '"' :: rest => (text? rest).map fun (s, rest) => (.string (String.ofList s), rest)
    | '[' :: rest =>
      match skipBlanks rest with
      | ']' :: rest => some (.array [], rest)
      | rest => (items? depth rest).map fun (xs, rest) => (.array xs, rest)
    | '\x7b' :: rest =>
      match skipBlanks rest with
      | '\x7d' :: rest => some (.object [], rest)
      | rest => (members? depth rest).map fun (xs, rest) => (.object xs, rest)
    | 'n' :: 'u' :: 'l' :: 'l' :: rest => some (.null, rest)
    | 't' :: 'r' :: 'u' :: 'e' :: rest => some (.bool true, rest)
    | 'f' :: 'a' :: 'l' :: 's' :: 'e' :: rest => some (.bool false, rest)
    | rest => (number? rest).map fun (n, rest) => (.number n, rest)

/-- One or more values up to the closing bracket. -/
def items? : Nat → List Char → Option (List Json × List Char)
  | 0, _ => none
  | depth + 1, cs => do
    let (v, rest) ← value? depth cs
    match skipBlanks rest with
    | ',' :: rest => do
      let (vs, rest) ← items? depth rest
      some (v :: vs, rest)
    | ']' :: rest => some ([v], rest)
    | _ => none

/-- One or more members up to the closing brace. -/
def members? : Nat → List Char → Option (List (String × Json) × List Char)
  | 0, _ => none
  | depth + 1, cs => do
    match skipBlanks cs with
    | '"' :: rest => do
      let (name, rest) ← text? rest
      match skipBlanks rest with
      | ':' :: rest => do
        let (v, rest) ← value? depth rest
        match skipBlanks rest with
        | ',' :: rest => do
          let (vs, rest) ← members? depth rest
          some (addMember (String.ofList name) v vs, rest)
        | '\x7d' :: rest => some ([(String.ofList name, v)], rest)
        | _ => none
      | _ => none
    | _ => none

end

end Reader

/-- The value a text consists of. Every nesting takes a character, so the length bounds the
depth. -/
def parse? (text : String) : Option Json :=
  let cs := text.toList
  match Reader.value? (2 * cs.length + 2) cs with
  | some (v, rest) => if (Reader.skipBlanks rest).isEmpty then some v else none
  | none => none

end BranchBound.Json
