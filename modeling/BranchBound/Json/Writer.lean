import BranchBound.Decimal.Text
import BranchBound.Json.Basic

/-!
# Writing JSON text

`Json.render` writes a value on one line. Numbers are written from their digits; in a text only the
quote, the backslash and control characters are escaped.
-/

namespace BranchBound

namespace Numeral

/-- The number as text. -/
def text (n : Numeral) : String :=
  Decimal.signed n.negative (toString n.digits)
    ++ (if n.whole then "" else "e" ++ toString n.exponent)

end Numeral

namespace Json

/-- One hexadecimal digit. -/
def hexDigit (n : Nat) : Char := (Nat.digitChar (n % 16))

/-- A character inside a quoted text. -/
def escaped (c : Char) : List Char :=
  if c = '"' then ['\\', '"']
  else if c = '\\' then ['\\', '\\']
  else if c < ' ' then ['\\', 'u', '0', '0', hexDigit (c.toNat / 16), hexDigit c.toNat]
  else [c]

/-- A text in quotes. -/
def quoted (s : String) : String :=
  "\"" ++ String.ofList (s.toList.flatMap escaped) ++ "\""

mutual

/-- A value on one line. -/
def render : Json → String
  | .null => "null"
  | .bool b => if b then "true" else "false"
  | .number n => n.text
  | .string s => quoted s
  | .array items => "[" ++ renderItems items ++ "]"
  | .object members => "\x7b" ++ renderMembers members ++ "\x7d"

/-- Items with commas between them. -/
def renderItems : List Json → String
  | [] => ""
  | [v] => render v
  | v :: rest => render v ++ "," ++ renderItems rest

/-- Members with commas between them. -/
def renderMembers : List (String × Json) → String
  | [] => ""
  | [(name, v)] => quoted name ++ ":" ++ render v
  | (name, v) :: rest => quoted name ++ ":" ++ render v ++ "," ++ renderMembers rest

end

end Json

end BranchBound
