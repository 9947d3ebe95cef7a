import BranchBound.Count

/-!
# JSON values

The data format settings are kept in. A number stays as it was written, so that a count can be told
from a measurement and no digit is lost before someone asks for a value of a particular kind.

* `Numeral`: a decimal as written.
* `Json`: the six kinds of values; the members of an object keep their order, and a name may stand
  more than once.
* `Json.count?`, `Json.field?`, `Json.tagged?`: what readers of a particular shape ask for. A record
  with two members of one known name is ambiguous, and `Json.field?` and `Json.fieldOr?` refuse it.
-/

namespace BranchBound

/-- A decimal number as written: `digits * 10^exponent`, with its sign. -/
structure Numeral where
  negative : Bool
  digits : Nat
  exponent : Int
  /-- Written without a point and without an exponent. -/
  whole : Bool
deriving DecidableEq

/-- A JSON value. -/
inductive Json where
  | null
  | bool (value : Bool)
  | number (value : Numeral)
  | string (value : String)
  | array (items : List Json)
  | object (members : List (String × Json))

namespace Json

variable {α : Type}

/-- A count as a value. -/
def ofNat (n : Nat) : Json := .number ⟨false, n, 0, true⟩

/-- A value that may be absent. -/
def ofOption (f : α → Json) : Option α → Json
  | none => .null
  | some a => f a

/-- A list of values. -/
def ofList (f : α → Json) (xs : List α) : Json := .array (xs.map f)

/-- What an object has under a name: nothing, one value, or several. -/
def under (name : String) : Json → List Json
  | .object members => (members.filter (·.1 = name)).map (·.2)
  | _ => []

/-- The member of an object with a given name; of several, the last one. -/
def member? (name : String) (j : Json) : Option Json := (j.under name).getLast?

/-- A count: written without sign, point or exponent, and below `countLimit`. -/
def count? : Json → Option Nat
  | .number n => if n.whole && !n.negative && n.digits < countLimit then some n.digits else none
  | _ => none

/-- A truth value. -/
def bool? : Json → Option Bool
  | .bool b => some b
  | _ => none

/-- A number, as written. -/
def numeral? : Json → Option Numeral
  | .number n => some n
  | _ => none

/-- A text. -/
def string? : Json → Option String
  | .string s => some s
  | _ => none

/-- The items of an array. -/
def array? : Json → Option (List Json)
  | .array items => some items
  | _ => none

/-- Absent where the value is null, and otherwise what `read` makes of it. -/
def nullable (read : Json → Option α) : Json → Option (Option α)
  | .null => some none
  | v => (read v).map some

/-- What `read` makes of a member that has to be there, once. -/
def field? (j : Json) (name : String) (read : Json → Option α) : Option α :=
  match j.under name with
  | [v] => read v
  | _ => none

/-- What `read` makes of a member, or a standard value where it is missing. A member that is there
more than once is refused. -/
def fieldOr? (j : Json) (name : String) (standard : α) (read : Json → Option α) : Option α :=
  match j.under name with
  | [] => some standard
  | [v] => read v
  | _ => none

/-- A choice among named alternatives: the bare name, or an object whose only member is the name
with what belongs to it. -/
def tagged? : Json → Option (String × Json)
  | .string name => some (name, .null)
  | .object [(name, content)] => some (name, content)
  | _ => none

/-- A named alternative to which nothing belongs. -/
def plainTag? (j : Json) : Option String :=
  match j.tagged? with
  | some (name, .null) => some name
  | _ => none

end Json

end BranchBound
