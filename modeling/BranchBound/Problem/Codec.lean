import BranchBound.Problem.Basic
import BranchBound.Strategy.Codec

/-!
# Variable types as JSON
-/

namespace BranchBound.VarType

/-- A type by its name. -/
def toJson : VarType → Json
  | .continuous => .string "continuous"
  | .integer => .string "integer"
  | .binary => .string "binary"

/-- A type from its name. -/
def ofJson? (j : Json) : Option VarType :=
  match j.plainTag? with
  | some "continuous" => some .continuous
  | some "integer" => some .integer
  | some "binary" => some .binary
  | _ => none

theorem ofJson?_toJson (t : VarType) : ofJson? t.toJson = some t := by
  cases t <;> rfl

end BranchBound.VarType
