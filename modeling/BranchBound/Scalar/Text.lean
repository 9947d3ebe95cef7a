import BranchBound.Decimal.Text
import BranchBound.Scalar.Basic

/-!
# Text of scalars

How numbers are written in messages. The solver never computes with these texts, so they are kept
apart from its arithmetic.
-/

namespace BranchBound

/-- The ways a scalar is written in a message. -/
class ScalarText (α : Type) where
  /-- As briefly as possible. -/
  display : α → String
  /-- With a fixed number of places after the point. -/
  fixed : Nat → α → String
  /-- With one digit before the point, a fixed number after it, and a power of ten. -/
  scientific : Nat → α → String

instance : ScalarText Float where
  display := Decimal.display
  fixed := Decimal.fixed
  scientific := Decimal.scientific

end BranchBound
