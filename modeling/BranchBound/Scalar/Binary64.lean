import BranchBound.Decimal.Binary64
import BranchBound.Scalar.Basic

/-!
# Binary64 scalars

Double-precision floating point as a `Scalar`: every operation is the rounded one, comparisons are
false on undefined operands, and the total order is read off the bit pattern.

`Float.toBits` has a single pattern for the undefined value, without a sign, so an undefined value
comes last in the total order whatever operation it is the result of. An order of the raw patterns
would put one whose sign bit is set first, for instance the negative of an undefined optimum as a
best-first key. The order of all other values is that of the raw patterns.
-/

namespace BranchBound.Binary64

/-- Position of a value in the total order: negative values descend as their bits ascend. -/
def rank (v : Float) : Nat :=
  let bits := v.toBits.toNat
  let half := Decimal.Binary64.signBit
  if bits < half then half + bits else 2 * half - 1 - bits

instance : Scalar Float where
  zero := 0
  one := 1
  decLt := fun a b => inferInstanceAs (Decidable (a < b))
  decLe := fun a b => inferInstanceAs (Decidable (a ≤ b))
  abs := Float.abs
  floor := Float.floor
  ceil := Float.ceil
  round := Float.round
  infinity := 1 / 0
  isFinite := Float.isFinite
  isUndefined := Float.isNaN
  totalCompare := fun a b => compare (rank a) (rank b)
  ofNat := Float.ofNat
  toCount := fun v => v.toUInt64.toNat

end BranchBound.Binary64
