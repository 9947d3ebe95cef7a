/-!
# Scalars

The arithmetic every part of the solver computes with. Nothing here says that the operations obey
any law: the search runs over binary floating point, and the same definitions make sense over exact
numbers with infinities. What the class fixes is which operations exist and what each one is for.

* `Scalar`: field operations, comparisons, rounding to whole numbers, and the classification of
  values as finite, infinite or undefined.
* `Scalar.minNum`, `Scalar.maxNum`: the smaller and the larger of two values, where an undefined one
  gives way to the other.
* `Scalar.sum`, `Scalar.dot`: sums from left to right, in the order of the data.
-/

namespace BranchBound

/-- The operations the solver needs of its numbers. -/
class Scalar (α : Type) extends
    Zero α, One α, Add α, Sub α, Mul α, Div α, Neg α, LT α, LE α, BEq α where
  /-- Comparison is decidable. -/
  decLt : ∀ a b : α, Decidable (a < b)
  /-- Comparison is decidable. -/
  decLe : ∀ a b : α, Decidable (a ≤ b)
  /-- Absolute value. -/
  abs : α → α
  /-- Largest whole number not above the value. -/
  floor : α → α
  /-- Least whole number not below the value. -/
  ceil : α → α
  /-- Nearest whole number, a half going away from zero. -/
  round : α → α
  /-- The value above every finite one. -/
  infinity : α
  /-- Neither infinite nor undefined. -/
  isFinite : α → Bool
  /-- The result of an operation that has none. -/
  isUndefined : α → Bool
  /-- A total order that agrees with `<` and also places signed zeros and undefined values. -/
  totalCompare : α → α → Ordering
  /-- A count as a scalar. -/
  ofNat : Nat → α
  /-- The whole part as a count below `countLimit`; what lies outside goes to the nearer end. -/
  toCount : α → Nat

namespace Scalar

variable {α : Type} [Scalar α]

attribute [reducible, instance] decLt decLe

/-- Infinite in either direction. -/
def isInfinite (a : α) : Bool := !isFinite a && !isUndefined a

/-- The smaller value; an undefined one gives way to the other. -/
def minNum (a b : α) : α := if isUndefined a then b else if b < a then b else a

/-- The larger value; an undefined one gives way to the other. -/
def maxNum (a b : α) : α := if isUndefined a then b else if a < b then b else a

/-- The decimal fraction `10^(-k)`. -/
def tenth (k : Nat) : α := 1 / ofNat (Nat.pow 10 k)

/-- Sum from left to right. The start is the zero that no summand is changed by. -/
def sum (xs : List α) : α := xs.foldl (· + ·) (-0)

/-- Sum of the products of corresponding entries; a surplus on either side is left out. -/
def dot (xs ys : List α) : α := sum (xs.zipWith (· * ·) ys)

/-- Distance to the nearest whole number. -/
def fractionality (v : α) : α := minNum (v - floor v) (ceil v - v)

end Scalar

end BranchBound
