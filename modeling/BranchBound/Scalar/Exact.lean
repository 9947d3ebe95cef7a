import BranchBound.Count
import BranchBound.Scalar.Basic

/-!
# Exact scalars

Rational numbers with two infinities: the reading of the solver in which no operation rounds. The
order is linear and nothing is undefined, so the sums, products and quotients that have no value of
their own are given one: opposite infinities add up to the negative one, zero times an infinity is
zero, and so is a quotient by zero or by an infinity.
-/

namespace BranchBound

/-- A rational number or an infinity. -/
inductive ExtRat where
  | negInf
  | fin (value : Rat)
  | posInf
deriving DecidableEq

namespace ExtRat

/-- Sum; the negative infinity prevails. -/
def add : ExtRat → ExtRat → ExtRat
  | .fin a, .fin b => .fin (a + b)
  | .negInf, _ | _, .negInf => .negInf
  | .posInf, _ | _, .posInf => .posInf

/-- The value on the other side of zero. -/
def neg : ExtRat → ExtRat
  | .fin a => .fin (-a)
  | .negInf => .posInf
  | .posInf => .negInf

/-- The positive infinity times a rational number. -/
def scaleInf (a : Rat) : ExtRat :=
  if 0 < a then .posInf else if a < 0 then .negInf else .fin 0

/-- Product. -/
def mul : ExtRat → ExtRat → ExtRat
  | .fin a, .fin b => .fin (a * b)
  | .fin a, .posInf | .posInf, .fin a => scaleInf a
  | .fin a, .negInf | .negInf, .fin a => neg (scaleInf a)
  | .posInf, .posInf | .negInf, .negInf => .posInf
  | .posInf, .negInf | .negInf, .posInf => .negInf

/-- One divided by the value; zero where there is no such number. -/
def inv : ExtRat → ExtRat
  | .fin a => .fin a⁻¹
  | _ => .fin 0

/-- At most. -/
def le : ExtRat → ExtRat → Prop
  | .negInf, _ | _, .posInf => True
  | .fin a, .fin b => a ≤ b
  | _, _ => False

/-- Strictly below. -/
def lt : ExtRat → ExtRat → Prop
  | .fin a, .fin b => a < b
  | .negInf, .fin _ | .negInf, .posInf | .fin _, .posInf => True
  | _, _ => False

instance decidableLe : (a b : ExtRat) → Decidable (le a b)
  | .fin a, .fin b => inferInstanceAs (Decidable (a ≤ b))
  | .negInf, .negInf | .negInf, .fin _ | .negInf, .posInf | .fin _, .posInf | .posInf, .posInf =>
    .isTrue trivial
  | .fin _, .negInf | .posInf, .negInf | .posInf, .fin _ => .isFalse id

instance decidableLt : (a b : ExtRat) → Decidable (lt a b)
  | .fin a, .fin b => inferInstanceAs (Decidable (a < b))
  | .negInf, .fin _ | .negInf, .posInf | .fin _, .posInf => .isTrue trivial
  | .negInf, .negInf | .fin _, .negInf | .posInf, .negInf | .posInf, .fin _ | .posInf, .posInf =>
    .isFalse id

/-- Applies a function to a rational number; infinities stay. -/
def map (f : Rat → Rat) : ExtRat → ExtRat
  | .fin a => .fin (f a)
  | .negInf => .negInf
  | .posInf => .posInf

/-- Nearest whole number, a half going away from zero. -/
def roundRat (a : Rat) : Rat :=
  if 0 ≤ a then (a + 1 / 2).floor else (a - 1 / 2).ceil

/-- Absolute value. -/
def abs : ExtRat → ExtRat
  | .fin a => .fin (if a < 0 then -a else a)
  | _ => .posInf

/-- Whether the value is a rational number. -/
def isFin : ExtRat → Bool
  | .fin _ => true
  | _ => false

/-- Whole part, cut off at the ends of the counts. -/
def toCount : ExtRat → Nat
  | .fin a => min a.floor.toNat (countLimit - 1)
  | .negInf => 0
  | .posInf => countLimit - 1

instance : Scalar ExtRat where
  zero := .fin 0
  one := .fin 1
  add := add
  sub a b := add a (neg b)
  mul := mul
  div a b := mul a (inv b)
  neg := neg
  lt := lt
  le := le
  beq a b := decide (a = b)
  decLt a b := inferInstanceAs (Decidable (lt a b))
  decLe a b := inferInstanceAs (Decidable (le a b))
  abs := abs
  floor := map fun a => a.floor
  ceil := map fun a => a.ceil
  round := map roundRat
  infinity := .posInf
  isFinite := isFin
  isUndefined _ := false
  totalCompare a b := if lt a b then .lt else if a = b then .eq else .gt
  ofNat n := .fin n
  toCount := toCount

end ExtRat

end BranchBound
