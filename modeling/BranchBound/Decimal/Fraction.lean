/-!
# Nonnegative fractions

Exact numbers for reading and writing decimals. A `Fraction` is a quotient of two counts; moving its
decimal point, taking its whole part and rounding it to a whole number are exact.

* `roundDiv`: the whole number nearest to a quotient, a half going to the even neighbour.
* `Fraction.exponent`: the power of ten of the leading digit.
-/

namespace BranchBound.Decimal

/-- A power of two. -/
def twoTo (k : Nat) : Nat := Nat.pow 2 k

/-- A power of ten. -/
def tenTo (k : Nat) : Nat := Nat.pow 10 k

/-- The whole number nearest to `num / den`; exactly between two, the even one. -/
def roundDiv (num den : Nat) : Nat :=
  let q := num / den
  let r := num % den
  if 2 * r < den then q
  else if den < 2 * r then q + 1
  else if q % 2 = 0 then q else q + 1

/-- A nonnegative quotient of two counts. -/
structure Fraction where
  num : Nat
  den : Nat

namespace Fraction

/-- `m * 2^e`. -/
def ofBinary (m : Nat) (e : Int) : Fraction :=
  if 0 ≤ e then ⟨m * twoTo e.toNat, 1⟩ else ⟨m, twoTo (-e).toNat⟩

/-- `m * 10^e`. -/
def ofDecimal (m : Nat) (e : Int) : Fraction :=
  if 0 ≤ e then ⟨m * tenTo e.toNat, 1⟩ else ⟨m, tenTo (-e).toNat⟩

/-- The value in units of `10^p`. -/
def inUnits (x : Fraction) (p : Int) : Fraction :=
  if 0 ≤ p then ⟨x.num, x.den * tenTo p.toNat⟩ else ⟨x.num * tenTo (-p).toNat, x.den⟩

/-- The value in units of `2^e`. -/
def inBinaryUnits (x : Fraction) (e : Int) : Fraction :=
  if 0 ≤ e then ⟨x.num, x.den * twoTo e.toNat⟩ else ⟨x.num * twoTo (-e).toNat, x.den⟩

/-- Whole part. -/
def floor (x : Fraction) : Nat := x.num / x.den

/-- Nearest whole number, a half going to the even one. -/
def nearest (x : Fraction) : Nat := roundDiv x.num x.den

/-- At most. -/
def le (x y : Fraction) : Bool := x.num * y.den ≤ y.num * x.den

/-- Strictly below. -/
def lt (x y : Fraction) : Bool := x.num * y.den < y.num * x.den

/-- The power of ten of the leading digit: `10^exponent ≤ x < 10^(exponent + 1)` for a value
between `10^(-400)` and any bound above. -/
def exponent (x : Fraction) : Int :=
  if x.den ≤ x.num then ((toString x.floor).length : Int) - 1
  else
    match (List.range 400).find? (fun s => x.den ≤ x.num * tenTo (s + 1)) with
    | some s => -((s : Int) + 1)
    | none => 0

end Fraction

end BranchBound.Decimal
