import BranchBound.Decimal.Binary64

/-!
# Shortest decimals

The fewest decimal digits that still identify a double: of all decimals that round to it, one with
the least number of digits, and among those the nearest to its exact value.

The decimals that round to `m * 2^e` form an interval around it, closed exactly when `m` is even. A
grid of multiples of `10^p` meets the interval if and only if one of the two neighbours of the value
on that grid lies in it, so it is enough to look at those, on finer and finer grids.
-/

namespace BranchBound.Decimal

/-- The reals that round to a double: two ends, and whether they belong to it. -/
structure Interval where
  low : Fraction
  high : Fraction
  closed : Bool

/-- Whether a fraction lies in the interval. -/
def Interval.contains (i : Interval) (x : Fraction) : Bool :=
  if i.closed then i.low.le x && x.le i.high else i.low.lt x && x.lt i.high

/-- The reals that round to `m * 2^e`, in quarters of the last place. Below a power of two the
doubles lie twice as dense, so there the lower end is half as far away. -/
def roundingInterval (m : Nat) (e : Int) : Interval :=
  let below := if m = Binary64.hiddenBit ∧ -1074 < e then 1 else 2
  { low := .ofBinary (4 * m - below) (e - 2)
    high := .ofBinary (4 * m + 2) (e - 2)
    closed := m % 2 = 0 }

/-- The neighbour of `x` on the grid `10^p` that lies in the interval, as a multiple of `10^p`. Of
two, the nearer one, and the upper one at equal distance. -/
def gridPoint? (x : Fraction) (i : Interval) (p : Int) : Option Nat :=
  let scaled := x.inUnits p
  let q := scaled.floor
  let lower := i.contains (.ofDecimal q p)
  let upper := i.contains (.ofDecimal (q + 1) p)
  if lower && upper then
    some (if 2 * (scaled.num % scaled.den) < scaled.den then q else q + 1)
  else if lower then some q
  else if upper then some (q + 1)
  else none

/-- Shortest decimal `digits * 10^exponent` that rounds to the positive double `m * 2^e`. -/
def shortest (m : Nat) (e : Int) : Nat × Int :=
  let x := Fraction.ofBinary m e
  let i := roundingInterval m e
  let top := x.exponent + 1
  let grids := (List.range 20).map fun (k : Nat) => top - (k : Int)
  match grids.findSome? fun p => (gridPoint? x i p).map (·, p) with
  | some found => found
  | none => (0, 0)

end BranchBound.Decimal
