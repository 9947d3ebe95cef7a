import BranchBound.Decimal.Shortest

/-!
# Decimal text of doubles

The three ways numbers appear in messages:

* `display`: the shortest digits that read back, always positional, without a point on whole
  numbers;
* `fixed`: a fixed number of places after the point;
* `scientific`: one digit before the point, a fixed number after it, and a power of ten.

The last two round the exact value, a half going to the even neighbour. The sign of a negative zero
is kept, and values that are not finite have names.
-/

namespace BranchBound.Decimal

/-- Names of the values that have no digits. -/
def infiniteText : String := "inf"

/-- Name of the undefined value. -/
def undefinedText : String := "NaN"

/-- A text with a leading minus sign where the value is negative. -/
def signed (negative : Bool) (text : String) : String :=
  if negative then "-" ++ text else text

/-- Text of a double, given how a finite magnitude is written. -/
def write (magnitude : Nat → Int → String) (v : Float) : String :=
  match Binary64.view v with
  | .undefined => undefinedText
  | .infinite negative => signed negative infiniteText
  | .finite negative m e => signed negative (magnitude m e)

/-- `digits * 10^exponent` written positionally. -/
def positional (digits : Nat) (exponent : Int) : String :=
  let text := toString digits
  if 0 ≤ exponent then text ++ "".pushn '0' exponent.toNat
  else
    let places := (-exponent).toNat
    let padded := "".pushn '0' (places + 1 - text.length) ++ text
    let cs := padded.toList
    let whole := cs.length - places
    String.ofList (cs.take whole) ++ "." ++ String.ofList (cs.drop whole)

/-- Shortest digits that read back, without an exponent. -/
def display : Float → String :=
  write fun m e =>
    if m = 0 then "0"
    else
      let (digits, exponent) := shortest m e
      positional digits exponent

/-- A fixed number of places after the point. -/
def fixed (places : Nat) : Float → String :=
  write fun m e =>
    let units := ((Fraction.ofBinary m e).inUnits (-(places : Int))).nearest
    if places = 0 then toString units else positional units (-(places : Int))

/-- One digit, a point, `places` more digits, and the power of ten after an `e`. -/
def scientific (places : Nat) : Float → String :=
  write fun m e =>
    let point (digits : Nat) (exponent : Int) : String :=
      (if places = 0 then toString digits else positional digits (-(places : Int)))
        ++ "e" ++ toString exponent
    if m = 0 then point 0 0
    else
      let x := Fraction.ofBinary m e
      let exponent := x.exponent
      let digits := (x.inUnits (exponent - places)).nearest
      -- rounding up can carry into one more digit
      if digits = tenTo (places + 1) then point (tenTo places) (exponent + 1)
      else point digits exponent

end BranchBound.Decimal
