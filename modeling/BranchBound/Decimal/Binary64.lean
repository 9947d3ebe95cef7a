import BranchBound.Decimal.Fraction

/-!
# Binary64 values as exact numbers

A double is a sign and either a finite magnitude `m * 2^e`, an infinity, or undefined. This module
takes one apart and puts the one nearest to an exact fraction together.

* `View`, `view`: the parts of a double.
* `nearest`: the double nearest to a signed fraction, a tie going to the even significand.
-/

namespace BranchBound.Decimal.Binary64

/-- The leading bit of a full significand, `2^52`, which is not stored. -/
def hiddenBit : Nat := 4503599627370496

/-- The bit that holds the sign, `2^63`. -/
def signBit : Nat := 9223372036854775808

/-- The exponent field that stands for infinite and undefined values. -/
def topField : Nat := 2047

/-- What a double stands for. -/
inductive View where
  /-- The sign and the magnitude `significand * 2^exponent`. -/
  | finite (negative : Bool) (significand : Nat) (exponent : Int)
  | infinite (negative : Bool)
  | undefined

/-- The parts of a double. -/
def view (v : Float) : View :=
  let bits : Nat := v.toBits.toNat
  let negative := decide (signBit ≤ bits)
  let field : Nat := bits / hiddenBit % (topField + 1)
  let tail : Nat := bits % hiddenBit
  if field = topField then
    if tail = 0 then .infinite negative else .undefined
  else if field = 0 then .finite negative tail (-1074)
  else .finite negative (hiddenBit + tail) ((field : Int) - 1075)

/-- Bits of the magnitude `significand * 2^exponent`, given in the form `view` produces; what is too
large is infinite. -/
def magnitudeBits (significand : Nat) (exponent : Int) : Nat :=
  if significand < hiddenBit then significand
  else
    let field := (exponent + 1075).toNat
    if topField ≤ field then topField * hiddenBit
    else field * hiddenBit + (significand - hiddenBit)

/-- Exponent of the last place of the double nearest to a positive fraction: its significand has 53
bits unless the exponent is the least one. -/
def lastPlace (x : Fraction) : Int :=
  let guess : Int := (x.num.log2 : Int) - (x.den.log2 : Int) - 52
  let e := if (x.inBinaryUnits guess).floor < hiddenBit then guess - 1 else guess
  max e (-1074)

/-- The double nearest to a signed fraction, a tie going to the even significand. -/
def nearest (negative : Bool) (x : Fraction) : Float :=
  let magnitude :=
    if x.num = 0 then 0
    else
      let e := lastPlace x
      let m := (x.inBinaryUnits e).nearest
      -- rounding up can carry into a 54th bit
      if m = 2 * hiddenBit then magnitudeBits hiddenBit (e + 1) else magnitudeBits m e
  Float.ofBits (UInt64.ofNat ((if negative then signBit else 0) + magnitude))

end BranchBound.Decimal.Binary64
