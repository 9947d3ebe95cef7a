import BranchBound.Decimal.Shortest
import BranchBound.Json.Basic
import BranchBound.Scalar.Basic

/-!
# Scalars as JSON numbers

* `Numeral.toBinary64`, `Numeral.ofBinary64?`: decimals as doubles and back. The digits of a double
  are the shortest ones that read back.
* `NumberCodec`: how the scalars of a value are written and read.
-/

namespace BranchBound

namespace Numeral

/-- The double nearest to the number. Exponents far outside the range are cut off first. -/
def toBinary64 (n : Numeral) : Float :=
  if (n.digits.log2 : Int) + 400 < -n.exponent then Decimal.Binary64.nearest n.negative ⟨0, 1⟩
  else Decimal.Binary64.nearest n.negative (.ofDecimal n.digits (min n.exponent 400))

/-- The shortest decimal that reads back as the double. -/
def ofBinary64? (v : Float) : Option Numeral :=
  match Decimal.Binary64.view v with
  | .finite negative m e =>
    let (digits, exponent) := if m = 0 then (0, 0) else Decimal.shortest m e
    some { negative, digits, exponent, whole := false }
  | _ => none

end Numeral

/-- How scalars are written as JSON and read from a number. -/
structure NumberCodec (α : Type) where
  encode : α → Json
  decode : Numeral → α

namespace NumberCodec

/-- Doubles by their shortest digits; what is not finite is written as null. -/
def binary64 : NumberCodec Float where
  encode v := Json.ofOption .number (Numeral.ofBinary64? v)
  decode := Numeral.toBinary64

/-- A scalar is read from a number only, and only from one within the range of the scalars. -/
def read {α : Type} [Scalar α] (codec : NumberCodec α) (v : Json) : Option α :=
  (v.numeral?.map codec.decode).filter Scalar.isFinite

end NumberCodec

end BranchBound
