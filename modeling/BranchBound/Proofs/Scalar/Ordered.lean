import Mathlib.Order.Lattice
import BranchBound.Proofs.Scalar.Exact

/-!
# Ordered scalars

Scalars that are compared as the numbers between two infinities are: the order is linear, and
nothing is undefined. What a proof needs of the comparisons alone is stated over these, so that it
holds for every arithmetic that rounds as it likes.

* `LinearScalar`: the laws.
* `minNum_eq_min`, `maxNum_eq_max`: the smaller and the larger value are those of the order.
* `SignedScalar`: negation turns the order around, and the total comparison follows it.
* `RankedScalar`: only the latter.
-/

namespace BranchBound

/-- The comparisons of scalars are a linear order between two infinities. -/
class LinearScalar (α : Type) [Scalar α] : Prop where
  le_refl : ∀ a : α, a ≤ a
  le_trans : ∀ a b c : α, a ≤ b → b ≤ c → a ≤ c
  le_antisymm : ∀ a b : α, a ≤ b → b ≤ a → a = b
  le_total : ∀ a b : α, a ≤ b ∨ b ≤ a
  lt_iff_le_not_ge : ∀ a b : α, a < b ↔ a ≤ b ∧ ¬ b ≤ a
  neg_infinity_le : ∀ a : α, -Scalar.infinity ≤ a
  le_infinity : ∀ a : α, a ≤ Scalar.infinity
  not_undefined : ∀ a : α, Scalar.isUndefined a = false

namespace LinearScalar

variable {α : Type} [Scalar α] [LinearScalar α]

/-- The order of the library. Where scalars have an order of their own, that one comes first. -/
instance (priority := low) toLinearOrder : LinearOrder α where
  le_refl := LinearScalar.le_refl
  le_trans := LinearScalar.le_trans
  le_antisymm := LinearScalar.le_antisymm
  le_total := LinearScalar.le_total
  lt_iff_le_not_ge := LinearScalar.lt_iff_le_not_ge
  toDecidableLE := Scalar.decLe
  toDecidableLT := Scalar.decLt

/-- Without undefined values the lesser operand is the minimum of the order. -/
theorem minNum_eq_min (a b : α) : Scalar.minNum a b = min a b := by
  unfold Scalar.minNum
  rw [LinearScalar.not_undefined a, if_neg Bool.false_ne_true]
  split
  case isTrue h => rw [min_eq_right (le_of_lt h)]
  case isFalse h => rw [min_eq_left (not_lt.mp h)]

theorem maxNum_eq_max (a b : α) : Scalar.maxNum a b = max a b := by
  unfold Scalar.maxNum
  rw [LinearScalar.not_undefined a, if_neg Bool.false_ne_true]
  split
  case isTrue h => rw [max_eq_right (le_of_lt h)]
  case isFalse h => rw [max_eq_left (not_lt.mp h)]

end LinearScalar

instance : LinearScalar ExtRat where
  le_refl := le_refl
  le_trans _ _ _ := le_trans
  le_antisymm _ _ := le_antisymm
  le_total := le_total
  lt_iff_le_not_ge _ _ := lt_iff_le_not_ge
  neg_infinity_le := ExtRat.negInf_le
  le_infinity := ExtRat.le_posInf
  not_undefined _ := rfl

/-- Moreover, negation turns the order around, and the total comparison is that of the order. -/
class SignedScalar (α : Type) [Scalar α] : Prop extends LinearScalar α where
  neg_le_neg_iff : ∀ a b : α, -a ≤ -b ↔ b ≤ a
  totalCompare_eq_lt_iff : ∀ a b : α, Scalar.totalCompare a b = .lt ↔ a < b
  totalCompare_eq_gt_iff : ∀ a b : α, Scalar.totalCompare a b = .gt ↔ b < a

instance : SignedScalar ExtRat where
  neg_le_neg_iff := ExtRat.neg_le_neg_iff
  totalCompare_eq_lt_iff _ _ := ExtRat.totalCompare_eq_lt_iff
  totalCompare_eq_gt_iff _ _ := ExtRat.totalCompare_eq_gt_iff

/-- So the total comparison is transitive, and can be read from either side. -/
instance (priority := low) {α : Type} [Scalar α] [SignedScalar α] :
    Std.TransCmp (Scalar.totalCompare : α → α → Ordering) where
  eq_swap {a b} := by
    have hlt := SignedScalar.totalCompare_eq_lt_iff (α := α)
    have hgt := SignedScalar.totalCompare_eq_gt_iff (α := α)
    cases hba : Scalar.totalCompare b a with
    | lt =>
      rw [hlt] at hba
      exact (hgt a b).mpr hba
    | gt =>
      rw [hgt] at hba
      exact (hlt a b).mpr hba
    | eq =>
      -- neither value is below the other
      cases hab : Scalar.totalCompare a b with
      | eq => rfl
      | lt =>
        rw [hlt] at hab
        rw [(hgt b a).mpr hab] at hba
        cases hba
      | gt =>
        rw [hgt] at hab
        rw [(hlt b a).mpr hab] at hba
        cases hba
  isLE_trans {a b c} hab hbc := by
    rw [Ordering.isLE_iff_ne_gt, ← ne_eq, ne_eq, SignedScalar.totalCompare_eq_gt_iff, not_lt] at *
    exact hab.trans hbc

/-- Linearly ordered scalars whose total comparison is that of the order. -/
class RankedScalar (α : Type) [Scalar α] : Prop extends LinearScalar α where
  totalCompare_eq_gt_iff : ∀ a b : α, Scalar.totalCompare a b = .gt ↔ b < a

instance (priority := low) {α : Type} [Scalar α] [SignedScalar α] : RankedScalar α where
  totalCompare_eq_gt_iff := SignedScalar.totalCompare_eq_gt_iff

/-- The total order is the usual one. -/
theorem RankedScalar.totalCompare_ne_gt_iff {α : Type} [Scalar α] [RankedScalar α] (a b : α) :
    (Scalar.totalCompare a b != .gt) = true ↔ a ≤ b := by
  rw [bne_iff_ne, ne_eq, totalCompare_eq_gt_iff, not_lt]

end BranchBound
