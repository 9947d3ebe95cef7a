import Mathlib
import BranchBound.Proofs.Search.Replay

/-!
# Replays over doubles

A difference of two doubles is rounded, and the reverse difference is rounded in the same way, so
that the distance of two values does not depend on which one is subtracted. A distance that compares
as positive is not zero, nor is one that has no value. So searches over doubles can be replayed as
well.

The library is imported as a whole for its lemmas about packed floating point numbers, which no
smaller part of it has.

* `Binary64.unpack_abs`: the magnitude of a double.
* `Binary64.abs_sub_comm`: a difference and its reverse.
* `Binary64.not_abs_le_zero_of_lt_minNum`: two values whose smaller one is positive are not zero.
* Doubles are discernible scalars.
-/

namespace BranchBound

namespace Binary64

open Float.Model UnpackedFloat

/-! ## Magnitudes -/

/-- Without its sign a value has the other parts still. -/
theorem abs_unpack_packComponents (spec : Format) (sign : Sign) (e m) :
    (UnpackedFloat.unpack spec (packComponents spec sign e m)).abs
      = UnpackedFloat.unpack spec (packComponents spec .positive e m) := by
  unfold UnpackedFloat.unpack
  simp only [unpackExponent_packComponents, unpackMantissa_packComponents,
    unpackSign_packComponents, Sign.ofBitVec_toBitVec]
  split_ifs <;> rfl

/-- It makes no difference whether the sign is dropped before packing or after it. -/
theorem abs_unpack_pack (u : UnpackedFloat) :
    (UnpackedFloat.unpack Format.binary64 (UnpackedFloat.pack Format.binary64 u)).abs
      = UnpackedFloat.unpack Format.binary64 (UnpackedFloat.pack Format.binary64 u.abs) := by
  cases u with
  | notANumber => rfl
  | infinity sign => exact abs_unpack_packComponents _ sign _ _
  | zero sign => exact abs_unpack_packComponents _ sign _ _
  | finite sign m e hm =>
    simp only [UnpackedFloat.abs, UnpackedFloat.pack]
    split_ifs
    all_goals exact abs_unpack_packComponents _ sign _ _

/-- The magnitude of a double is that of what it stands for. -/
theorem unpack_abs (a : Float) : (Scalar.abs a).toModel.unpack = a.toModel.unpack.abs := by
  show UnpackedFloat.unpack Format.binary64
    (UnpackedFloat.pack Format.binary64 (UnpackedFloat.unpack Format.binary64 _).abs) = _
  rw [← abs_unpack_pack, pack_unpack_of_valid a.toModel.valid]
  rfl

/-- Magnitudes are rounded alike under both signs. -/
theorem abs_round (spec : Format) (sign : Sign) (m : ℕ) (e : ℤ) :
    (UnpackedFloat.round spec sign m e).abs = UnpackedFloat.round spec .positive m e := by
  unfold UnpackedFloat.round roundWithAccuracy
  dsimp only
  split_ifs <;> rfl

/-- A value and its negative are normalized to the same magnitude. -/
theorem abs_normalize_neg (spec : Format) (m e : ℤ) (sign : Sign) :
    (UnpackedFloat.normalize spec (-m) e sign).abs
      = (UnpackedFloat.normalize spec m e sign).abs := by
  unfold UnpackedFloat.normalize
  rcases lt_trichotomy m 0 with h | rfl | h
  · rw [compare_gt_iff_gt.mpr (neg_pos.mpr h), compare_lt_iff_lt.mpr h]
    exact (abs_round _ _ _ _).trans (abs_round _ _ _ _).symm
  · rfl
  · rw [compare_lt_iff_lt.mpr (neg_neg_of_pos h), compare_gt_iff_gt.mpr h]
    dsimp only
    rw [abs_round, abs_round, neg_neg]

/-- A difference and its reverse are rounded to the same magnitude. -/
theorem abs_unpacked_sub_comm (u v : UnpackedFloat) :
    (UnpackedFloat.sub Format.binary64 u v).abs = (UnpackedFloat.sub Format.binary64 v u).abs := by
  rcases u with (_ | _) | _ | (_ | _) | ⟨s, m, e, hm⟩ <;>
    rcases v with (_ | _) | _ | (_ | _) | ⟨s', m', e', hm'⟩ <;>
    try rfl
  dsimp only [UnpackedFloat.sub]
  rw [min_comm, ← abs_normalize_neg, neg_sub]

/-- So a difference and its reverse are at the same distance from zero. -/
theorem abs_sub_comm (a b : Float) : Scalar.abs (a - b) = Scalar.abs (b - a) := by
  have hunpack : (a - b).toModel.unpack.abs = (b - a).toModel.unpack.abs := by
    show (UnpackedFloat.unpack Format.binary64 (UnpackedFloat.pack Format.binary64 _)).abs
      = (UnpackedFloat.unpack Format.binary64 (UnpackedFloat.pack Format.binary64 _)).abs
    rw [abs_unpack_pack, abs_unpack_pack, abs_unpacked_sub_comm]
  show Float.ofModel (Float.Model.pack (a - b).toModel.unpack.abs)
    = Float.ofModel (Float.Model.pack (b - a).toModel.unpack.abs)
  rw [hunpack]

/-- What stands above zero is its own magnitude. -/
theorem abs_eq_self {u : UnpackedFloat} (h : place (.zero .positive) < place u) : u.abs = u := by
  rcases u with (_ | _) | _ | _ | ⟨_ | _, m, e, hm⟩
  all_goals first
    | rfl
    | exact absurd h (by simp [place, Prod.Lex.toLex_lt_toLex])

/-- The magnitude of a positive value is not zero. -/
theorem not_abs_le_zero_of_pos {a : Float} (h : 0 < a) : ¬ Scalar.abs a ≤ 0 := by
  obtain ⟨-, -, hpos⟩ := lt_iff.mp h
  rw [le_iff, unpack_abs, abs_eq_self hpos]
  rintro ⟨-, -, hle⟩
  exact absurd hle (not_le.mpr hpos)

/-- Neither is that of a value that is none. -/
theorem not_abs_le_zero_of_undefined {a : Float} (h : Scalar.isUndefined a = true) :
    ¬ Scalar.abs a ≤ 0 := by
  intro hle
  have hdefined : (Scalar.abs a).toModel.unpack.isNaN = false := (le_iff.mp hle).1
  have hnone : a.toModel.unpack.isNaN = true := h
  rw [unpack_abs] at hdefined
  cases hunpack : a.toModel.unpack with
  | notANumber =>
    rw [hunpack] at hdefined
    cases hdefined
  | _ =>
    rw [hunpack] at hnone
    cases hnone

/-- Values whose smaller one is above zero have magnitudes above zero. -/
theorem not_abs_le_zero_of_lt_minNum {tol a b : Float} (htol : 0 ≤ tol)
    (h : tol < Scalar.minNum a b) : ¬ Scalar.abs a ≤ 0 ∧ ¬ Scalar.abs b ≤ 0 := by
  have hpos : 0 < Scalar.minNum a b := ComparableScalar.lt_of_le_of_lt htol h
  unfold Scalar.minNum at hpos
  split at hpos
  case isTrue ha => exact ⟨not_abs_le_zero_of_undefined ha, not_abs_le_zero_of_pos hpos⟩
  case isFalse ha =>
    split at hpos
    case isTrue hba =>
      have ha' := ComparableScalar.lt_of_le_of_lt (ComparableScalar.le_of_lt hpos) hba
      exact ⟨not_abs_le_zero_of_pos ha', not_abs_le_zero_of_pos hpos⟩
    case isFalse hnot =>
      refine ⟨not_abs_le_zero_of_pos hpos, ?_⟩
      cases hb : Scalar.isUndefined b with
      | true => exact not_abs_le_zero_of_undefined hb
      | false =>
        have hle := ComparableScalar.le_of_not_lt hb (eq_false_of_ne_true ha) hnot
        exact not_abs_le_zero_of_pos (ComparableScalar.lt_of_lt_of_le hpos hle)

end Binary64

/-- The laws hold of doubles as well. -/
instance : DiscernibleScalar Float where
  totalCompare_swap a b := Std.OrientedCmp.eq_swap
  apart v hv := by
    have htol : (0 : Float) ≤ Problem.fractionalTol := by decide +kernel
    obtain ⟨hfloor, hceil⟩ := Binary64.not_abs_le_zero_of_lt_minNum htol hv
    rw [Binary64.abs_sub_comm v (Scalar.ceil v)]
    exact ⟨hfloor, hceil⟩

end BranchBound
