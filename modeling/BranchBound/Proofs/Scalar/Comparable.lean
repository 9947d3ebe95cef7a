import Mathlib.Data.Prod.Lex
import BranchBound.Proofs.Scalar.Ordered
import BranchBound.Scalar.Binary64

/-!
# Comparable scalars

The comparisons of floating point are no linear order: an undefined value compares with nothing, not
even with itself, and zero comes with two signs. What is left is a total preorder on the values that
are defined, and proofs about incumbents need no more than that.

* `ComparableScalar`: the laws.
* `ComparableScalar.Counts`: values above the negative infinity.
* `Binary64.place`: where a double-precision value stands among the others.
* Exact numbers and doubles are comparable scalars, and doubles are in a total order as well.
-/

namespace BranchBound

/-- The comparisons of scalars are a total preorder on the defined ones, with the negative infinity
below all of them, and false wherever an undefined value takes part. -/
class ComparableScalar (α : Type) [Scalar α] : Prop where
  le_trans : ∀ a b c : α, a ≤ b → b ≤ c → a ≤ c
  le_total : ∀ a b : α, Scalar.isUndefined a = false → Scalar.isUndefined b = false →
    a ≤ b ∨ b ≤ a
  lt_iff_le_not_ge : ∀ a b : α, a < b ↔ a ≤ b ∧ ¬ b ≤ a
  defined_of_le : ∀ a b : α, a ≤ b → Scalar.isUndefined a = false ∧ Scalar.isUndefined b = false
  defined_neg_infinity : Scalar.isUndefined (-Scalar.infinity : α) = false
  neg_infinity_le : ∀ a : α, Scalar.isUndefined a = false → -Scalar.infinity ≤ a

namespace ComparableScalar

variable {α : Type} [Scalar α]

/-- A value that can be better than none: neither undefined nor the negative infinity. -/
def Counts (v : α) : Prop := Scalar.isUndefined v = false ∧ ¬ v ≤ -Scalar.infinity

variable [ComparableScalar α] {a b c : α}

/-- Comparisons chain as in a preorder: a value that compares with another one is not undefined. -/
theorem lt_of_le_of_lt (hab : a ≤ b) (hbc : b < c) : a < c := by
  rw [lt_iff_le_not_ge] at hbc ⊢
  exact ⟨le_trans a b c hab hbc.1, fun hca => hbc.2 (le_trans c a b hca hab)⟩

theorem lt_of_lt_of_le (hab : a < b) (hbc : b ≤ c) : a < c := by
  rw [lt_iff_le_not_ge] at hab ⊢
  exact ⟨le_trans a b c hab.1 hbc, fun hca => hab.2 (le_trans b c a hbc hca)⟩

theorem le_of_lt (hab : a < b) : a ≤ b := ((lt_iff_le_not_ge a b).mp hab).1

theorem le_refl_of_lt (hab : a < b) : b ≤ b := by
  have hb := (defined_of_le a b (le_of_lt hab)).2
  exact (le_total b b hb hb).elim id id

/-- Of two defined values that are not in strict order, the second is at most the first. -/
theorem le_of_not_lt (ha : Scalar.isUndefined a = false) (hb : Scalar.isUndefined b = false)
    (hab : ¬ a < b) : b ≤ a := by
  rcases le_total a b ha hb with hle | hle
  · by_contra hnot
    exact hab ((lt_iff_le_not_ge a b).mpr ⟨hle, hnot⟩)
  · exact hle

/-- A value counts exactly if it is above the objective of an empty incumbent. -/
theorem counts_iff : Counts a ↔ -Scalar.infinity < a := by
  rw [Counts, lt_iff_le_not_ge]
  constructor
  · rintro ⟨hdefined, hnot⟩
    exact ⟨neg_infinity_le a hdefined, hnot⟩
  · rintro ⟨hle, hnot⟩
    exact ⟨(defined_of_le _ _ hle).2, hnot⟩

/-- Whatever is above a value counts. -/
theorem counts_of_lt (hab : a < b) : Counts b := by
  obtain ⟨ha, -⟩ := defined_of_le a b (le_of_lt hab)
  exact counts_iff.mpr (lt_of_le_of_lt (neg_infinity_le a ha) hab)

theorem le_refl_of_defined (ha : Scalar.isUndefined a = false) : a ≤ a :=
  (le_total a a ha ha).elim id id

/-- The larger of two defined values is one of them, and at least both. -/
theorem maxNum_spec (ha : Scalar.isUndefined a = false) (hb : Scalar.isUndefined b = false) :
    a ≤ Scalar.maxNum a b ∧ b ≤ Scalar.maxNum a b ∧
      (Scalar.maxNum a b = a ∨ Scalar.maxNum a b = b) := by
  rw [Scalar.maxNum, ha, if_neg Bool.false_ne_true]
  split
  case isTrue hlt => exact ⟨le_of_lt hlt, le_refl_of_defined hb, .inr rfl⟩
  case isFalse hnot => exact ⟨le_refl_of_defined ha, le_of_not_lt ha hb hnot, .inl rfl⟩

/-- A running maximum of defined values is what it starts from or one of the values it has seen, and
at least all of them. -/
theorem foldl_maxNum {β : Type} (g : β → α) {l : List β} {best : α}
    (hbest : Scalar.isUndefined best = false) (hl : ∀ d ∈ l, Scalar.isUndefined (g d) = false) :
    best ≤ l.foldl (fun best e => Scalar.maxNum best (g e)) best ∧
      (∀ d ∈ l, g d ≤ l.foldl (fun best e => Scalar.maxNum best (g e)) best) ∧
      (l.foldl (fun best e => Scalar.maxNum best (g e)) best = best ∨
        ∃ d ∈ l, l.foldl (fun best e => Scalar.maxNum best (g e)) best = g d) := by
  induction l generalizing best with
  | nil => exact ⟨le_refl_of_defined hbest, fun d hd => (List.not_mem_nil hd).elim, .inl rfl⟩
  | cons c l ih =>
    obtain ⟨hc, hl⟩ := List.forall_mem_cons.mp hl
    obtain ⟨hleft, hright, hwhich⟩ := maxNum_spec hbest hc
    obtain ⟨hstart, hall, hfound⟩ := ih (defined_of_le _ _ hleft).2 hl
    refine ⟨le_trans _ _ _ hleft hstart, fun d hd => ?_, ?_⟩
    · rcases List.mem_cons.mp hd with rfl | hd
      · exact le_trans _ _ _ hright hstart
      · exact hall d hd
    · rcases hfound with heq | ⟨d, hd, heq⟩
      · rcases hwhich with hwhich | hwhich
        · exact .inl (heq.trans hwhich)
        · exact .inr ⟨c, List.mem_cons_self, heq.trans hwhich⟩
      · exact .inr ⟨d, List.mem_cons_of_mem c hd, heq⟩

end ComparableScalar

/-- Linearly ordered scalars are comparable. -/
instance (priority := low) {α : Type} [Scalar α] [LinearScalar α] : ComparableScalar α where
  le_trans := LinearScalar.le_trans
  le_total a b _ _ := LinearScalar.le_total a b
  lt_iff_le_not_ge := LinearScalar.lt_iff_le_not_ge
  defined_of_le a b _ := ⟨LinearScalar.not_undefined a, LinearScalar.not_undefined b⟩
  defined_neg_infinity := LinearScalar.not_undefined _
  neg_infinity_le a _ := LinearScalar.neg_infinity_le a

/-! ## Doubles -/

namespace Binary64

open Float.Model

/-- Where a value stands: by its sign, then by its exponent, then by its mantissa. -/
def place : UnpackedFloat → ℤ ×ₗ ℤ ×ₗ ℤ
  | .infinity .negative => toLex (-2, toLex (0, 0))
  | .finite .negative m e _ => toLex (-1, toLex (-e, -m))
  | .zero _ => toLex (0, toLex (0, 0))
  | .finite .positive m e _ => toLex (1, toLex (e, m))
  | .infinity .positive => toLex (2, toLex (0, 0))
  | .notANumber => toLex (3, toLex (0, 0))

theorem isNaN_infinity (sign : UnpackedFloat.Sign) : (UnpackedFloat.infinity sign).isNaN = false := rfl

theorem isNaN_zero (sign : UnpackedFloat.Sign) : (UnpackedFloat.zero sign).isNaN = false := rfl

/-- Only one of the four kinds of unpacked values is undefined. -/
theorem isNaN_finite (sign : UnpackedFloat.Sign) (m : ℕ) (e : ℤ) (hm : 0 < m) :
    (UnpackedFloat.finite sign m e hm).isNaN = false := rfl

theorem isNaN_notANumber : UnpackedFloat.notANumber.isNaN = true := rfl

/-- Magnitudes are compared by exponent, then by mantissa. -/
theorem magnitude_lt_iff (e e' : ℤ) (m m' : ℕ) :
    (compare e e').then (compare m m') = .lt ↔ e < e' ∨ e = e' ∧ m < m' := by
  rw [Ordering.then_eq_lt, compare_lt_iff_lt, compare_eq_iff_eq, compare_lt_iff_lt]

theorem magnitude_gt_iff (e e' : ℤ) (m m' : ℕ) :
    (compare e e').then (compare m m') = .gt ↔ e' < e ∨ e = e' ∧ m' < m := by
  rw [Ordering.then_eq_gt, compare_gt_iff_gt, compare_eq_iff_eq, compare_gt_iff_gt]

/-- Unpacked values are compared by their places, and undefined ones not at all. -/
theorem unpacked_lt_iff (a b : UnpackedFloat) :
    UnpackedFloat.lt a b = true ↔ a.isNaN = false ∧ b.isNaN = false ∧ place a < place b := by
  -- one case for each pair of kinds; only magnitudes of one sign are left to compare
  rcases a with (_ | _) | _ | _ | ⟨_ | _, m, e, hm⟩ <;>
    rcases b with (_ | _) | _ | _ | ⟨_ | _, m', e', hm'⟩ <;>
    dsimp only [UnpackedFloat.lt, UnpackedFloat.compare, place, isNaN_infinity, isNaN_zero,
      isNaN_finite, isNaN_notANumber] <;>
    simp [Prod.Lex.toLex_lt_toLex, magnitude_lt_iff, magnitude_gt_iff]
  all_goals decide

theorem unpacked_le_iff (a b : UnpackedFloat) :
    UnpackedFloat.le a b = true ↔ a.isNaN = false ∧ b.isNaN = false ∧ place a ≤ place b := by
  have hle : ∀ (e e' : ℤ) (m m' : ℕ), ((compare e e').then (compare m m')).isLE = true ↔
      e < e' ∨ e = e' ∧ m ≤ m' := by
    intro e e' m m'
    rw [Ordering.isLE_iff_ne_gt, magnitude_gt_iff]
    omega
  have hge : ∀ (e e' : ℤ) (m m' : ℕ), ((compare e e').then (compare m m')).isGE = true ↔
      e' < e ∨ e = e' ∧ m' ≤ m := by
    intro e e' m m'
    rw [Ordering.isGE_iff_ne_lt, magnitude_lt_iff]
    omega
  rcases a with (_ | _) | _ | _ | ⟨_ | _, m, e, hm⟩ <;>
    rcases b with (_ | _) | _ | _ | ⟨_ | _, m', e', hm'⟩ <;>
    dsimp only [UnpackedFloat.le, UnpackedFloat.compare, place, isNaN_infinity, isNaN_zero,
      isNaN_finite, isNaN_notANumber] <;>
    simp [Prod.Lex.toLex_le_toLex, hle, hge]
  all_goals decide

/-- So are packed ones. -/
theorem lt_iff {a b : Float} : a < b ↔ Scalar.isUndefined a = false ∧
    Scalar.isUndefined b = false ∧ place a.toModel.unpack < place b.toModel.unpack :=
  decide_eq_true_iff.trans (unpacked_lt_iff _ _)

theorem le_iff {a b : Float} : a ≤ b ↔ Scalar.isUndefined a = false ∧
    Scalar.isUndefined b = false ∧ place a.toModel.unpack ≤ place b.toModel.unpack :=
  decide_eq_true_iff.trans (unpacked_le_iff _ _)

/-- The negative infinity is below every defined value. -/
theorem place_neg_infinity_le (u : UnpackedFloat) : place (.infinity .negative) ≤ place u := by
  rcases u with (_ | _) | _ | _ | ⟨_ | _, m, e, hm⟩ <;>
    dsimp only [place] <;> simp [Prod.Lex.toLex_le_toLex]

instance : ComparableScalar Float where
  le_trans a b c hab hbc := by
    rw [le_iff] at hab hbc ⊢
    exact ⟨hab.1, hbc.2.1, hab.2.2.trans hbc.2.2⟩
  le_total a b ha hb := by
    rw [le_iff, le_iff]
    exact (le_total _ _).imp (fun hle => ⟨ha, hb, hle⟩) fun hle => ⟨hb, ha, hle⟩
  lt_iff_le_not_ge a b := by
    rw [lt_iff, le_iff, le_iff, lt_iff_le_not_ge]
    tauto
  defined_of_le a b hab := by
    rw [le_iff] at hab
    exact ⟨hab.1, hab.2.1⟩
  defined_neg_infinity := rfl
  neg_infinity_le a ha := le_iff.mpr ⟨rfl, ha, place_neg_infinity_le _⟩

/-- The total order of doubles is that of their ranks. -/
instance : Std.TransCmp (Scalar.totalCompare : Float → Float → Ordering) :=
  inferInstanceAs (Std.TransCmp (compareOn rank))

end Binary64

end BranchBound
