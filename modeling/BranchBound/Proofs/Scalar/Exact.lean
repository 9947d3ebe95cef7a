import Mathlib.Algebra.BigOperators.Field
import Mathlib.Algebra.BigOperators.Fin
import Mathlib.Algebra.Order.BigOperators.Ring.Finset
import Mathlib.Algebra.Order.Field.Rat
import Mathlib.Data.Rat.Floor
import Mathlib.Tactic.FieldSimp
import Mathlib.Tactic.Linarith
import Mathlib.Tactic.Ring
import BranchBound.Scalar.Exact

/-!
# Exact scalars: order and arithmetic

What the exact reading of the solver computes with.

* `ExtRat` is a linear order, so that the order lemmas of the library apply to its comparisons.
* On rational numbers every operation is the rational one (`fin_add`, `fin_mul`, `abs_fin`, …).
* Sums from left to right over rational summands are sums of rational numbers (`foldl_eq_fin`,
  `dot_ofFn`); `ratDot` is the rational scalar product, which `dot_map_fin` reads off the exact one.
* `ExtRat.toRat` reads a value as a rational number, infinities as zero.
-/

namespace BranchBound.ExtRat

/-! ## Order -/

/-- The order of exact scalars is linear: rational numbers lie between the two infinities. -/
instance : LinearOrder ExtRat where
  le_refl a := by
    cases a with
    | negInf => trivial
    | fin a => exact le_refl a
    | posInf => trivial
  le_trans a b c hab hbc := by
    cases a <;> cases b <;> cases c <;>
      first
      | trivial
      | exact hab.elim
      | exact hbc.elim
      | exact Rat.le_trans hab hbc
  le_antisymm a b hab hba := by
    cases a <;> cases b <;>
      first
      | rfl
      | exact hab.elim
      | exact hba.elim
      | exact congrArg fin (Rat.le_antisymm hab hba)
  le_total a b := by
    cases a <;> cases b <;>
      first
      | exact Or.inl trivial
      | exact Or.inr trivial
      | exact Rat.le_total
  lt_iff_le_not_ge a b := by
    cases a <;> cases b <;>
      first
      | exact ⟨fun _ => ⟨trivial, id⟩, fun _ => trivial⟩
      | exact ⟨fun h => h.elim, fun h => h.2 trivial⟩
      | exact Rat.lt_iff_le_not_ge _ _
  toDecidableLE a b := inferInstanceAs (Decidable (le a b))
  toDecidableLT a b := inferInstanceAs (Decidable (lt a b))

@[simp] theorem fin_le_fin {a b : ℚ} : fin a ≤ fin b ↔ a ≤ b := Iff.rfl

@[simp] theorem fin_lt_fin {a b : ℚ} : fin a < fin b ↔ a < b := Iff.rfl

@[simp] theorem le_posInf (a : ExtRat) : a ≤ posInf := by
  cases a <;> trivial

@[simp] theorem negInf_le (a : ExtRat) : negInf ≤ a := by
  cases a <;> trivial

theorem maxNum_eq_max (a b : ExtRat) : Scalar.maxNum a b = max a b := by
  show (if a < b then b else a) = max a b
  split
  case isTrue h => rw [max_eq_right h.le]
  case isFalse h => rw [max_eq_left (not_lt.mp h)]

theorem minNum_eq_min (a b : ExtRat) : Scalar.minNum a b = min a b := by
  show (if b < a then b else a) = min a b
  split
  case isTrue h => rw [min_eq_right h.le]
  case isFalse h => rw [min_eq_left (not_lt.mp h)]

@[simp] theorem max_fin (a b : ℚ) : max (fin a) (fin b) = fin (max a b) := by
  rcases le_total a b with h | h
  · rw [max_eq_right h, max_eq_right (fin_le_fin.mpr h)]
  · rw [max_eq_left h, max_eq_left (fin_le_fin.mpr h)]

@[simp] theorem min_fin (a b : ℚ) : min (fin a) (fin b) = fin (min a b) := by
  rcases le_total a b with h | h
  · rw [min_eq_left h, min_eq_left (fin_le_fin.mpr h)]
  · rw [min_eq_right h, min_eq_right (fin_le_fin.mpr h)]

/-- The total order of exact values is their order. -/
theorem totalCompare_eq_lt_iff {a b : ExtRat} : Scalar.totalCompare a b = .lt ↔ a < b := by
  show (if a < b then Ordering.lt else if a = b then .eq else .gt) = .lt ↔ a < b
  rcases lt_trichotomy a b with h | rfl | h
  · simp [h]
  · simp
  · simp [h.not_gt, h.ne']

theorem totalCompare_eq_gt_iff {a b : ExtRat} : Scalar.totalCompare a b = .gt ↔ b < a := by
  show (if a < b then Ordering.lt else if a = b then .eq else .gt) = .gt ↔ b < a
  rcases lt_trichotomy a b with h | rfl | h
  · simp [h, h.not_gt]
  · simp
  · simp [h, h.not_gt, h.ne']

theorem totalCompare_self (a : ExtRat) : Scalar.totalCompare a a = .eq := by
  show (if a < a then Ordering.lt else if a = a then .eq else .gt) = .eq
  simp

/-- The negative of the larger value is the smaller one. -/
theorem neg_le_neg_iff (a b : ExtRat) : -a ≤ -b ↔ b ≤ a := by
  cases a <;> cases b <;>
    first
    | exact Iff.rfl
    | exact ⟨fun _ => trivial, fun _ => trivial⟩
    | exact ⟨fun h => h.elim, fun h => h.elim⟩
    | exact Rat.neg_le_neg_iff

/-! ## Arithmetic of rational numbers -/

theorem zero_eq_fin : (0 : ExtRat) = fin 0 := rfl

theorem one_eq_fin : (1 : ExtRat) = fin 1 := rfl

/-- Arithmetic of finite values is that of rational numbers. -/
@[simp] theorem fin_add (a b : ℚ) : fin a + fin b = fin (a + b) := rfl

@[simp] theorem fin_mul (a b : ℚ) : fin a * fin b = fin (a * b) := rfl

@[simp] theorem fin_sub (a b : ℚ) : fin a - fin b = fin (a - b) := by
  rw [sub_eq_add_neg]
  rfl

@[simp] theorem fin_div (a b : ℚ) : fin a / fin b = fin (a / b) := by
  rw [div_eq_mul_inv]
  rfl

@[simp] theorem abs_fin (a : ℚ) : Scalar.abs (fin a) = fin |a| := by
  show fin (if a < 0 then -a else a) = fin |a|
  split
  case isTrue h => rw [abs_of_neg h]
  case isFalse h => rw [abs_of_nonneg (not_lt.mp h)]

@[simp] theorem fin_eq_zero {a : ℚ} : fin a = 0 ↔ a = 0 := by
  rw [zero_eq_fin, fin.injEq]

@[simp] theorem fin_beq_zero (a : ℚ) : (fin a == (0 : ExtRat)) = decide (a = 0) := by
  show decide (fin a = 0) = decide (a = 0)
  simp only [fin_eq_zero]

@[simp] theorem floor_fin (a : ℚ) : Scalar.floor (fin a) = fin ⌊a⌋ := rfl

@[simp] theorem ceil_fin (a : ℚ) : Scalar.ceil (fin a) = fin ⌈a⌉ := by
  show fin (a.ceil : ℚ) = fin ⌈a⌉
  rw [Rat.ceil_eq_neg_floor_neg]
  rfl

/-- Rounding down leaves infinite values alone and never goes up. -/
theorem floor_le (v : ExtRat) : Scalar.floor v ≤ v := by
  cases v with
  | fin a =>
    rw [floor_fin, fin_le_fin]
    exact Int.floor_le a
  | negInf => exact le_refl negInf
  | posInf => exact le_refl posInf

theorem le_ceil (v : ExtRat) : v ≤ Scalar.ceil v := by
  cases v with
  | fin a =>
    rw [ceil_fin, fin_le_fin]
    exact Int.le_ceil a
  | negInf => exact le_refl negInf
  | posInf => exact le_refl posInf

/-- Powers of a tenth are exact. -/
theorem tenth_eq_fin (k : ℕ) : (Scalar.tenth k : ExtRat) = fin (1 / 10 ^ k) := by
  rw [Scalar.tenth, one_eq_fin]
  show fin 1 / fin ((Nat.pow 10 k : ℕ) : ℚ) = _
  rw [fin_div, Nat.pow_eq, Nat.cast_pow, Nat.cast_ofNat]

/-! ## Margins -/

/-- A margin that is added to a bound widens it, also where the bound is infinite. -/
theorem le_add_of_nonneg (a : ExtRat) {d : ExtRat} (hd : 0 ≤ d) : a ≤ a + d := by
  cases d with
  | negInf => exact hd.elim
  | fin d =>
    cases a with
    | fin a => exact le_add_of_le_of_nonneg (le_refl a) hd
    | negInf => exact negInf_le _
    | posInf => exact le_refl posInf
  | posInf =>
    cases a with
    | fin a => exact le_posInf (fin a)
    | negInf => exact negInf_le _
    | posInf => exact le_refl posInf

theorem sub_le_of_nonneg (a : ExtRat) {d : ExtRat} (hd : 0 ≤ d) : a - d ≤ a := by
  cases d with
  | negInf => exact hd.elim
  | fin d =>
    cases a with
    | fin a =>
      rw [fin_sub]
      exact sub_le_self a hd
    | negInf => exact le_refl negInf
    | posInf => exact le_refl posInf
  | posInf => cases a <;> exact negInf_le _

theorem sub_nonpos_of_le {a b : ExtRat} (h : a ≤ b) : a - b ≤ 0 := by
  cases b with
  | negInf =>
    cases a with
    | negInf => exact negInf_le 0
    | fin a => exact h.elim
    | posInf => exact h.elim
  | fin b =>
    cases a with
    | negInf => exact negInf_le 0
    | fin a =>
      rw [fin_sub, zero_eq_fin, fin_le_fin]
      exact sub_nonpos.mpr h
    | posInf => exact h.elim
  | posInf => cases a <;> exact negInf_le 0

/-- A tolerance relative to a value is not negative. -/
theorem margin_nonneg {tol : ExtRat} (htol : 0 < tol) (a : ExtRat) :
    0 ≤ tol * (1 + Scalar.abs a) := by
  cases tol with
  | negInf => exact htol.elim
  | fin t =>
    have ht : 0 < t := htol
    cases a with
    | fin a =>
      rw [abs_fin, one_eq_fin, fin_add, fin_mul]
      exact mul_nonneg ht.le (by positivity)
    | negInf =>
      show 0 ≤ scaleInf t
      rw [scaleInf, if_pos ht]
      exact le_posInf 0
    | posInf =>
      show 0 ≤ scaleInf t
      rw [scaleInf, if_pos ht]
      exact le_posInf 0
  | posInf =>
    cases a with
    | fin a =>
      rw [abs_fin, one_eq_fin, fin_add]
      show 0 ≤ scaleInf (1 + |a|)
      rw [scaleInf, if_pos (by positivity)]
      exact le_posInf 0
    | negInf => exact le_posInf 0
    | posInf => exact le_posInf 0

/-- At zero a relative tolerance is an absolute one. -/
theorem mul_one_add_abs_zero (tol : ExtRat) : tol * (1 + Scalar.abs 0) = tol := by
  rw [zero_eq_fin, abs_fin, one_eq_fin, fin_add, abs_zero, add_zero]
  cases tol with
  | negInf => rfl
  | fin t => rw [fin_mul, mul_one]
  | posInf => rfl

/-- A margin below zero moves to the other side. -/
theorem fin_sub_le_of_zero_sub_le {a b : ℚ} {tol : ExtRat} (h : 0 - tol ≤ fin b) :
    fin (a - b) ≤ fin a + tol := by
  cases tol with
  | negInf => exact h.elim
  | fin t =>
    rw [zero_eq_fin, fin_sub, fin_le_fin] at h
    rw [fin_add, fin_le_fin]
    linarith
  | posInf => exact le_posInf _

/-! ## Reading a value as a rational number -/

/-- The rational number of a finite value, and zero for an infinity. -/
def toRat : ExtRat → ℚ
  | fin a => a
  | _ => 0

@[simp] theorem toRat_fin (a : ℚ) : (fin a).toRat = a := rfl

/-- A finite value is the rational number it is read as. -/
theorem fin_toRat {a : ExtRat} (h : Scalar.isFinite a = true) : fin a.toRat = a := by
  cases a with
  | fin a => rfl
  | negInf => cases h
  | posInf => cases h

theorem isFinite_of_ne {a : ExtRat} (hneg : a ≠ negInf) (hpos : a ≠ posInf) :
    Scalar.isFinite a = true := by
  cases a with
  | fin a => rfl
  | negInf => exact absurd rfl hneg
  | posInf => exact absurd rfl hpos

/-- A value between two rational numbers is one. -/
theorem fin_toRat_of_le_of_le {a : ExtRat} {l u : ℚ} (hl : fin l ≤ a) (hu : a ≤ fin u) :
    fin a.toRat = a := by
  refine fin_toRat (isFinite_of_ne ?_ ?_)
  · rintro rfl
    exact hl
  · rintro rfl
    exact hu

/-! ## Sums -/

/-- A left-to-right accumulation that adds a rational number at every step is a rational sum. -/
theorem foldl_eq_fin {β : Type} {step : ExtRat → β → ExtRat} {g : β → ℚ} (l : List β)
    (hstep : ∀ e ∈ l, ∀ a : ℚ, step (fin a) e = fin (a + g e)) (a : ℚ) :
    l.foldl step (fin a) = fin (a + (l.map g).sum) := by
  induction l generalizing a with
  | nil => rw [List.foldl_nil, List.map_nil, List.sum_nil, add_zero]
  | cons e l ih =>
    rw [List.foldl_cons, hstep e List.mem_cons_self,
      ih (fun d hd => hstep d (List.mem_cons_of_mem e hd)), List.map_cons, List.sum_cons, add_assoc]

/-- A sum of rational numbers from left to right is their sum. -/
theorem sum_map_fin (l : List ℚ) : Scalar.sum (l.map fin) = fin l.sum := by
  show (l.map fin).foldl (· + ·) (fin (-0)) = fin l.sum
  rw [List.foldl_map, foldl_eq_fin (g := id) l fun e _ a => rfl, List.map_id, neg_zero, zero_add]

/-- A list of finite values is a list of rational numbers. -/
theorem map_fin_map_toRat {l : List ExtRat} (h : ∀ c ∈ l, Scalar.isFinite c = true) :
    (l.map toRat).map fin = l := by
  rw [List.map_map, List.map_congr_left (g := id), List.map_id]
  intro c hc
  exact fin_toRat (h c hc)

/-- Sum of the products of corresponding rational entries. -/
def ratDot (a b : List ℚ) : ℚ := (a.zipWith (· * ·) b).sum

theorem ratDot_cons (a b : ℚ) (as bs : List ℚ) :
    ratDot (a :: as) (b :: bs) = a * b + ratDot as bs := by
  rw [ratDot, List.zipWith_cons_cons, List.sum_cons, ratDot]

/-- The product of two lists of rational numbers. -/
theorem dot_map_fin (a b : List ℚ) : Scalar.dot (a.map fin) (b.map fin) = fin (ratDot a b) := by
  have hzip : (a.map fin).zipWith (· * ·) (b.map fin) = (a.zipWith (· * ·) b).map fin := by
    rw [List.zipWith_map, List.map_zipWith]
    rfl
  rw [Scalar.dot, hzip, sum_map_fin, ratDot]

/-- The product of two rational vectors. -/
theorem dot_ofFn {n : ℕ} (a b : Fin n → ℚ) :
    Scalar.dot (List.ofFn fun j => fin (a j)) (List.ofFn fun j => fin (b j))
      = fin (∑ j, a j * b j) := by
  have hzip : (List.ofFn fun j => fin (a j)).zipWith (· * ·) (List.ofFn fun j => fin (b j))
      = (List.ofFn fun j => a j * b j).map fin := by
    apply List.ext_getElem
    · simp only [List.length_zipWith, List.length_map, List.length_ofFn, min_self]
    · intro j _ _
      simp only [List.getElem_zipWith, List.getElem_map, List.getElem_ofFn, fin_mul]
  rw [Scalar.dot, hzip, sum_map_fin, List.sum_ofFn]

end BranchBound.ExtRat
