import BranchBound.Proofs.LinearProgram.Undisturbed
import BranchBound.Proofs.Search.Fractional
import BranchBound.Relaxation.Simplex

/-!
# Answers of the simplex backend

An optimum is answered by a point that satisfies the relaxation up to the tolerance of the solver,
with its values and its objective rounded to seven places. Rounding keeps the order, so a value that
is no better stays no better, and a point that is off a whole bound by the tolerance alone is put
back on it.

* `roundRat_mono`, `abs_roundRat_sub_le`: the nearest whole number.
* `nearest7`, `round7_mono`, `abs_nearest7_sub_le`: seven places.
* `RoundedOptimum`, `exists_roundedOptimum`: what an optimal answer stands for.
* `Box.ZeroOne`, `RoundedOptimum.contains`: in a box whose bounds are zero or one, the rounded point
  lies in the box.
* `optimum_of_undisturbed`: an undisturbed solve gives every point of the box its due.
-/

namespace BranchBound

/-! ## Rounding -/

namespace ExtRat

theorem roundRat_of_nonneg {a : ℚ} (h : 0 ≤ a) : roundRat a = ⌊a + 1 / 2⌋ := by
  rw [roundRat, if_pos h]
  rfl

theorem roundRat_of_neg {a : ℚ} (h : a < 0) : roundRat a = ⌈a - 1 / 2⌉ := by
  rw [roundRat, if_neg (not_le.mpr h), Rat.ceil_eq_neg_floor_neg]
  rfl

/-- The nearest whole number is at most a half away. -/
theorem abs_roundRat_sub_le (a : ℚ) : |roundRat a - a| ≤ 1 / 2 := by
  rw [abs_le]
  rcases le_or_gt 0 a with h | h
  · have hle := Int.floor_le (a + 1 / 2)
    have hlt := Int.lt_floor_add_one (a + 1 / 2)
    rw [roundRat_of_nonneg h]
    constructor <;> linarith
  · have hle := Int.le_ceil (a - 1 / 2)
    have hlt := Int.ceil_lt_add_one (a - 1 / 2)
    rw [roundRat_of_neg h]
    constructor <;> linarith

/-- Rounding keeps the order. -/
theorem roundRat_mono : Monotone roundRat := by
  intro a b hab
  rcases le_or_gt 0 a with ha | ha
  · rw [roundRat_of_nonneg ha, roundRat_of_nonneg (ha.trans hab), Int.cast_le]
    exact Int.floor_mono (by linarith)
  · rw [roundRat_of_neg ha]
    rcases le_or_gt 0 b with hb | hb
    · -- zero lies between the two
      have hleft : ⌈a - 1 / 2⌉ ≤ 0 := Int.ceil_le.mpr (by push_cast; linarith)
      have hright : 0 ≤ ⌊b + 1 / 2⌋ := Int.floor_nonneg.mpr (by linarith)
      rw [roundRat_of_nonneg hb, Int.cast_le]
      omega
    · rw [roundRat_of_neg hb, Int.cast_le]
      exact Int.ceil_mono (by linarith)

/-- The nearest whole number to a value between zero and one is zero or one. -/
theorem roundRat_eq_zero_or_one {v : ℚ} (hzero : 0 ≤ v) (hone : v ≤ 1) :
    roundRat v = 0 ∨ roundRat v = 1 := by
  have hlow : 0 ≤ ⌊v + 1 / 2⌋ := Int.floor_nonneg.mpr (by linarith)
  have hhigh : ⌊v + 1 / 2⌋ < 2 := Int.floor_lt.mpr (by push_cast; linarith)
  have hcases : ⌊v + 1 / 2⌋ = 0 ∨ ⌊v + 1 / 2⌋ = 1 := by omega
  rw [roundRat_of_nonneg hzero]
  rcases hcases with h | h
  · exact .inl (by rw [h, Int.cast_zero])
  · exact .inr (by rw [h, Int.cast_one])

/-- Products of negated finite values. -/
theorem neg_dot_map_neg {l : List ExtRat} (h : ∀ c ∈ l, Scalar.isFinite c = true) (y : List ℚ) :
    -Scalar.dot (l.map fun c => -c) (y.map fin) = Scalar.dot l (y.map fin) := by
  have hneg : ∀ as ys : List ℚ, ratDot (as.map fun a => -a) ys = -ratDot as ys := by
    intro as
    induction as with
    | nil =>
      intro ys
      simp [ratDot]
    | cons a as ih =>
      intro ys
      cases ys with
      | nil => simp [ratDot]
      | cons b ys =>
        rw [List.map_cons, ratDot_cons, ratDot_cons, ih]
        ring
  rw [← map_fin_map_toRat h, List.map_map]
  show -Scalar.dot ((l.map toRat).map fun a => fin (-a)) (y.map fin) = _
  rw [← Function.comp_def fin, ← List.map_map, dot_map_fin, dot_map_fin, hneg]
  show fin (-(-ratDot _ _)) = _
  rw [neg_neg]

end ExtRat

/-! ## Bounds of zero and one -/

/-- Every bound is zero or one. -/
def Box.ZeroOne (box : Box ExtRat) : Prop := ∀ b ∈ box.lower ++ box.upper, b = 0 ∨ b = 1

theorem Box.isFinite_of_zero_or_one {b : ExtRat} (h : b = 0 ∨ b = 1) :
    Scalar.isFinite b = true := by
  rcases h with rfl | rfl <;> rfl

/-- Where all bounds are zero or one, values lie between the two. -/
theorem Box.ZeroOne.value_mem {box : Box ExtRat} (h : box.ZeroOne) {x : List ExtRat}
    (hx : box.Contains x) {i : ℕ} {v : ExtRat} (hv : x[i]? = some v) : 0 ≤ v ∧ v ≤ 1 := by
  obtain ⟨lo, hlo, hle⟩ := exists_getElem?_of_forall₂ hx.1 hv
  obtain ⟨hi, hhi, hge⟩ := exists_getElem?_of_forall₂ hx.2.flip hv
  have hzero : (0 : ExtRat) ≤ 1 := by decide +kernel
  constructor
  · rcases h lo (List.mem_append_left _ (List.mem_of_getElem? hlo)) with rfl | rfl
    · exact hle
    · exact hzero.trans hle
  · rcases h hi (List.mem_append_right _ (List.mem_of_getElem? hhi)) with rfl | rfl
    · exact le_trans hge hzero
    · exact hge

namespace Relaxation

/-- A rational number rounded to seven places after the point. -/
def nearest7 (a : ℚ) : ℚ := ExtRat.roundRat (a * 10000000) / 10000000

@[simp] theorem round7_fin (a : ℚ) : round7 (ExtRat.fin a) = .fin (nearest7 a) := by
  show ExtRat.fin (ExtRat.roundRat (a * (10000000 : ℕ))) / .fin ((10000000 : ℕ) : ℚ) = _
  rw [ExtRat.fin_div]
  rfl

/-- Rounding moves a number by at most half a unit of the seventh place. -/
theorem abs_nearest7_sub_le (a : ℚ) : |nearest7 a - a| ≤ 1 / 20000000 := by
  have hle := abs_le.mp (ExtRat.abs_roundRat_sub_le (a * 10000000))
  rw [abs_le, nearest7]
  constructor <;> linarith [hle.1, hle.2]

/-- So does rounding to seven places. -/
theorem nearest7_mono : Monotone nearest7 := by
  intro a b hab
  have hle : ExtRat.roundRat (a * 10000000) ≤ ExtRat.roundRat (b * 10000000) :=
    ExtRat.roundRat_mono (by linarith)
  rw [nearest7, nearest7]
  linarith

theorem round7_mono : Monotone (round7 : ExtRat → ExtRat) := by
  intro a b hab
  cases a with
  | negInf => exact ExtRat.negInf_le _
  | fin a =>
    cases b with
    | negInf => exact hab.elim
    | fin b =>
      rw [round7_fin, round7_fin, ExtRat.fin_le_fin]
      exact nearest7_mono hab
    | posInf => exact ExtRat.le_posInf _
  | posInf =>
    cases b with
    | negInf => exact hab.elim
    | fin b => exact hab.elim
    | posInf => exact le_refl _

/-! ## Answers -/

variable {p : Problem ExtRat} {box : Box ExtRat} {s : SimplexState ExtRat} {a : Answer ExtRat}

/-- A request leaves the simplex backend as it is. -/
theorem state_simplex {α : Type} [Scalar α] (p : Problem α) (box : Box α) (cap : Option ℕ)
    (s : SimplexState α) : (simplex.solve p box cap s).2 = s := by
  unfold simplex
  dsimp only
  split <;> rfl

/-- An answer comes from a report of the solver. -/
theorem exists_report {α : Type} [Scalar α] {p : Problem α} {box : Box α} {cap : Option ℕ}
    {s : SimplexState α} {a : Answer α} (h : (simplex.solve p box cap s).1.outcome = .ok a) :
    ∃ r, (p.relaxation box.lower box.upper).solve (s.settingsFor cap) = .ok r ∧
      a = (interpret cap r).1 := by
  unfold simplex at h
  dsimp only at h
  split at h
  · cases h
  · rename_i r hr
    cases h
    exact ⟨r, hr, rfl⟩

/-- An answer is optimal exactly if the report is. -/
theorem isOptimal_interpret_iff {α : Type} [Scalar α] {cap : Option ℕ}
    {r : LinearProgram.Report α} :
    (interpret cap r).1.isOptimal = true ↔ r.status = .optimal := by
  unfold interpret Answer.isOptimal
  rw [decide_eq_true_iff]
  cases r.status <;> cases cap <;> simp [roundedAnswer, Answer.infeasible]

/-- An optimum is answered with its point and objective rounded. -/
theorem interpret_of_optimal {α : Type} [Scalar α] {cap : Option ℕ} {r : LinearProgram.Report α}
    (h : r.status = .optimal) : (interpret cap r).1 = roundedAnswer .optimal r := by
  unfold interpret
  rw [h]

/-- What an optimal answer stands for: a rational point that satisfies the rows and bounds of the
relaxation up to a tolerance, with its values and its objective rounded. -/
structure RoundedOptimum (p : Problem ExtRat) (box : Box ExtRat) (tol : ExtRat) (z : List ℚ)
    (a : Answer ExtRat) : Prop where
  length_eq : z.length = p.numVars
  rows : (p.relaxation box.lower box.upper).RowsHoldUpTo tol (z.map .fin)
  bounds : (p.relaxation box.lower box.upper).BoundsHoldUpTo tol (z.map .fin)
  x_eq : a.x = (z.map .fin).map round7
  objective_eq : a.objective = round7 (p.objectiveValue (z.map .fin))

theorem isFinite_objective_of_relaxation
    (h : (p.relaxation box.lower box.upper).WellFormed) :
    ∀ c ∈ p.objective, Scalar.isFinite c = true := by
  intro c hc
  have hneg := h.cost_finite _ (List.mem_map_of_mem hc)
  cases c with
  | fin c => rfl
  | negInf => cases hneg
  | posInf => cases hneg

/-- The relaxation minimizes the negated objective, and rounding keeps the order: a point that costs
no less than what is reported is worth no more than what is answered. -/
theorem round7_objectiveValue_le {r : LinearProgram.Report ExtRat} {y : List ℚ}
    (hwf : (p.relaxation box.lower box.upper).WellFormed)
    (hle : r.objective ≤ Scalar.dot (p.relaxation box.lower box.upper).cost (y.map .fin)) :
    round7 (p.objectiveValue (y.map .fin)) ≤ round7 (-r.objective) := by
  apply round7_mono
  calc p.objectiveValue (y.map .fin)
      = -Scalar.dot (p.objective.map fun c => -c) (y.map .fin) :=
        (ExtRat.neg_dot_map_neg (isFinite_objective_of_relaxation hwf) y).symm
    _ ≤ -r.objective := (ExtRat.neg_le_neg_iff _ _).mpr hle

/-- Behind every optimal answer is a point that keeps rows and bounds up to the tolerance. -/
theorem exists_roundedOptimum (h : (simplex.solve p box none s).1.outcome = .ok a)
    (hoptimal : a.isOptimal = true) :
    ∃ z, RoundedOptimum p box s.settings.feasibilityTol z a := by
  obtain ⟨r, hr, rfl⟩ := exists_report h
  have hstatus := isOptimal_interpret_iff.mp hoptimal
  obtain ⟨hwf, hset, ⟨-, hbad⟩ | ⟨-, hready, hreported⟩⟩ := LinearProgram.solve_cases hr
  · rw [hstatus] at hbad
    cases hbad
  have htol := (LinearProgram.Settings.pos_of_validate hset).1
  obtain ⟨hrows, hbounds⟩ := LinearProgram.lastVars_holdUpTo hready htol
    (hreported.leaving?_eq_none hstatus)
  rw [interpret_of_optimal hstatus]
  refine ⟨_, ?_, hrows, hbounds, ?_, ?_⟩
  · rw [LinearProgram.length_lastVars]
    exact List.length_map _
  · rw [roundedAnswer, hreported.x_eq hready htol]
  · rw [roundedAnswer, hreported.objective (.inl hstatus),
      LinearProgram.objective_lastPoint hready htol]
    -- the relaxation minimizes the negated objective
    exact congrArg round7 (ExtRat.neg_dot_map_neg (isFinite_objective_of_relaxation hwf) _)

/-! ## Boxes between zero and one -/

/-- A value that the tolerance alone puts below zero or one is rounded back to it. -/
theorem le_round7_of_margin {lo v : ExtRat} (hlo : lo = 0 ∨ lo = 1)
    (h : lo - Scalar.tenth 9 * (1 + Scalar.abs lo) ≤ v) : lo ≤ round7 v := by
  have hround : round7 (lo - Scalar.tenth 9 * (1 + Scalar.abs lo)) = lo := by
    rcases hlo with rfl | rfl <;> decide +kernel
  calc lo = round7 (lo - Scalar.tenth 9 * (1 + Scalar.abs lo)) := hround.symm
    _ ≤ round7 v := round7_mono h

/-- Rounding brings a value back that is above a bound of zero or one by the tolerance only. -/
theorem round7_le_of_margin {hi v : ExtRat} (hhi : hi = 0 ∨ hi = 1)
    (h : v ≤ hi + Scalar.tenth 9 * (1 + Scalar.abs hi)) : round7 v ≤ hi := by
  have hround : round7 (hi + Scalar.tenth 9 * (1 + Scalar.abs hi)) = hi := by
    rcases hhi with rfl | rfl <;> decide +kernel
  calc round7 v ≤ round7 (hi + Scalar.tenth 9 * (1 + Scalar.abs hi)) := round7_mono h
    _ = hi := hround

/-- Where all bounds are zero or one, the rounded point of an optimum lies in the box. -/
theorem RoundedOptimum.contains {z : List ℚ} (h : RoundedOptimum p box (Scalar.tenth 9) z a)
    (hbox : box.ZeroOne) : box.Contains a.x := by
  obtain ⟨hlower, hupper⟩ := h.bounds
  rw [h.x_eq]
  constructor
  · rw [List.forall₂_map_right_iff]
    refine ((List.forall₂_and_left _ _).mpr
      ⟨fun lo hlo => hbox lo (List.mem_append_left _ hlo), hlower⟩).imp ?_
    rintro lo v ⟨hlo, hmargin⟩
    exact le_round7_of_margin hlo (hmargin (Box.isFinite_of_zero_or_one hlo))
  · rw [List.forall₂_map_left_iff]
    -- the condition is on the bounds, which stand on the right here
    refine (((List.forall₂_and_left _ _).mpr
      ⟨fun hi hhi => hbox hi (List.mem_append_right _ hhi), hupper.flip⟩).imp ?_).flip
    rintro hi v ⟨hhi, hmargin⟩
    exact round7_le_of_margin hhi (hmargin (Box.isFinite_of_zero_or_one hhi))

/-! ## Undisturbed solves -/

/-- A point that satisfies the rows in a box is one of the relaxation. -/
theorem feasible_of_relaxedPoint {y : List ℚ} (hy : p.RelaxedPoint box y) :
    (p.relaxation box.lower box.upper).Feasible y := by
  refine ⟨?_, hy.inside⟩
  show List.Forall₂ _ (p.rows.map Row.terms) (p.rows.map Row.rhs)
  rw [List.forall₂_map_left_iff, List.forall₂_map_right_iff, List.forall₂_same]
  exact hy.rows

/-- Where nothing disturbs the solve in a finite box, the answer is an optimum for every point of
the box, and its objective is no worse than that of the point, rounded. -/
theorem optimum_of_undisturbed {y : List ℚ}
    (h : (simplex.solve p box none s).1.outcome = .ok a)
    (hlp : LinearProgram.Undisturbed (p.relaxation box.lower box.upper) s.settings)
    (hfinite : ∀ b ∈ box.lower ++ box.upper, Scalar.isFinite b = true)
    (hy : p.RelaxedPoint box y) :
    a.isOptimal = true ∧ round7 (p.objectiveValue (y.map .fin)) ≤ a.objective := by
  obtain ⟨r, hr, rfl⟩ := exists_report h
  obtain ⟨hstatus, hle⟩ := LinearProgram.optimal_of_undisturbed hr hlp hfinite
    (feasible_of_relaxedPoint hy)
  refine ⟨isOptimal_interpret_iff.mpr hstatus, ?_⟩
  rw [interpret_of_optimal hstatus]
  exact round7_objectiveValue_le (LinearProgram.solve_cases hr).1 hle

end Relaxation

end BranchBound
