import BranchBound.Proofs.LinearProgram.OptimalPoint

/-!
# Infeasible reports

A row in which no column may enter proves that its own basic column cannot come back within its
bounds: moving any resting column off its bound pushes the basic column further out.

* `Tableau.not_within_of_entering?_eq_none`: a row without entering column has no solution within
  the bounds.
* `infeasible_of_primalInfeasible`: an infeasible report means that no point satisfies the program.
-/

namespace BranchBound.LinearProgram

namespace Tableau

variable {m n : ℕ} {f : StandardForm ExtRat m n} {t : Tableau ExtRat m n} {l : Leaving m}
  {tol pivotTol : ExtRat} {bland : Bool}

/-- In a row the basic column makes up for what the resting columns differ between two solutions. -/
theorem sum_resting_sub (ht : Valid f t) (r : Fin m) {z w : Fin (n + m) → ℚ} (hz : f.Solves z)
    (hw : f.Solves w) :
    (z (t.basicColumn r) - w (t.basicColumn r))
      + ∑ j, (if t.place.get j = .basic then 0 else t.entry r j * (z j - w j)) = 0 := by
  rw [← ht.sum_entry r fun j => z j - w j]
  simp only [mul_sub, Finset.sum_sub_distrib]
  rw [(ht.solves_iff z).mpr hz r, (ht.solves_iff w).mpr hw r, sub_self]

/-! ## Rows without an entering column -/

/-- Where no column may enter, no resting column helps: the way it can move off its bound takes the
leaving column further from its own. -/
theorem sign_mul_resting_nonneg (hf : f.Regular) (ht : Valid f t)
    (hrow : NoSmallEntries f t l pivotTol) (hnone : t.entering? f l pivotTol bland = none)
    {z : Fin (n + m) → ℚ} {j : Fin (n + m)}
    (hz : f.lower.get j ≤ .fin (z j) ∧ .fin (z j) ≤ f.upper.get j) (hj : t.place.get j ≠ .basic) :
    0 ≤ l.sign * (t.entry l.row j * (z j - t.point f j)) := by
  rw [← mul_assoc]
  rcases lt_or_ge (f.lower.get j) (f.upper.get j) with hroom | hfixed
  · have hnot : ¬ _ := Bool.eq_false_iff.mp (entering?_eq_none hnone j)
    rcases point_resting hf ht hj with ⟨hplace, hval⟩ | ⟨hplace, hval⟩
    · have hup : 0 ≤ z j - t.point f j := by
        rw [hval] at hz
        exact sub_nonneg.mpr hz.1
      refine mul_nonneg (not_lt.mp fun hsign => hnot ?_) hup
      exact eligible_of_sign ht hrow hroom (.inl ⟨hplace, hsign⟩)
    · have hdown : z j - t.point f j ≤ 0 := by
        rw [hval] at hz
        exact sub_nonpos.mpr hz.2
      refine mul_nonneg_of_nonpos_of_nonpos (not_lt.mp fun hsign => hnot ?_) hdown
      exact eligible_of_sign ht hrow hroom (.inr ⟨hplace, hsign⟩)
  · -- a fixed column has one value only
    rw [point_eq_of_fixed hf ht hj hfixed hz, sub_self, mul_zero]

/-- A value within its bounds lies on the right side of the violated one. -/
theorem sign_mul_bound_le (hfin : Scalar.isFinite (l.bound f t) = true) {v : ℚ}
    (hv : f.lower.get (t.basicColumn l.row) ≤ .fin v ∧ .fin v ≤ f.upper.get (t.basicColumn l.row)) :
    l.sign * (l.bound f t).toRat ≤ l.sign * v := by
  have hside : if l.below then l.bound f t ≤ .fin v else .fin v ≤ l.bound f t := by
    unfold Leaving.bound
    split
    · exact hv.1
    · exact hv.2
  rw [← ExtRat.fin_toRat hfin, ExtRat.fin_le_fin, ExtRat.fin_le_fin] at hside
  unfold Leaving.sign
  split at hside
  · rw [if_pos ‹_›, one_mul, one_mul]
    exact hside
  · rw [if_neg ‹_›]
    linarith

/-- A row in which no column may enter excludes all solutions within the bounds. -/
theorem not_within_of_entering?_eq_none (hf : f.Regular) (ht : Valid f t) (htol : 0 < tol)
    (hl : t.leaving? f (t.values f) tol bland = some l) (hrow : NoSmallEntries f t l pivotTol)
    (hnone : t.entering? f l pivotTol bland = none) {z : Fin (n + m) → ℚ} (hz : f.Solves z) :
    ¬ ∀ j : Fin (n + m), f.lower.get j ≤ .fin (z j) ∧ .fin (z j) ≤ f.upper.get j := by
  intro hwithin
  obtain ⟨hfin, hout⟩ := sign_mul_point_lt hf ht htol hl
  have hback := sign_mul_bound_le hfin (hwithin (t.basicColumn l.row))
  have hsum := sum_resting_sub ht l.row hz (solves_point hf ht)
  -- resting columns push the leaving column further out, so it cannot come back
  have hside : 0 ≤ l.sign * ∑ j, (if t.place.get j = .basic then 0
      else t.entry l.row j * (z j - t.point f j)) := by
    rw [Finset.mul_sum]
    refine Finset.sum_nonneg fun j _ => ?_
    split
    · rw [mul_zero]
    · exact sign_mul_resting_nonneg hf ht hrow hnone (hwithin j) ‹_›
  have hmove : l.sign * (z (t.basicColumn l.row) - t.point f (t.basicColumn l.row)) ≤ 0 := by
    rw [eq_neg_of_add_eq_zero_left hsum, mul_neg]
    exact neg_nonpos.mpr hside
  rw [mul_sub] at hmove
  linarith

end Tableau

/-! ## Infeasible reports -/

variable {lp : LinearProgram ExtRat} {s : Settings ExtRat} {r : Report ExtRat}

/-- An infeasible report comes from an iterate with a leaving row and no entering column. -/
theorem Reported.entering?_eq_none (hr : Reported lp s r) (hstatus : r.status = .primalInfeasible) :
    ∃ l, (lp.lastIterate s).leaving? (lp.form s) s = some l ∧
      (lp.lastIterate s).entering? (lp.form s) s l = none := by
  have hstop := hr.stopped (by rw [hstatus]; exact Status.noConfusion)
  rw [hstatus] at hstop
  cases hstop with
  | primalInfeasible hl hnone => exact ⟨_, hl, hnone⟩

/-- Crossed bounds are finite, so the box has the same two bounds and no point. -/
theorem not_within_of_crossed (hwf : lp.WellFormed) (h : lp.crossedBound? ≠ none) {big : ExtRat}
    {y : List ℚ} : ¬ Within (lp.boxedLower big) (lp.boxedUpper big) (y.map .fin) := by
  intro hbox
  rw [Ne, crossedBound?_eq_none_iff hwf, not_forall] at h
  obtain ⟨j, hcross⟩ := h
  rw [not_le] at hcross
  have hlo : Scalar.isFinite (lp.lower.getD j 0) = true := by
    refine ExtRat.isFinite_of_ne (fun hinf => ?_) (hwf.lower_getD_ne j)
    exact not_lt.mpr (ExtRat.negInf_le _) (hinf ▸ hcross)
  have hhi : Scalar.isFinite (lp.upper.getD j 0) = true := by
    refine ExtRat.isFinite_of_ne (hwf.upper_getD_ne j) fun hinf => ?_
    exact not_lt.mpr (ExtRat.le_posInf _) (hinf ▸ hcross)
  have hj := hbox.getD (hbox.length_eq.trans length_boxedLower) j
  rw [boxedLower_getD, boxedUpper_getD, boxedVar_eq hlo hhi] at hj
  exact absurd hcross (not_lt.mpr (hj.1.trans hj.2))

/-- Where all bounds are finite, the box is the bounds. -/
theorem boxed_eq_of_finite (hwf : lp.WellFormed) (big : ExtRat)
    (h : ∀ b ∈ lp.lower ++ lp.upper, Scalar.isFinite b = true) :
    lp.boxedLower big = lp.lower ∧ lp.boxedUpper big = lp.upper := by
  have hbox : ∀ j : Fin lp.numVars,
      boxedVar lp big j = (lp.lower.getD j 0, lp.upper.getD j 0) := by
    intro j
    have hlo : (j : ℕ) < lp.lower.length := lt_of_lt_of_eq j.isLt hwf.lower.symm
    have hhi : (j : ℕ) < lp.upper.length := lt_of_lt_of_eq j.isLt hwf.upper.symm
    apply boxedVar_eq
    · rw [List.getD_eq_getElem _ _ hlo]
      exact h _ (List.mem_append_left _ (List.getElem_mem hlo))
    · rw [List.getD_eq_getElem _ _ hhi]
      exact h _ (List.mem_append_right _ (List.getElem_mem hhi))
  rw [← List.forall₂_eq_eq_eq, forall₂_iff_getD length_boxedLower hwf.lower 0 0,
    forall₂_iff_getD length_boxedUpper hwf.upper 0 0]
  constructor
  · intro j
    rw [boxedLower_getD, hbox]
  · intro j
    rw [boxedUpper_getD, hbox]

/-- An infeasible report means that no point satisfies the rows within the box, hence, if all bounds
are finite, that no point satisfies the program. This needs, unless bounds are crossed, that no
entry of the last leaving row was too small for a pivot. -/
theorem infeasible_of_primalInfeasible (h : solve lp s = .ok r)
    (hstatus : r.status = .primalInfeasible)
    (hrow : lp.crossedBound? = none → ∀ l ∈ (lp.lastIterate s).leaving? (lp.form s) s,
      Tableau.NoSmallEntries (lp.form s) (lp.lastIterate s).tableau l s.pivotTol) :
    (∀ y : List ℚ, lp.RowsHold (y.map .fin) →
      ¬ Within (lp.boxedLower s.bigBound) (lp.boxedUpper s.bigBound) (y.map .fin)) ∧
    ((∀ b ∈ lp.lower ++ lp.upper, Scalar.isFinite b = true) → ∀ y : List ℚ,
      lp.RowsHold (y.map .fin) → ¬ Within lp.lower lp.upper (y.map .fin)) := by
  obtain ⟨hwf, hset, hcases⟩ := solve_cases h
  have hbox : ∀ y : List ℚ, lp.RowsHold (y.map .fin) →
      ¬ Within (lp.boxedLower s.bigBound) (lp.boxedUpper s.bigBound) (y.map .fin) := by
    intro y hy hwithin
    rcases hcases with ⟨hcross, -⟩ | ⟨hcross, hready, hr⟩
    · exact not_within_of_crossed hwf hcross hwithin
    · have htol := (Settings.pos_of_validate hset).1
      obtain ⟨l, hl, hnone⟩ := hr.entering?_eq_none hstatus
      exact Tableau.not_within_of_entering?_eq_none (regular_standardForm hready)
        (valid_lastIterate hready htol) htol hl (hrow hcross l hl) hnone (solves_withSlacks hwf y)
        (withSlacks_within hwf hy hwithin)
  refine ⟨hbox, fun hfinite y hy hwithin => hbox y hy ?_⟩
  obtain ⟨hlower, hupper⟩ := boxed_eq_of_finite hwf s.bigBound hfinite
  rw [hlower, hupper]
  exact hwithin

theorem infeasible_of_primalInfeasible_diagonal :
    ∃ r, solve (diagonal (-1)) .standard = .ok r ∧ r.status = .primalInfeasible ∧
      r.iterations = 2 ∧ ∀ y : List ℚ, (diagonal (-1)).RowsHold (y.map .fin) →
        ¬ Within (diagonal (-1)).lower (diagonal (-1)).upper (y.map .fin) := by
  have hok : solve (diagonal (-1)) .standard = .ok (solveValid (diagonal (-1)) .standard) := by
    with_unfolding_all rfl
  have hstatus : (solveValid (diagonal (-1)) .standard).status = .primalInfeasible := by
    decide +kernel
  refine ⟨_, hok, hstatus, by decide +kernel, ?_⟩
  exact (infeasible_of_primalInfeasible hok hstatus (by decide +kernel)).2 (by decide +kernel)

end BranchBound.LinearProgram
