import BranchBound.Proofs.LinearProgram.Run

/-!
# The point of an optimal report

A solve looks only at the values that a tableau gives. These are the values of the rows and
variables of the program itself, so where no row leaves, the point satisfies the program up to the
tolerance.

* `lastVars`, `Reported.x_eq`: the reported point as rational numbers.
* `objective_lastPoint`: the reported objective is the cost of the reported point.
* `Tableau.within_margin`: without a leaving row every column lies within its bounds up to the
  tolerance.
* `lastVars_holdUpTo`: without a leaving row the rows and bounds of the program hold up to the
  tolerance.
* `optimal_point_feasible`: an optimal report has a feasible point.
-/

namespace BranchBound.LinearProgram

/-! ## The reported point -/

/-- The values of the variables where a solve stops. -/
def lastVars (lp : LinearProgram ExtRat) (s : Settings ExtRat) : List ℚ :=
  List.ofFn fun j : Fin lp.numVars =>
    (lp.lastIterate s).tableau.point (lp.form s) (j.castAdd lp.numRows)

variable {lp : LinearProgram ExtRat} {s : Settings ExtRat} {r : Report ExtRat}

theorem length_lastVars : (lp.lastVars s).length = lp.numVars := List.length_ofFn

theorem lastVars_getD (j : Fin lp.numVars) :
    (lp.lastVars s).getD j 0
      = (lp.lastIterate s).tableau.point (lp.form s) (j.castAdd lp.numRows) := by
  rw [List.getD_eq_getElem _ _ (lt_of_lt_of_eq j.isLt length_lastVars.symm)]
  exact List.getElem_ofFn _

/-- The iterate at which a solve stops rewrites the standard form. -/
theorem valid_lastIterate (hready : Ready lp s.bigBound) (htol : 0 < s.feasibilityTol) :
    Tableau.Valid (lp.form s) (lp.lastIterate s).tableau :=
  Iterate.valid_of_mem_iterates (regular_standardForm hready) htol lastIterate_mem_iterates

theorem Reported.x_eq (hr : Reported lp s r) (hready : Ready lp s.bigBound)
    (htol : 0 < s.feasibilityTol) : r.x = (lp.lastVars s).map .fin := by
  rw [hr.x]
  apply List.ext_getElem
  · rw [List.length_take, Vector.length_toList, List.length_map, length_lastVars]
    omega
  · intro j hj hj'
    rw [List.length_map, length_lastVars] at hj'
    rw [List.getElem_take, Vector.getElem_toList, List.getElem_map,
      List.getElem_eq_getD (0 : ℚ), lastVars_getD ⟨j, hj'⟩]
    exact Tableau.values_eq_fin (regular_standardForm hready) (valid_lastIterate hready htol)
      (Fin.castAdd lp.numRows ⟨j, hj'⟩)

/-- The objective of the last tableau is the cost of the variables. -/
theorem objective_lastPoint (hready : Ready lp s.bigBound) (htol : 0 < s.feasibilityTol) :
    (lp.form s).objective (lp.lastPoint s) = Scalar.dot lp.cost ((lp.lastVars s).map .fin) := by
  have hf := regular_standardForm hready
  rw [lastPoint, StandardForm.objective_eq_fin hf
    (Tableau.values_eq_fin hf (valid_lastIterate hready htol))]
  exact fin_value hready.wellFormed length_lastVars fun j => (lastVars_getD j).symm

/-- What a row leaves of its right-hand side is the value of its slack. -/
theorem activity_lastVars (hready : Ready lp s.bigBound) (htol : 0 < s.feasibilityTol)
    (i : Fin lp.numRows) :
    Terms.activity (lp.matrix.rows.getD i []) ((lp.lastVars s).map .fin)
      = .fin ((lp.rhs.getD i 0).toRat
          - (lp.lastIterate s).tableau.point (lp.form s) (Fin.natAdd lp.numVars i)) := by
  have hsolves := Tableau.solves_point (regular_standardForm hready)
    (valid_lastIterate hready htol) i
  rw [sum_entry hready.wellFormed, StandardForm.right, standardForm_rhs] at hsolves
  rw [Terms.activity_eq_fin (hready.wellFormed.row_finite i) length_lastVars]
  simp only [lastVars_getD]
  rw [← hsolves, add_sub_cancel_right]

/-! ## No leaving row -/

/-- An optimal report comes from an iterate without a leaving row. -/
theorem Reported.leaving?_eq_none (hr : Reported lp s r) (hstatus : r.status = .optimal) :
    (lp.lastIterate s).leaving? (lp.form s) s = none := by
  have hstop := hr.stopped (by rw [hstatus]; exact Status.noConfusion)
  rw [hstatus] at hstop
  cases hstop with
  | optimal h => exact h

/-- Without a leaving row every column lies within its bounds up to the tolerance. -/
theorem Tableau.within_margin {m n : ℕ} {f : StandardForm ExtRat m n} {t : Tableau ExtRat m n}
    {tol : ExtRat} {bland : Bool} (hf : f.Regular) (ht : Tableau.Valid f t) (htol : 0 < tol)
    (h : t.leaving? f (t.values f) tol bland = none) (j : Fin (n + m)) :
    f.lower.get j - tol * (1 + Scalar.abs (f.lower.get j)) ≤ .fin (t.point f j) ∧
      .fin (t.point f j) ≤ f.upper.get j + tol * (1 + Scalar.abs (f.upper.get j)) := by
  have hle : f.lower.get j ≤ .fin (t.point f j) ∧ .fin (t.point f j) ≤ f.upper.get j →
      f.lower.get j - tol * (1 + Scalar.abs (f.lower.get j)) ≤ .fin (t.point f j) ∧
        .fin (t.point f j) ≤ f.upper.get j + tol * (1 + Scalar.abs (f.upper.get j)) := fun hin =>
    ⟨(ExtRat.sub_le_of_nonneg _ (ExtRat.margin_nonneg htol _)).trans hin.1,
      hin.2.trans (ExtRat.le_add_of_nonneg _ (ExtRat.margin_nonneg htol _))⟩
  by_cases hj : t.place.get j = .basic
  · obtain ⟨r, rfl⟩ := (ht.place_eq_basic_iff j).mp hj
    have hviol := violation?_eq_none (leaving?_eq_none h r)
    rw [values_eq_fin hf ht] at hviol
    exact ⟨not_lt.mp hviol.1, not_lt.mp hviol.2⟩
  · -- a resting column is at one of its bounds
    apply hle
    rw [← values_eq_fin hf ht, values_resting ht hj, restingValue_eq]
    split
    · exact ⟨le_refl _, hf.lower_le_upper j⟩
    · exact ⟨hf.lower_le_upper j, le_refl _⟩
    · exact absurd ‹_› hj

/-! ## Optimal reports -/

/-- Every inequality holds up to a tolerance. -/
def RowsHoldUpTo (lp : LinearProgram ExtRat) (tol : ExtRat) (x : List ExtRat) : Prop :=
  List.Forall₂ (fun terms b => Terms.activity terms x ≤ b + tol) lp.matrix.rows lp.rhs

/-- Every finite bound holds up to a tolerance relative to it. -/
def BoundsHoldUpTo (lp : LinearProgram ExtRat) (tol : ExtRat) (x : List ExtRat) : Prop :=
  List.Forall₂ (fun lo v => Scalar.isFinite lo = true → lo - tol * (1 + Scalar.abs lo) ≤ v)
      lp.lower x ∧
    List.Forall₂ (fun v hi => Scalar.isFinite hi = true → v ≤ hi + tol * (1 + Scalar.abs hi))
      x lp.upper

/-- Without a leaving row, the point at which a solve stops satisfies every row and every finite
bound up to the tolerance. -/
theorem lastVars_holdUpTo (hready : Ready lp s.bigBound) (htol : 0 < s.feasibilityTol)
    (hnone : (lp.lastIterate s).leaving? (lp.form s) s = none) :
    lp.RowsHoldUpTo s.feasibilityTol ((lp.lastVars s).map .fin) ∧
      lp.BoundsHoldUpTo s.feasibilityTol ((lp.lastVars s).map .fin) := by
  have hwf := hready.wellFormed
  have hmargin := Tableau.within_margin (regular_standardForm hready)
    (valid_lastIterate hready htol) htol hnone
  have hlen : ((lp.lastVars s).map ExtRat.fin).length = lp.numVars := by
    rw [List.length_map, length_lastVars]
  refine ⟨?_, ?_, ?_⟩
  · -- a row holds up to the tolerance because its slack does
    rw [RowsHoldUpTo, forall₂_iff_getD hwf.rows rfl [] 0]
    intro i
    have hslack := (hmargin (Fin.natAdd lp.numVars i)).1
    rw [standardForm_lower_slack, ExtRat.mul_one_add_abs_zero] at hslack
    rw [activity_lastVars hready htol, hwf.rhs_eq_fin i, ExtRat.toRat_fin]
    exact ExtRat.fin_sub_le_of_zero_sub_le hslack
  · rw [forall₂_iff_getD hwf.lower hlen 0 (.fin 0)]
    intro j hfin
    have hlower := (hmargin (j.castAdd lp.numRows)).1
    rw [standardForm_lower_var, (hready.boxed j).lower_eq hfin] at hlower
    rw [List.getD_map, lastVars_getD]
    exact hlower
  · rw [forall₂_iff_getD hlen hwf.upper (.fin 0) 0]
    intro j hfin
    have hupper := (hmargin (j.castAdd lp.numRows)).2
    rw [standardForm_upper_var, (hready.boxed j).upper_eq hfin] at hupper
    rw [List.getD_map, lastVars_getD]
    exact hupper

/-- The point of an optimal report has as many values as there are variables, costs what the report
says, and satisfies every row and every finite bound up to the tolerance. -/
theorem optimal_point_feasible (h : solve lp s = .ok r) (hstatus : r.status = .optimal) :
    r.x.length = lp.numVars ∧ r.objective = Scalar.dot lp.cost r.x ∧
      lp.RowsHoldUpTo s.feasibilityTol r.x ∧ lp.BoundsHoldUpTo s.feasibilityTol r.x := by
  obtain ⟨hwf, hset, ⟨-, hbad⟩ | ⟨-, hready, hr⟩⟩ := solve_cases h
  · rw [hstatus] at hbad
    cases hbad
  have htol := (Settings.pos_of_validate hset).1
  have hlen : ((lp.lastVars s).map ExtRat.fin).length = lp.numVars := by
    rw [List.length_map, length_lastVars]
  rw [hr.objective (.inl hstatus), objective_lastPoint hready htol, hr.x_eq hready htol]
  exact ⟨hlen, rfl, lastVars_holdUpTo hready htol (hr.leaving?_eq_none hstatus)⟩

/-- The largest sum of two numbers between zero and one that is at most `b`. -/
def diagonal (b : ℚ) : LinearProgram ExtRat where
  cost := [.fin (-1), .fin (-1)]
  matrix := ⟨2, [[(0, 1), (1, 1)]]⟩
  rhs := [.fin b]
  lower := [0, 0]
  upper := [1, 1]

theorem optimal_point_feasible_diagonal :
    ∃ r, solve (diagonal (3 / 2)) .standard = .ok r ∧ r.status = .optimal ∧ r.iterations = 1 ∧
      r.x.length = 2 ∧ r.objective = Scalar.dot (diagonal (3 / 2)).cost r.x ∧
      (diagonal (3 / 2)).RowsHoldUpTo (Scalar.tenth 9) r.x ∧
      (diagonal (3 / 2)).BoundsHoldUpTo (Scalar.tenth 9) r.x := by
  have hok : solve (diagonal (3 / 2)) .standard
      = .ok (solveValid (diagonal (3 / 2)) .standard) := by
    with_unfolding_all rfl
  have hstatus : (solveValid (diagonal (3 / 2)) .standard).status = .optimal := by
    decide +kernel
  exact ⟨_, hok, hstatus, by decide +kernel, optimal_point_feasible hok hstatus⟩

end BranchBound.LinearProgram
