import BranchBound.Proofs.LinearProgram.Feasible

/-!
# Standard forms over the rational numbers

The standard form of a well-formed linear program has finite equations, finite costs and finite
lower bounds, and a point of the program becomes a solution of its equations by adding slacks.

* `StandardForm.Solves`, `StandardForm.value`: equations and cost over rational columns.
* `StandardForm.Regular`, `regular_standardForm`: the standard form of a well-formed program.
* `LinearProgram.withSlacks`: a point with its slacks, which solves the equations
  (`solves_withSlacks`) at the same cost (`fin_value`).
-/

namespace BranchBound.LinearProgram

/-- Definitions read a vector with brackets, which carry a proof; statements read it with `get`,
which carries none. -/
theorem getElem_eq_get {α : Type} {k : ℕ} (v : Vector α k) (j : Fin k) (h : (j : ℕ) < k) :
    v[j] = v.get j := rfl

/-! ## Rational reading -/

namespace StandardForm

variable {m n : ℕ}

/-- Coefficient of a column in an equation. -/
def entry (f : StandardForm ExtRat m n) (i : Fin m) (j : Fin (n + m)) : ℚ :=
  ((f.rows.get i).get j).toRat

/-- Right-hand side of an equation. -/
def right (f : StandardForm ExtRat m n) (i : Fin m) : ℚ := (f.rhs.get i).toRat

/-- Cost of a column. -/
def price (f : StandardForm ExtRat m n) (j : Fin (n + m)) : ℚ := (f.cost.get j).toRat

/-- All equations hold. -/
def Solves (f : StandardForm ExtRat m n) (z : Fin (n + m) → ℚ) : Prop :=
  ∀ i, ∑ j, f.entry i j * z j = f.right i

/-- Cost of all columns. -/
def value (f : StandardForm ExtRat m n) (z : Fin (n + m) → ℚ) : ℚ := ∑ j, f.price j * z j

/-- Numbers are finite except for upper bounds of slacks, no domain is empty, and each slack occurs
in its own equation only, without a cost. -/
structure Regular (f : StandardForm ExtRat m n) : Prop where
  rows : ∀ (i : Fin m) (j : Fin (n + m)), (f.rows.get i).get j = .fin (f.entry i j)
  rhs : ∀ i : Fin m, f.rhs.get i = .fin (f.right i)
  cost : ∀ j : Fin (n + m), f.cost.get j = .fin (f.price j)
  lower : ∀ j : Fin (n + m), f.lower.get j = .fin (f.lower.get j).toRat
  upper_var : ∀ j : Fin n, Scalar.isFinite (f.upper.get (j.castAdd m)) = true
  lower_le_upper : ∀ j : Fin (n + m), f.lower.get j ≤ f.upper.get j
  slack_entry : ∀ i r, f.entry i (Fin.natAdd n r) = if i = r then 1 else 0
  slack_price : ∀ r, f.price (Fin.natAdd n r) = 0

/-- The objective of a rational point. -/
theorem objective_eq_fin {f : StandardForm ExtRat m n} (hf : f.Regular) {x : Vector ExtRat (n + m)}
    {z : Fin (n + m) → ℚ} (hx : ∀ j : Fin (n + m), x.get j = .fin (z j)) :
    f.objective x = .fin (f.value z) := by
  have hcost : f.cost.toList = List.ofFn fun j => ExtRat.fin (f.price j) := by
    apply List.ext_getElem
    · simp only [Vector.length_toList, List.length_ofFn]
    · intro j hj _
      rw [Vector.getElem_toList, List.getElem_ofFn]
      exact hf.cost ⟨j, by simpa using hj⟩
  have hpoint : x.toList = List.ofFn fun j => ExtRat.fin (z j) := by
    apply List.ext_getElem
    · simp only [Vector.length_toList, List.length_ofFn]
    · intro j hj _
      rw [Vector.getElem_toList, List.getElem_ofFn]
      exact hx ⟨j, by simpa using hj⟩
  rw [StandardForm.objective, hcost, hpoint, ExtRat.dot_ofFn, value]

end StandardForm

/-! ## The standard form of a linear program -/

section Columns

variable {α : Type} [Scalar α] (lp : LinearProgram α) (big : α)

/-- The columns of the variables hold the matrix, where several terms of one variable add up. -/
theorem standardForm_rows_var (i : Fin lp.numRows) (j : Fin lp.numVars) :
    ((standardForm lp big).rows.get i).get (j.castAdd lp.numRows)
      = Terms.coefficient (lp.matrix.rows.getD i []) j := by
  show (standardForm lp big).rows[i][j.castAdd lp.numRows] = _
  simp only [standardForm, Fin.getElem_fin, Vector.getElem_ofFn, Fin.val_castAdd, j.isLt, if_true]

/-- The columns of the slacks are the unit columns. -/
theorem standardForm_rows_slack (i r : Fin lp.numRows) :
    ((standardForm lp big).rows.get i).get (Fin.natAdd lp.numVars r) = if i = r then 1 else 0 := by
  show (standardForm lp big).rows[i][Fin.natAdd lp.numVars r] = _
  simp only [standardForm, Fin.getElem_fin, Vector.getElem_ofFn, Fin.val_natAdd]
  rw [if_neg (by omega)]
  by_cases h : i = r
  · rw [if_pos (by rw [h]), if_pos h]
  · rw [if_neg (fun he => h (Fin.ext (by omega))), if_neg h]

/-- The right side is taken over as it is. -/
theorem standardForm_rhs (i : Fin lp.numRows) :
    (standardForm lp big).rhs.get i = lp.rhs.getD i 0 := by
  show (standardForm lp big).rhs[i] = _
  simp only [standardForm, Fin.getElem_fin, Vector.getElem_ofFn]

/-- So are the costs of the variables. -/
theorem standardForm_cost_var (j : Fin lp.numVars) :
    (standardForm lp big).cost.get (j.castAdd lp.numRows) = lp.cost.getD j 0 := by
  show (standardForm lp big).cost[j.castAdd lp.numRows] = _
  simp only [standardForm, Fin.getElem_fin, Vector.getElem_ofFn, Fin.val_castAdd, j.isLt, if_true]

/-- Slacks cost nothing. -/
theorem standardForm_cost_slack (r : Fin lp.numRows) :
    (standardForm lp big).cost.get (Fin.natAdd lp.numVars r) = 0 := by
  show (standardForm lp big).cost[Fin.natAdd lp.numVars r] = _
  simp only [standardForm, Fin.getElem_fin, Vector.getElem_ofFn, Fin.val_natAdd]
  rw [if_neg (by omega)]

/-- Variables have the bounds of the finite box. -/
theorem standardForm_lower_var (j : Fin lp.numVars) :
    (standardForm lp big).lower.get (j.castAdd lp.numRows) = (boxedVar lp big j).1 := by
  show (standardForm lp big).lower[j.castAdd lp.numRows] = _
  simp only [standardForm, Fin.getElem_fin, Vector.getElem_ofFn, Fin.val_castAdd, j.isLt, if_true]

/-- Slacks are not negative, and have no upper bound. -/
theorem standardForm_lower_slack (r : Fin lp.numRows) :
    (standardForm lp big).lower.get (Fin.natAdd lp.numVars r) = 0 := by
  show (standardForm lp big).lower[Fin.natAdd lp.numVars r] = _
  simp only [standardForm, Fin.getElem_fin, Vector.getElem_ofFn, Fin.val_natAdd]
  rw [if_neg (by omega)]

theorem standardForm_upper_var (j : Fin lp.numVars) :
    (standardForm lp big).upper.get (j.castAdd lp.numRows) = (boxedVar lp big j).2 := by
  show (standardForm lp big).upper[j.castAdd lp.numRows] = _
  simp only [standardForm, Fin.getElem_fin, Vector.getElem_ofFn, Fin.val_castAdd, j.isLt, if_true]

theorem standardForm_upper_slack (r : Fin lp.numRows) :
    (standardForm lp big).upper.get (Fin.natAdd lp.numVars r) = Scalar.infinity := by
  show (standardForm lp big).upper[Fin.natAdd lp.numVars r] = _
  simp only [standardForm, Fin.getElem_fin, Vector.getElem_ofFn, Fin.val_natAdd]
  rw [if_neg (by omega)]

end Columns

/-! ## The finite box -/

/-- What a box in place of infinite bounds looks like: finite bounds are kept, and where one is
missing there is room between the two ends. -/
structure Boxed (lo hi : ExtRat) (box : ExtRat × ExtRat) : Prop where
  lower_finite : Scalar.isFinite box.1 = true
  upper_finite : Scalar.isFinite box.2 = true
  le : box.1 ≤ box.2
  lower_eq : Scalar.isFinite lo = true → box.1 = lo
  upper_eq : Scalar.isFinite hi = true → box.2 = hi
  lt : lo = .negInf ∨ hi = .posInf → box.1 < box.2

/-- Where the bounds of a variable are in order, so are those of its finite box, and they keep every
bound that was finite. -/
theorem boxed_boxedBounds {lo hi : ExtRat} {big : ℚ} (hbig : 0 < big) (hlo : lo ≠ .posInf)
    (hhi : hi ≠ .negInf) (hle : lo ≤ hi) : Boxed lo hi (boxedBounds lo hi (.fin big)) := by
  cases lo with
  | posInf => exact absurd rfl hlo
  | fin l =>
    cases hi with
    | negInf => exact absurd rfl hhi
    | fin h => exact ⟨rfl, rfl, hle, fun _ => rfl, fun _ => rfl, by rintro (h | h) <;> cases h⟩
    | posInf =>
      -- the upper end is put `big` above the larger of the lower bound and zero
      have hbox : boxedBounds (ExtRat.fin l) ExtRat.posInf (ExtRat.fin big)
          = (ExtRat.fin l, ExtRat.fin (max l 0 + big)) := by
        show (ExtRat.fin l, Scalar.maxNum (ExtRat.fin l) 0 + ExtRat.fin big) = _
        rw [ExtRat.maxNum_eq_max, ExtRat.zero_eq_fin, ExtRat.max_fin, ExtRat.fin_add]
      have hlt : l < max l 0 + big := by linarith [le_max_left l 0]
      rw [hbox]
      exact ⟨rfl, rfl, hlt.le, fun _ => rfl, fun h => (Bool.false_ne_true h).elim, fun _ => hlt⟩
  | negInf =>
    cases hi with
    | negInf => exact absurd rfl hhi
    | fin h =>
      -- the lower end is put `big` below the smaller of the upper bound and zero
      have hbox : boxedBounds ExtRat.negInf (ExtRat.fin h) (ExtRat.fin big)
          = (ExtRat.fin (min h 0 - big), ExtRat.fin h) := by
        show (Scalar.minNum (ExtRat.fin h) 0 - ExtRat.fin big, ExtRat.fin h) = _
        rw [ExtRat.minNum_eq_min, ExtRat.zero_eq_fin, ExtRat.min_fin, ExtRat.fin_sub]
      have hlt : min h 0 - big < h := by linarith [min_le_left h 0]
      rw [hbox]
      exact ⟨rfl, rfl, hlt.le, fun h => (Bool.false_ne_true h).elim, fun _ => rfl, fun _ => hlt⟩
    | posInf =>
      have hlt : -big < big := by linarith
      exact ⟨rfl, rfl, hlt.le, fun h => (Bool.false_ne_true h).elim,
        fun h => (Bool.false_ne_true h).elim, fun _ => hlt⟩

section Lists

variable {α : Type} [Scalar α] {lp : LinearProgram α} {big : α}

theorem length_boxedLower : (lp.boxedLower big).length = lp.numVars := by
  rw [boxedLower, List.length_map, List.length_range]

theorem length_boxedUpper : (lp.boxedUpper big).length = lp.numVars := by
  rw [boxedUpper, List.length_map, List.length_range]

/-- The finite box, read off as a list, has the bounds of the variables in their order. -/
theorem boxedLower_getD (j : Fin lp.numVars) :
    (lp.boxedLower big).getD j 0 = (boxedVar lp big j).1 := by
  rw [List.getD_eq_getElem _ _ (lt_of_lt_of_eq j.isLt length_boxedLower.symm)]
  simp only [boxedLower, List.getElem_map, List.getElem_range]

theorem boxedUpper_getD (j : Fin lp.numVars) :
    (lp.boxedUpper big).getD j 0 = (boxedVar lp big j).2 := by
  rw [List.getD_eq_getElem _ _ (lt_of_lt_of_eq j.isLt length_boxedUpper.symm)]
  simp only [boxedUpper, List.getElem_map, List.getElem_range]

/-- Two finite bounds need no box. -/
theorem boxedVar_eq {j : ℕ} (hlo : Scalar.isFinite (lp.lower.getD j 0) = true)
    (hhi : Scalar.isFinite (lp.upper.getD j 0) = true) :
    boxedVar lp big j = (lp.lower.getD j 0, lp.upper.getD j 0) := by
  rw [boxedVar, boxedBounds, hlo, hhi]

end Lists

/-- A linear program with usable data and no crossed bounds, in a box of positive rational size. -/
structure Ready (lp : LinearProgram ExtRat) (big : ExtRat) : Prop where
  wellFormed : lp.WellFormed
  big_finite : Scalar.isFinite big = true
  big_pos : 0 < big
  lower_le_upper : ∀ j : Fin lp.numVars, lp.lower.getD j 0 ≤ lp.upper.getD j 0

variable {lp : LinearProgram ExtRat} {big : ExtRat}

/-- A lower bound may be missing, but it is not above everything. -/
theorem WellFormed.lower_getD_ne (h : lp.WellFormed) (j : Fin lp.numVars) :
    lp.lower.getD j 0 ≠ .posInf := by
  have hj : (j : ℕ) < lp.lower.length := lt_of_lt_of_eq j.isLt h.lower.symm
  rw [List.getD_eq_getElem _ _ hj]
  exact h.lower_ne _ (List.getElem_mem hj)

/-- An upper bound may be missing, but it is not below everything. -/
theorem WellFormed.upper_getD_ne (h : lp.WellFormed) (j : Fin lp.numVars) :
    lp.upper.getD j 0 ≠ .negInf := by
  have hj : (j : ℕ) < lp.upper.length := lt_of_lt_of_eq j.isLt h.upper.symm
  rw [List.getD_eq_getElem _ _ hj]
  exact h.upper_ne _ (List.getElem_mem hj)

/-- Every variable of a program that is ready has a finite box. -/
theorem Ready.boxed (h : Ready lp big) (j : Fin lp.numVars) :
    Boxed (lp.lower.getD j 0) (lp.upper.getD j 0) (boxedVar lp big j) := by
  have hpos := h.big_pos
  rw [← ExtRat.fin_toRat h.big_finite] at hpos
  rw [boxedVar, ← ExtRat.fin_toRat h.big_finite]
  exact boxed_boxedBounds hpos (h.wellFormed.lower_getD_ne j) (h.wellFormed.upper_getD_ne j)
    (h.lower_le_upper j)

/-- The right side of a program that passed the checks is finite. -/
theorem WellFormed.rhs_eq_fin (h : lp.WellFormed) (i : Fin lp.numRows) :
    lp.rhs.getD i 0 = .fin (lp.rhs.getD i 0).toRat := by
  rw [List.getD_eq_getElem _ _ i.isLt]
  exact (ExtRat.fin_toRat (h.rhs_finite _ (List.getElem_mem _))).symm

/-- Its costs are finite. -/
theorem WellFormed.cost_eq_fin (h : lp.WellFormed) (j : Fin lp.numVars) :
    lp.cost.getD j 0 = .fin (lp.cost.getD j 0).toRat := by
  rw [List.getD_eq_getElem _ _ j.isLt]
  exact (ExtRat.fin_toRat (h.cost_finite _ (List.getElem_mem _))).symm

/-- So are the coefficients of its rows. -/
theorem WellFormed.row_finite (h : lp.WellFormed) (i : Fin lp.numRows) :
    ∀ e ∈ lp.matrix.rows.getD i [], Scalar.isFinite e.2 = true := by
  have hi : (i : ℕ) < lp.matrix.rows.length := lt_of_lt_of_eq i.isLt h.rows.symm
  rw [List.getD_eq_getElem _ _ hi]
  exact h.coefficient_finite _ (List.getElem_mem hi)

theorem entry_var (h : lp.WellFormed) (i : Fin lp.numRows) (j : Fin lp.numVars) :
    (standardForm lp big).entry i (j.castAdd lp.numRows)
      = Terms.coef (lp.matrix.rows.getD i []) j := by
  rw [StandardForm.entry, standardForm_rows_var, Terms.coefficient_eq_fin (h.row_finite i),
    ExtRat.toRat_fin]

theorem entry_slack (i r : Fin lp.numRows) :
    (standardForm lp big).entry i (Fin.natAdd lp.numVars r) = if i = r then 1 else 0 := by
  rw [StandardForm.entry, standardForm_rows_slack]
  split <;> rfl

theorem price_slack (r : Fin lp.numRows) :
    (standardForm lp big).price (Fin.natAdd lp.numVars r) = 0 := by
  rw [StandardForm.price, standardForm_cost_slack]
  rfl

/-- The standard form of a program that is ready is regular. -/
theorem regular_standardForm (h : Ready lp big) : (standardForm lp big).Regular where
  rows i j := by
    refine Fin.addCases (fun k => ?_) (fun r => ?_) j
    · rw [entry_var h.wellFormed, standardForm_rows_var,
        Terms.coefficient_eq_fin (h.wellFormed.row_finite i)]
    · rw [entry_slack, standardForm_rows_slack]
      split <;> rfl
  rhs i := by
    rw [StandardForm.right, standardForm_rhs]
    exact h.wellFormed.rhs_eq_fin i
  cost j := by
    refine Fin.addCases (fun k => ?_) (fun r => ?_) j
    · rw [StandardForm.price, standardForm_cost_var]
      exact h.wellFormed.cost_eq_fin k
    · rw [price_slack, standardForm_cost_slack]
      rfl
  lower j := by
    refine Fin.addCases (fun k => ?_) (fun r => ?_) j
    · rw [standardForm_lower_var]
      exact (ExtRat.fin_toRat (h.boxed k).lower_finite).symm
    · rw [standardForm_lower_slack]
      rfl
  upper_var j := by
    rw [standardForm_upper_var]
    exact (h.boxed j).upper_finite
  lower_le_upper j := by
    refine Fin.addCases (fun k => ?_) (fun r => ?_) j
    · rw [standardForm_lower_var, standardForm_upper_var]
      exact (h.boxed k).le
    · rw [standardForm_upper_slack]
      exact ExtRat.le_posInf _
  slack_entry := entry_slack
  slack_price := price_slack

/-! ## Adding slacks to a point -/

/-- A point followed by what each row leaves of its right-hand side. -/
def withSlacks (lp : LinearProgram ExtRat) (y : List ℚ) : Fin (lp.numVars + lp.numRows) → ℚ :=
  Fin.append (fun j => y.getD j 0) fun i =>
    (lp.rhs.getD i 0).toRat
      - ∑ j : Fin lp.numVars, Terms.coef (lp.matrix.rows.getD i []) j * y.getD j 0

@[simp] theorem withSlacks_var (y : List ℚ) (j : Fin lp.numVars) :
    lp.withSlacks y (j.castAdd lp.numRows) = y.getD j 0 :=
  Fin.append_left _ _ j

/-- A slack is what a row leaves of its right side. -/
@[simp] theorem withSlacks_slack (y : List ℚ) (i : Fin lp.numRows) :
    lp.withSlacks y (Fin.natAdd lp.numVars i) = (lp.rhs.getD i 0).toRat
      - ∑ j : Fin lp.numVars, Terms.coef (lp.matrix.rows.getD i []) j * y.getD j 0 :=
  Fin.append_right _ _ i

/-- An equation of the standard form is its row with its own slack. -/
theorem sum_entry (h : lp.WellFormed) (i : Fin lp.numRows)
    (z : Fin (lp.numVars + lp.numRows) → ℚ) :
    ∑ j, (standardForm lp big).entry i j * z j
      = (∑ j : Fin lp.numVars, Terms.coef (lp.matrix.rows.getD i []) j * z (j.castAdd lp.numRows))
        + z (Fin.natAdd lp.numVars i) := by
  rw [Fin.sum_univ_add]
  congr 1
  · refine Finset.sum_congr rfl fun j _ => ?_
    rw [entry_var h]
  · -- of the slacks only the row's own has an entry
    rw [Finset.sum_eq_single i]
    · rw [entry_slack, if_pos rfl, one_mul]
    · intro r _ hr
      rw [entry_slack, if_neg hr.symm, zero_mul]
    · intro hnot
      exact absurd (Finset.mem_univ i) hnot

/-- A point with its slacks solves the standard form. -/
theorem solves_withSlacks (h : lp.WellFormed) (y : List ℚ) :
    (standardForm lp big).Solves (lp.withSlacks y) := by
  intro i
  rw [sum_entry h, StandardForm.right, standardForm_rhs, withSlacks_slack]
  simp only [withSlacks_var]
  ring

/-- The slacks of a point that satisfies the rows are within their bounds. -/
theorem withSlacks_slack_within (big : ExtRat) (h : lp.WellFormed) {y : List ℚ}
    (hy : y.length = lp.numVars) (hrows : lp.RowsHold (y.map .fin)) (i : Fin lp.numRows) :
    (standardForm lp big).lower.get (Fin.natAdd lp.numVars i)
        ≤ .fin (lp.withSlacks y (Fin.natAdd lp.numVars i)) ∧
      .fin (lp.withSlacks y (Fin.natAdd lp.numVars i))
        ≤ (standardForm lp big).upper.get (Fin.natAdd lp.numVars i) := by
  have hrow := (forall₂_iff_getD h.rows rfl [] 0).mp hrows i
  rw [Terms.activity_eq_fin (h.row_finite i) hy, h.rhs_eq_fin i, ExtRat.fin_le_fin] at hrow
  rw [standardForm_lower_slack, standardForm_upper_slack, withSlacks_slack]
  exact ⟨sub_nonneg.mpr hrow, ExtRat.le_posInf _⟩

/-- Every column of a point with its slacks lies within the bounds of the standard form, provided
the point satisfies the rows and lies in the box. -/
theorem withSlacks_within (h : lp.WellFormed) {y : List ℚ} (hrows : lp.RowsHold (y.map .fin))
    (hbox : Within (lp.boxedLower big) (lp.boxedUpper big) (y.map .fin))
    (j : Fin (lp.numVars + lp.numRows)) :
    (standardForm lp big).lower.get j ≤ .fin (lp.withSlacks y j) ∧
      .fin (lp.withSlacks y j) ≤ (standardForm lp big).upper.get j := by
  have hy : y.length = lp.numVars := hbox.length_eq.trans length_boxedLower
  refine Fin.addCases (fun k => ?_) (fun i => ?_) j
  · have hk := hbox.getD hy k
    rw [boxedLower_getD, boxedUpper_getD] at hk
    rw [standardForm_lower_var, standardForm_upper_var, withSlacks_var]
    exact hk
  · exact withSlacks_slack_within big h hy hrows i

/-- Slacks cost nothing: the cost of all columns is that of the variables. -/
theorem fin_value (h : lp.WellFormed) {y : List ℚ} (hy : y.length = lp.numVars)
    {z : Fin (lp.numVars + lp.numRows) → ℚ}
    (hz : ∀ j : Fin lp.numVars, z (j.castAdd lp.numRows) = y.getD j 0) :
    .fin ((standardForm lp big).value z) = Scalar.dot lp.cost (y.map .fin) := by
  have hcost : lp.cost
      = List.ofFn fun j : Fin lp.numVars => ExtRat.fin (lp.cost.getD j 0).toRat := by
    apply List.ext_getElem
    · rw [List.length_ofFn]
      rfl
    · intro j hj _
      rw [List.getElem_ofFn, ← h.cost_eq_fin ⟨j, hj⟩, List.getD_eq_getElem]
  have hpoint : y.map ExtRat.fin = List.ofFn fun j : Fin lp.numVars => ExtRat.fin (y.getD j 0) := by
    apply List.ext_getElem
    · rw [List.length_map, List.length_ofFn, hy]
    · intro j hj _
      rw [List.getElem_map, List.getElem_ofFn, List.getD_eq_getElem]
  rw [hpoint, hcost, ExtRat.dot_ofFn, StandardForm.value, Fin.sum_univ_add]
  congr 1
  have hslack : ∑ r : Fin lp.numRows, (standardForm lp big).price (Fin.natAdd lp.numVars r)
      * z (Fin.natAdd lp.numVars r) = 0 := by
    refine Finset.sum_eq_zero fun r _ => ?_
    rw [price_slack, zero_mul]
  rw [hslack, add_zero]
  refine Finset.sum_congr rfl fun j _ => ?_
  rw [hz, StandardForm.price, standardForm_cost_var]

end BranchBound.LinearProgram
