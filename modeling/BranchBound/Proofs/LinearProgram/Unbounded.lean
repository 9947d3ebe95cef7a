import BranchBound.Proofs.LinearProgram.WeakDuality

/-!
# Unbounded reports

A solve says that the objective is unbounded below where its optimum in the finite box lies on the
box. That is a statement about the box: a variable without a cost may rest there as well, and a
larger box may hold a better optimum that does not touch it. What the report does mean is that no
point of the box is better, and it is right where a column at the end of the box can be moved on for
ever at a profit.

* `Feasible`, `UnboundedBelow`: points of a program, and points of any cost.
* `Tableau.ray`, `Descent`: how a resting column moves the basic ones, and when nothing stops it.
* `unboundedBelow_of_descent`: a descent from any point makes the objective unbounded.
* `reported_dualInfeasible`: where the report comes from.
* `dualInfeasible_verdict`: what the report means, when it is right, and that an unbounded objective
  is never reported as optimal.
-/

namespace BranchBound.LinearProgram

/-- A rational point satisfies the rows and the bounds of a program. -/
def Feasible (lp : LinearProgram ExtRat) (y : List ℚ) : Prop :=
  lp.RowsHold (y.map .fin) ∧ Within lp.lower lp.upper (y.map .fin)

/-- However low a cost, some point of the program costs less. -/
def UnboundedBelow (lp : LinearProgram ExtRat) : Prop :=
  ∀ k : ℚ, ∃ y, lp.Feasible y ∧ Scalar.dot lp.cost (y.map .fin) < .fin k

/-! ## Columns without the box -/

/-- Lower bounds of all columns, infinite ones included. -/
def columnLower (lp : LinearProgram ExtRat) : Fin (lp.numVars + lp.numRows) → ExtRat :=
  Fin.append (fun j => lp.lower.getD j 0) fun _ => 0

/-- Upper bounds of all columns, infinite ones included. -/
def columnUpper (lp : LinearProgram ExtRat) : Fin (lp.numVars + lp.numRows) → ExtRat :=
  Fin.append (fun j => lp.upper.getD j 0) fun _ => .posInf

variable {lp : LinearProgram ExtRat} {big : ExtRat}

@[simp] theorem columnLower_var (j : Fin lp.numVars) :
    lp.columnLower (j.castAdd lp.numRows) = lp.lower.getD j 0 :=
  Fin.append_left _ _ j

@[simp] theorem columnLower_slack (i : Fin lp.numRows) :
    lp.columnLower (Fin.natAdd lp.numVars i) = 0 :=
  Fin.append_right _ _ i

@[simp] theorem columnUpper_var (j : Fin lp.numVars) :
    lp.columnUpper (j.castAdd lp.numRows) = lp.upper.getD j 0 :=
  Fin.append_left _ _ j

@[simp] theorem columnUpper_slack (i : Fin lp.numRows) :
    lp.columnUpper (Fin.natAdd lp.numVars i) = .posInf :=
  Fin.append_right _ _ i

/-- A point is feasible exactly if with its slacks it lies within the bounds of all columns. -/
theorem feasible_iff (h : lp.WellFormed) {y : List ℚ} (hy : y.length = lp.numVars) :
    lp.Feasible y ↔ ∀ j, lp.columnLower j ≤ .fin (lp.withSlacks y j) ∧
      .fin (lp.withSlacks y j) ≤ lp.columnUpper j := by
  have hlen : (y.map ExtRat.fin).length = lp.numVars := by rw [List.length_map, hy]
  have hrow : lp.RowsHold (y.map .fin) ↔
      ∀ i : Fin lp.numRows, 0 ≤ lp.withSlacks y (Fin.natAdd lp.numVars i) := by
    rw [RowsHold, forall₂_iff_getD h.rows rfl [] 0]
    refine forall_congr' fun i => ?_
    rw [Terms.activity_eq_fin (h.row_finite i) hy, h.rhs_eq_fin i, ExtRat.fin_le_fin,
      withSlacks_slack, sub_nonneg]
  have hbounds : Within lp.lower lp.upper (y.map .fin) ↔ ∀ j : Fin lp.numVars,
      lp.lower.getD j 0 ≤ .fin (y.getD j 0) ∧ .fin (y.getD j 0) ≤ lp.upper.getD j 0 := by
    rw [Within, forall₂_iff_getD h.lower hlen 0 (.fin 0),
      forall₂_iff_getD hlen h.upper (.fin 0) 0, ← forall_and]
    refine forall_congr' fun j => ?_
    rw [List.getD_map]
  rw [Feasible, hrow, hbounds]
  constructor
  · rintro ⟨hslack, hvar⟩ j
    refine Fin.addCases (fun k => ?_) (fun i => ?_) j
    · rw [columnLower_var, columnUpper_var, withSlacks_var]
      exact hvar k
    · rw [columnLower_slack, columnUpper_slack]
      exact ⟨hslack i, ExtRat.le_posInf _⟩
  · intro hall
    refine ⟨fun i => ?_, fun j => ?_⟩
    · have hi := (hall (Fin.natAdd lp.numVars i)).1
      rw [columnLower_slack] at hi
      exact hi
    · have hj := hall (j.castAdd lp.numRows)
      rw [columnLower_var, columnUpper_var, withSlacks_var] at hj
      exact hj

/-- The values of the variables in a solution of the standard form. -/
def varsOf (lp : LinearProgram ExtRat) (z : Fin (lp.numVars + lp.numRows) → ℚ) : List ℚ :=
  List.ofFn fun j : Fin lp.numVars => z (j.castAdd lp.numRows)

theorem length_varsOf (z : Fin (lp.numVars + lp.numRows) → ℚ) :
    (lp.varsOf z).length = lp.numVars := List.length_ofFn

theorem varsOf_getD (z : Fin (lp.numVars + lp.numRows) → ℚ) (j : Fin lp.numVars) :
    (lp.varsOf z).getD j 0 = z (j.castAdd lp.numRows) := by
  rw [List.getD_eq_getElem _ _ (lt_of_lt_of_eq j.isLt (length_varsOf z).symm)]
  exact List.getElem_ofFn _

/-- The equations leave no choice for the slacks. -/
theorem withSlacks_varsOf (h : lp.WellFormed) {z : Fin (lp.numVars + lp.numRows) → ℚ}
    (hz : (standardForm lp big).Solves z) : lp.withSlacks (lp.varsOf z) = z := by
  funext j
  refine Fin.addCases (fun k => ?_) (fun i => ?_) j
  · rw [withSlacks_var, varsOf_getD]
  · have hi := hz i
    rw [sum_entry h, StandardForm.right, standardForm_rhs] at hi
    rw [withSlacks_slack]
    simp only [varsOf_getD]
    linarith

/-! ## Rays -/

namespace Tableau

variable {m n : ℕ} {f : StandardForm ExtRat m n} {t : Tableau ExtRat m n} {q : Fin (n + m)}
  {sign : ℚ}

/-- How all columns move where one resting column moves at a given speed: the basic column of every
row makes up for it, and other resting columns stay. -/
def ray (t : Tableau ExtRat m n) (q : Fin (n + m)) (sign : ℚ) (j : Fin (n + m)) : ℚ :=
  (if j = q then sign else 0) - ∑ r, if j = t.basicColumn r then sign * t.entry r q else 0

/-- A weighted sum along a ray counts the resting column and every basic one. -/
theorem sum_mul_ray (t : Tableau ExtRat m n) (q : Fin (n + m)) (sign : ℚ)
    (w : Fin (n + m) → ℚ) :
    ∑ j, w j * t.ray q sign j
      = w q * sign - ∑ r, w (t.basicColumn r) * (sign * t.entry r q) := by
  have hbasic : ∑ j, ∑ r, w j * (if j = t.basicColumn r then sign * t.entry r q else 0)
      = ∑ r, w (t.basicColumn r) * (sign * t.entry r q) := by
    rw [Finset.sum_comm]
    refine Finset.sum_congr rfl fun r _ => ?_
    simp only [mul_ite, mul_zero, Finset.sum_ite_eq', Finset.mem_univ, if_true]
  simp only [ray, mul_sub, Finset.mul_sum, Finset.sum_sub_distrib, hbasic]
  congr 1
  simp only [mul_ite, mul_zero, Finset.sum_ite_eq', Finset.mem_univ, if_true]

/-- Rows do not notice a move along a ray. -/
theorem sum_entry_mul_ray (ht : Valid f t) (i : Fin m) : ∑ j, t.entry i j * t.ray q sign j = 0 := by
  rw [sum_mul_ray, Finset.sum_eq_single i]
  · rw [ht.basic_entry, if_pos rfl]
    ring
  · intro r _ hr
    rw [ht.basic_entry, if_neg hr.symm, zero_mul]
  · intro hnot
    exact absurd (Finset.mem_univ i) hnot

/-- Along a ray only the resting column has a price. -/
theorem sum_price_mul_ray (ht : Valid f t) :
    ∑ j, t.price j * t.ray q sign j = t.price q * sign := by
  rw [sum_mul_ray]
  simp only [ht.basic_price, zero_mul, Finset.sum_const_zero, sub_zero]

/-- Going along the ray keeps every row. -/
theorem solves_add_ray (ht : Valid f t) {z : Fin (n + m) → ℚ} (hz : f.Solves z) (θ : ℚ) :
    f.Solves fun j => z j + θ * t.ray q sign j := by
  rw [← ht.solves_iff] at hz ⊢
  intro i
  have hmove : ∑ j, t.entry i j * (θ * t.ray q sign j) = 0 := by
    simp only [mul_left_comm _ θ, ← Finset.mul_sum, sum_entry_mul_ray ht, mul_zero]
  simp only [mul_add, Finset.sum_add_distrib]
  rw [hz i, hmove, add_zero]

/-- Along the ray the cost changes by the price of the column that moves. -/
theorem value_add_ray (ht : Valid f t) {z : Fin (n + m) → ℚ} (hz : f.Solves z) (θ : ℚ) :
    f.value (fun j => z j + θ * t.ray q sign j) = f.value z + θ * (t.price q * sign) := by
  have hmoved : f.Solves fun j => z j + θ * t.ray q sign j := solves_add_ray ht hz θ
  have hsub := ht.value_sub _ _ hmoved hz
  simp only [add_sub_cancel_left, mul_left_comm _ θ, ← Finset.mul_sum, sum_price_mul_ray ht] at hsub
  linarith

theorem ray_self (ht : Valid f t) (hq : t.place.get q ≠ .basic) : t.ray q sign q = sign := by
  have hnone : ∀ r, q ≠ t.basicColumn r :=
    fun r hr => hq ((ht.place_eq_basic_iff q).mpr ⟨r, hr.symm⟩)
  simp only [ray, if_true, if_neg (hnone _), Finset.sum_const_zero, sub_zero]

/-- A basic column moves by its entry. -/
theorem ray_basicColumn (ht : Valid f t) (hq : t.place.get q ≠ .basic) (r : Fin m) :
    t.ray q sign (t.basicColumn r) = -(sign * t.entry r q) := by
  have hne : t.basicColumn r ≠ q := by
    rintro rfl
    exact hq ((ht.place_eq_basic_iff _).mpr ⟨r, rfl⟩)
  simp only [ray, if_neg hne, ht.basicColumn_injective.eq_iff, Finset.sum_ite_eq, Finset.mem_univ,
    if_true, zero_sub]

/-- Columns that rest elsewhere do not move. -/
theorem ray_resting (ht : Valid f t) {j : Fin (n + m)} (hj : t.place.get j ≠ .basic)
    (hne : j ≠ q) : t.ray q sign j = 0 := by
  have hnone : ∀ r, j ≠ t.basicColumn r :=
    fun r hr => hj ((ht.place_eq_basic_iff j).mpr ⟨r, hr.symm⟩)
  simp only [ray, if_neg hne, if_neg (hnone _), Finset.sum_const_zero, sub_zero]

end Tableau

/-- A resting column that can be moved for ever at a profit: its price falls in the direction of the
move, it has no bound on that side, and neither has any basic column on the side to which it is
pushed. -/
structure Descent (lp : LinearProgram ExtRat) (t : Tableau ExtRat lp.numRows lp.numVars)
    (q : Fin (lp.numVars + lp.numRows)) (sign : ℚ) : Prop where
  rests : t.place.get q ≠ .basic
  profit : t.price q * sign < 0
  up : 0 < sign → lp.columnUpper q = .posInf
  down : sign < 0 → lp.columnLower q = .negInf
  basic_up : ∀ r, sign * t.entry r q < 0 → lp.columnUpper (t.basicColumn r) = .posInf
  basic_down : ∀ r, 0 < sign * t.entry r q → lp.columnLower (t.basicColumn r) = .negInf

variable {t : Tableau ExtRat lp.numRows lp.numVars} {q : Fin (lp.numVars + lp.numRows)} {sign : ℚ}

/-- On a descent a column moves only to sides on which it has no bound. -/
theorem Descent.open_side (h : Descent lp t q sign) (ht : Tableau.Valid (standardForm lp big) t)
    (j : Fin (lp.numVars + lp.numRows)) :
    (0 < t.ray q sign j → lp.columnUpper j = .posInf) ∧
      (t.ray q sign j < 0 → lp.columnLower j = .negInf) := by
  by_cases hj : t.place.get j = .basic
  · obtain ⟨r, rfl⟩ := (ht.place_eq_basic_iff j).mp hj
    rw [Tableau.ray_basicColumn ht h.rests]
    exact ⟨fun hpos => h.basic_up r (by linarith), fun hneg => h.basic_down r (by linarith)⟩
  · by_cases hjq : j = q
    · rw [hjq, Tableau.ray_self ht h.rests]
      exact ⟨h.up, h.down⟩
    · rw [Tableau.ray_resting ht hj hjq]
      exact ⟨fun hpos => absurd hpos (lt_irrefl 0), fun hneg => absurd hneg (lt_irrefl 0)⟩

/-- A step along a descent stays within the bounds. -/
theorem Descent.within (h : Descent lp t q sign) (ht : Tableau.Valid (standardForm lp big) t)
    {z : Fin (lp.numVars + lp.numRows) → ℚ}
    (hz : ∀ j, lp.columnLower j ≤ .fin (z j) ∧ .fin (z j) ≤ lp.columnUpper j) {θ : ℚ} (hθ : 0 ≤ θ)
    (j : Fin (lp.numVars + lp.numRows)) :
    lp.columnLower j ≤ .fin (z j + θ * t.ray q sign j) ∧
      .fin (z j + θ * t.ray q sign j) ≤ lp.columnUpper j := by
  obtain ⟨hup, hdown⟩ := h.open_side ht j
  constructor
  · rcases lt_or_ge (t.ray q sign j) 0 with hneg | hnonneg
    · rw [hdown hneg]
      exact ExtRat.negInf_le _
    · refine (hz j).1.trans (ExtRat.fin_le_fin.mpr ?_)
      linarith [mul_nonneg hθ hnonneg]
  · rcases lt_or_ge 0 (t.ray q sign j) with hpos | hnonpos
    · rw [hup hpos]
      exact ExtRat.le_posInf _
    · refine (ExtRat.fin_le_fin.mpr ?_).trans (hz j).2
      linarith [mul_nonpos_of_nonneg_of_nonpos hθ hnonpos]

/-- A descent takes any point of the program to points of any cost. -/
theorem unboundedBelow_of_descent (hwf : lp.WellFormed)
    (ht : Tableau.Valid (standardForm lp big) t) (h : Descent lp t q sign)
    (hpoint : ∃ y, lp.Feasible y) : lp.UnboundedBelow := by
  obtain ⟨y, hy⟩ := hpoint
  have hlen : y.length = lp.numVars := hy.2.length_eq.trans hwf.lower
  have hz : (standardForm lp big).Solves (lp.withSlacks y) := solves_withSlacks hwf y
  intro k
  -- the step that takes the cost of the point one below `k`, if it is not there already
  obtain ⟨θ, hθ, hcost⟩ : ∃ θ : ℚ, 0 ≤ θ ∧
      (standardForm lp big).value (lp.withSlacks y) + θ * (t.price q * sign) < k := by
    generalize (standardForm lp big).value (lp.withSlacks y) = v
    have hpos : 0 < -(t.price q * sign) := neg_pos.mpr h.profit
    refine ⟨(|v - k| + 1) / -(t.price q * sign), by positivity, ?_⟩
    rw [div_neg, neg_mul, div_mul_cancel₀ _ h.profit.ne]
    linarith [le_abs_self (v - k)]
  have hmoved : (standardForm lp big).Solves fun j => lp.withSlacks y j + θ * t.ray q sign j :=
    Tableau.solves_add_ray ht hz θ
  refine ⟨lp.varsOf fun j => lp.withSlacks y j + θ * t.ray q sign j, ?_, ?_⟩
  · rw [feasible_iff hwf (length_varsOf _), withSlacks_varsOf hwf hmoved]
    exact h.within ht ((feasible_iff hwf hlen).mp hy) hθ
  · have hvalue : ∀ z, ExtRat.fin ((standardForm lp big).value z)
        = Scalar.dot lp.cost ((lp.varsOf z).map .fin) :=
      fun z => fin_value hwf (length_varsOf z) fun j => (varsOf_getD z j).symm
    rw [← hvalue, Tableau.value_add_ray ht hz, ExtRat.fin_lt_fin]
    exact hcost

/-! ## Reports -/

variable {s : Settings ExtRat} {r : Report ExtRat}

/-- A variable with an infinite bound lies at the end of the box that stands in for it, up to the
tolerance. -/
def OnBox (lp : LinearProgram ExtRat) (s : Settings ExtRat) (x : List ExtRat) : Prop :=
  ∃ j : Fin lp.numVars,
    (lp.upper.getD j 0 = .posInf ∧ (boxedVar lp s.bigBound j).2
      - s.feasibilityTol * (1 + Scalar.abs (boxedVar lp s.bigBound j).2) ≤ x.getD j 0) ∨
    (lp.lower.getD j 0 = .negInf ∧ x.getD j 0 ≤ (boxedVar lp s.bigBound j).1
      + s.feasibilityTol * (1 + Scalar.abs (boxedVar lp s.bigBound j).1))

/-- An unbounded report comes from an iterate without a leaving row whose point hits the box. -/
theorem reported_dualInfeasible (h : solve lp s = .ok r) (hstatus : r.status = .dualInfeasible) :
    (lp.lastIterate s).leaving? (lp.form s) s = none ∧
      hitsBox lp (lp.form s) (lp.lastPoint s) s.feasibilityTol = true ∧ r.objective = .negInf := by
  obtain ⟨hwf, hset, ⟨-, hbad⟩ | ⟨hcross, hready, hr⟩⟩ := solve_cases h
  · rw [hstatus] at hbad
    cases hbad
  have hreport : r = conclude lp s (lp.form s) (lp.outcome s).1 (lp.lastIterate s) := by
    unfold solve at h
    cases hdata : lp.validate with
    | error fault =>
      rw [hdata] at h
      cases h
    | ok _ =>
      rw [hdata, hset] at h
      cases h
      rw [solveValid, hcross]
      rfl
  have hstop : Iterate.Stopped (lp.form s) s (lp.lastIterate s) (lp.outcome s).1 :=
    (Iterate.stopped_run _ _).2
  have hcase : (if (lp.outcome s).1 = .optimal ∧
      hitsBox lp (lp.form s) (lp.lastPoint s) s.feasibilityTol = true then .dualInfeasible
      else (lp.outcome s).1) = Status.dualInfeasible := by
    rw [hreport] at hstatus
    exact hstatus
  have hobjective : r.objective = reportedObjective (lp.form s) (lp.lastPoint s) r.status := by
    rw [hreport]
    rfl
  rw [hstatus] at hobjective
  split at hcase
  · rename_i hboth
    rw [hboth.1] at hstop
    cases hstop with
    | optimal hnone => exact ⟨hnone, hboth.2, hobjective⟩
  · -- a run never stops with this status on its own
    rw [hcase] at hstop
    cases hstop

/-- The test for an optimum on the box finds a variable without a bound that lies at the end of its
box. -/
theorem onBox_of_hitsBox (hready : Ready lp s.bigBound) (htol : 0 < s.feasibilityTol)
    (h : hitsBox lp (lp.form s) (lp.lastPoint s) s.feasibilityTol = true) :
    OnBox lp s ((lp.lastVars s).map .fin) := by
  obtain ⟨j, -, hj⟩ := List.any_eq_true.mp h
  refine ⟨j, ?_⟩
  have hval : (lp.lastPoint s).get (j.castAdd lp.numRows)
      = ((lp.lastVars s).map ExtRat.fin).getD j 0 := by
    have hget : ((lp.lastVars s).map ExtRat.fin).getD j (.fin 0)
        = .fin ((lp.lastVars s).getD j 0) :=
      List.getD_map _ _ _
    rw [lastPoint, Tableau.values_eq_fin (regular_standardForm hready)
      (valid_lastIterate hready htol), ← lastVars_getD, ← hget]
    rfl
  rw [← hval, ← standardForm_upper_var, ← standardForm_lower_var]
  rcases Bool.or_eq_true_iff.mp hj with hside | hside
  · obtain ⟨hinf, hle⟩ := Bool.and_eq_true_iff.mp hside
    exact .inl ⟨of_decide_eq_true hinf, of_decide_eq_true hle⟩
  · obtain ⟨hinf, hle⟩ := Bool.and_eq_true_iff.mp hside
    exact .inr ⟨of_decide_eq_true hinf, of_decide_eq_true hle⟩

/-- What an unbounded report means. Its point satisfies the program up to the tolerance, lies on the
box and, after a tolerance-free solve, costs no more than any point of the box. The objective is
unbounded below if the program has a point and the last tableau a descent. In the other direction, a
tolerance-free solve does not report an optimum where the objective is unbounded below. -/
theorem dualInfeasible_verdict (h : solve lp s = .ok r) :
    (r.status = .dualInfeasible →
      r.objective = .negInf ∧ r.x.length = lp.numVars ∧ lp.RowsHoldUpTo s.feasibilityTol r.x ∧
      lp.BoundsHoldUpTo s.feasibilityTol r.x ∧ OnBox lp s r.x ∧
      (ToleranceFree lp s → ∀ y : List ℚ, lp.RowsHold (y.map .fin) →
        Within (lp.boxedLower s.bigBound) (lp.boxedUpper s.bigBound) (y.map .fin) →
        Scalar.dot lp.cost r.x ≤ Scalar.dot lp.cost (y.map .fin)) ∧
      ((∃ y, lp.Feasible y) → (∃ q sign, Descent lp (lp.lastIterate s).tableau q sign) →
        lp.UnboundedBelow)) ∧
    (ToleranceFree lp s → lp.UnboundedBelow → r.status ≠ .optimal) := by
  obtain ⟨hwf, hset, ⟨-, hbad⟩ | ⟨-, hready, hr⟩⟩ := solve_cases h
  · rw [hbad]
    exact ⟨nofun, fun _ _ => Status.noConfusion⟩
  have htol := (Settings.pos_of_validate hset).1
  constructor
  · intro hstatus
    obtain ⟨hnone, hbox, hobjective⟩ := reported_dualInfeasible h hstatus
    obtain ⟨hrows, hbounds⟩ := lastVars_holdUpTo hready htol hnone
    have hlen : ((lp.lastVars s).map ExtRat.fin).length = lp.numVars := by
      rw [List.length_map, length_lastVars]
    rw [hr.x_eq hready htol, ← objective_lastPoint hready htol]
    refine ⟨hobjective, hlen, hrows, hbounds, onBox_of_hitsBox hready htol hbox,
      fun hfree y hy hin => objective_le_of_boxed hready htol hfree hy hin, ?_⟩
    rintro hpoint ⟨q, sign, hdescent⟩
    exact unboundedBelow_of_descent hwf (valid_lastIterate hready htol) hdescent hpoint
  · intro hfree hunbounded hstatus
    -- an optimum would bound the cost of every point
    have hvalue : ∃ v : ℚ, (lp.form s).objective (lp.lastPoint s) = .fin v :=
      ⟨_, StandardForm.objective_eq_fin (regular_standardForm hready)
        (Tableau.values_eq_fin (regular_standardForm hready) (valid_lastIterate hready htol))⟩
    obtain ⟨v, hv⟩ := hvalue
    obtain ⟨y, hy, hlt⟩ := hunbounded v
    have hle := objective_le_of_off_box hready htol hfree (hr.off_box hstatus) hy.1 hy.2
    rw [hv] at hle
    exact absurd hlt (not_lt.mpr hle)

/-- A variable with a cost, a finite upper bound and no lower bound. -/
def slope (cost : ℚ) : LinearProgram ExtRat where
  cost := [.fin cost]
  matrix := ⟨1, [[(0, 1)]]⟩
  rhs := [.fin 1000]
  lower := [.negInf]
  upper := [.fin 7]

theorem feasible_slope (cost : ℚ) : (slope cost).Feasible [0] := by
  refine ⟨.cons ?_ .nil, .cons trivial .nil, .cons ?_ .nil⟩
  · decide +kernel
  · decide +kernel

/-- With a positive cost the variable falls for ever, and the report is right. -/
theorem dualInfeasible_verdict_slope :
    ∃ r, solve (slope 1) .standard = .ok r ∧ r.status = .dualInfeasible ∧
      (slope 1).UnboundedBelow := by
  have hok : solve (slope 1) .standard = .ok (solveValid (slope 1) .standard) := by
    with_unfolding_all rfl
  have hstatus : (solveValid (slope 1) .standard).status = .dualInfeasible := by
    decide +kernel
  have hdescent : Descent (slope 1) ((slope 1).lastIterate .standard).tableau ⟨0, by decide⟩ (-1) :=
    ⟨by decide +kernel, by decide +kernel, by decide +kernel, by decide +kernel, by decide +kernel,
      by decide +kernel⟩
  obtain ⟨hreport, -⟩ := dualInfeasible_verdict hok
  obtain ⟨-, -, -, -, -, -, hright⟩ := hreport hstatus
  exact ⟨_, hok, hstatus, hright ⟨[0], feasible_slope 1⟩ ⟨_, _, hdescent⟩⟩

/-- Without a cost the variable rests on the box all the same: the report says that the objective is
unbounded below, and every point costs nothing. -/
theorem dualInfeasible_not_unboundedBelow :
    ∃ r, solve (slope 0) .standard = .ok r ∧ r.status = .dualInfeasible ∧
      (slope 0).Feasible [0] ∧ ¬ (slope 0).UnboundedBelow := by
  have hok : solve (slope 0) .standard = .ok (solveValid (slope 0) .standard) := by
    with_unfolding_all rfl
  refine ⟨_, hok, by decide +kernel, feasible_slope 0, fun hunbounded => ?_⟩
  obtain ⟨y, hy, hlt⟩ := hunbounded 0
  obtain ⟨v, rfl⟩ := List.length_eq_one_iff.mp (hy.2.length_eq : y.length = 1)
  have hzero : Scalar.dot (slope 0).cost [.fin v] = .fin 0 := by
    show (ExtRat.fin (-0) + .fin 0 * .fin v) = .fin 0
    rw [ExtRat.fin_mul, ExtRat.fin_add, neg_zero, zero_add, zero_mul]
  rw [List.map_singleton, hzero] at hlt
  exact lt_irrefl _ hlt

end BranchBound.LinearProgram
