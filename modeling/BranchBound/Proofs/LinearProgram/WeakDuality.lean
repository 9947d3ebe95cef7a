import BranchBound.Proofs.LinearProgram.OptimalPoint
import BranchBound.Proofs.LinearProgram.RatioTest

/-!
# Weak duality

Where rows have no entries too small to pivot on and ratios are tied only if they are equal, the
dual simplex keeps the signs of its reduced costs. Every tableau is then a lower bound on the cost
of all points, and the bound rises from pivot to pivot.

* `Tableau.DualFeasible`, `Tableau.dualFeasible_start`, `Tableau.dualFeasible_pivot`: the signs.
* `Tableau.value_point_le_pivot`: a pivot does not lower the objective.
* `Tableau.value_point_le`: the objective is at most that of every solution.
* `finite_of_rests`: off the box, no variable rests on a bound that stands in for an infinite one.
* `weak_duality`: all of it for a solve.
-/

namespace BranchBound.LinearProgram

namespace Tableau

/-- Reduced costs have the sign that the resting place asks for; those of fixed columns are free. -/
def DualFeasible {α : Type} [Scalar α] {m n : ℕ} (f : StandardForm α m n) (t : Tableau α m n) :
    Prop :=
  ∀ j : Fin (n + m), f.lower.get j < f.upper.get j →
    (t.place.get j = .atLower → 0 ≤ t.reduced.get j) ∧
      (t.place.get j = .atUpper → t.reduced.get j ≤ 0)

variable {m n : ℕ} {f : StandardForm ExtRat m n} {t : Tableau ExtRat m n} {l : Leaving m}
  {pivotTol : ExtRat} {bland : Bool} {q : Fin (n + m)}

/-! ## The signs of reduced costs -/

/-- At the slack basis every variable rests where its cost wants it. -/
theorem dualFeasible_start : DualFeasible f (start f) := by
  intro j _
  refine Fin.addCases (fun k => ?_) (fun r => ?_) j
  · rw [place_start_var]
    show (_ → 0 ≤ f.cost.get (k.castAdd m)) ∧ (_ → f.cost.get (k.castAdd m) ≤ 0)
    by_cases hcost : 0 ≤ f.cost.get (k.castAdd m)
    · rw [if_pos hcost]
      exact ⟨fun _ => hcost, nofun⟩
    · rw [if_neg hcost]
      exact ⟨nofun, fun _ => (not_le.mp hcost).le⟩
  · rw [place_start_slack]
    exact ⟨nofun, nofun⟩

theorem DualFeasible.price_nonneg (hd : DualFeasible f t) (ht : Valid f t) {j : Fin (n + m)}
    (hroom : f.lower.get j < f.upper.get j) (hplace : t.place.get j = .atLower) :
    0 ≤ t.price j := by
  have h := (hd j hroom).1 hplace
  rw [ht.reduced] at h
  exact h

theorem DualFeasible.price_nonpos (hd : DualFeasible f t) (ht : Valid f t) {j : Fin (n + m)}
    (hroom : f.lower.get j < f.upper.get j) (hplace : t.place.get j = .atUpper) :
    t.price j ≤ 0 := by
  have h := (hd j hroom).2 hplace
  rw [ht.reduced] at h
  exact h

theorem Leaving.abs_eq_sign_mul {a : ℚ} (h : 0 < l.sign * a) : |a| = l.sign * a := by
  unfold Leaving.sign at h ⊢
  split at h
  · rw [if_pos ‹_›, one_mul]
    exact abs_of_pos (by linarith)
  · rw [if_neg ‹_›]
    rw [abs_of_neg (by linarith)]
    ring

theorem Leaving.abs_eq_neg_sign_mul {a : ℚ} (h : l.sign * a < 0) : |a| = -(l.sign * a) := by
  rw [← abs_neg, Leaving.abs_eq_sign_mul (l := l) (by linarith), mul_neg]

/-- A pivot moves every reduced cost along the leaving row, as the leaving column has to move. -/
theorem price_pivot_eq_add (ht : Valid f t) (hd : DualFeasible f t)
    (hq : t.eligible f l pivotTol q = true) (j : Fin (n + m)) :
    (t.pivot l q).price j = t.price j + t.dualStep l q * (l.sign * t.entry l.row j) := by
  have hne := entry_ne_zero_of_eligible ht hq
  have hstep : t.price q / t.entry l.row q = -(l.sign * t.dualStep l q) := by
    obtain ⟨-, hroom, hside⟩ := (eligible_iff (ht.rationalRow l)).mp hq
    have hsq := l.sign_mul_self
    have hsign : l.sign ≠ 0 := left_ne_zero_of_mul (hsq.trans_ne one_ne_zero)
    rcases hside with ⟨hplace, hneg⟩ | ⟨hplace, hpos⟩
    · rw [dualStep, abs_of_nonneg (hd.price_nonneg ht hroom hplace),
        Leaving.abs_eq_neg_sign_mul hneg]
      field_simp
    · rw [dualStep, abs_of_nonpos (hd.price_nonpos ht hroom hplace), Leaving.abs_eq_sign_mul hpos]
      field_simp
  rw [price_pivot ht hne]
  calc t.price j - t.price q * (t.entry l.row j / t.entry l.row q)
      = t.price j - t.price q / t.entry l.row q * t.entry l.row j := by ring
    _ = t.price j + t.dualStep l q * (l.sign * t.entry l.row j) := by
      rw [hstep]
      ring

/-- The dual step is short enough for every eligible column. -/
theorem dualStep_mul_le (ht : Valid f t) (hapart : RatiosApart f t l pivotTol)
    {e : Entering ExtRat m n} (he : t.entering? f l pivotTol bland = some e) {j : Fin (n + m)}
    (hj : t.eligible f l pivotTol j = true) :
    t.dualStep l e.column * |t.entry l.row j| ≤ |t.price j| := by
  have hratio := dualStep_entering_le (ht.rationalRow l) hapart he hj
  exact (le_div_iff₀ (abs_pos.mpr (entry_ne_zero_of_eligible ht hj))).mp hratio

/-- A pivot on the column of least ratio keeps the signs of reduced costs. -/
theorem dualFeasible_pivot (ht : Valid f t) (hd : DualFeasible f t)
    (hrow : NoSmallEntries f t l pivotTol) (hapart : RatiosApart f t l pivotTol)
    {e : Entering ExtRat m n} (he : t.entering? f l pivotTol bland = some e) :
    DualFeasible f (t.pivot l e.column) := by
  have hq := (entering?_eq_some he).1
  have hnew := price_pivot_eq_add ht hd hq
  intro j hroom
  rw [reduced_pivot ht (entry_ne_zero_of_eligible ht hq),
    ← price_pivot ht (entry_ne_zero_of_eligible ht hq), hnew, place_pivot]
  by_cases hjq : j = e.column
  · rw [if_pos hjq]
    exact ⟨nofun, nofun⟩
  rw [if_neg hjq]
  have hstep : 0 ≤ t.dualStep l e.column := dualStep_nonneg
  by_cases hjp : j = t.basicColumn l.row
  · -- the leaving column had no reduced cost, and now has that of its direction
    rw [if_pos hjp, hjp, ht.basic_price, ht.basic_entry, if_pos rfl, mul_one, zero_add]
    unfold Leaving.sign
    by_cases hbelow : l.below = true
    · rw [if_pos hbelow, if_pos hbelow, mul_one]
      exact ⟨fun _ => hstep, nofun⟩
    · rw [if_neg hbelow, if_neg hbelow]
      exact ⟨nofun, fun _ => ExtRat.fin_le_fin.mpr (by linarith)⟩
  · rw [if_neg hjp]
    constructor
    · intro hplace
      have hprice := hd.price_nonneg ht hroom hplace
      refine ExtRat.fin_le_fin.mpr ?_
      -- a price that falls belongs to an eligible column, for which the step is short enough
      rcases lt_or_ge (l.sign * t.entry l.row j) 0 with hneg | hnonneg
      · have hle := dualStep_mul_le ht hapart he
          (eligible_of_sign ht hrow hroom (.inl ⟨hplace, hneg⟩))
        rw [Leaving.abs_eq_neg_sign_mul hneg, abs_of_nonneg hprice] at hle
        linarith
      · linarith [mul_nonneg hstep hnonneg]
    · intro hplace
      have hprice := hd.price_nonpos ht hroom hplace
      refine ExtRat.fin_le_fin.mpr ?_
      rcases lt_or_ge 0 (l.sign * t.entry l.row j) with hpos | hnonpos
      · have hle := dualStep_mul_le ht hapart he
          (eligible_of_sign ht hrow hroom (.inr ⟨hplace, hpos⟩))
        rw [Leaving.abs_eq_sign_mul hpos, abs_of_nonpos hprice] at hle
        linarith
      · linarith [mul_nonpos_of_nonneg_of_nonpos hstep hnonpos]

/-! ## The objective -/

/-- A column that rests before and after a pivot stays where it is. -/
theorem point_pivot_of_place_eq (ht : Valid f t) (ht' : Valid f (t.pivot l q))
    {j : Fin (n + m)} (hplace : (t.pivot l q).place.get j = t.place.get j)
    (hj : t.place.get j ≠ .basic) :
    (t.pivot l q).point f j = t.point f j := by
  have hj' : (t.pivot l q).place.get j ≠ .basic := hplace ▸ hj
  have hval : (t.pivot l q).restingValue f j = t.restingValue f j := by
    rw [restingValue_eq, restingValue_eq, hplace]
  rw [point, point, values_resting ht hj, values_resting ht' hj', hval]

/-- The leaving column comes to rest at the bound it violated. -/
theorem point_pivot_leaving (ht' : Valid f (t.pivot l q)) (hne : t.basicColumn l.row ≠ q) :
    (t.pivot l q).point f (t.basicColumn l.row) = (l.bound f t).toRat := by
  have hplace : (t.pivot l q).place.get (t.basicColumn l.row)
      = if l.below then .atLower else .atUpper := by
    rw [place_pivot, if_neg hne, if_pos rfl]
  have hrests : (t.pivot l q).place.get (t.basicColumn l.row) ≠ .basic := by
    rw [hplace]
    split <;> exact Place.noConfusion
  rw [point, values_resting ht' hrests, restingValue_eq, hplace, Leaving.bound]
  cases l.below <;> rfl

/-- A pivot does not lower the objective: only the leaving column counts, and it moves with its
reduced cost. -/
theorem value_point_le_pivot {tol : ExtRat} (hf : f.Regular) (ht : Valid f t)
    (hd : DualFeasible f t) (htol : 0 < tol)
    (hl : t.leaving? f (t.values f) tol bland = some l)
    (hq : t.eligible f l pivotTol q = true) (ht' : Valid f (t.pivot l q)) :
    f.value (t.point f) ≤ f.value ((t.pivot l q).point f) := by
  have hne : t.basicColumn l.row ≠ q := by
    rintro rfl
    exact place_ne_basic_of_eligible hq ((ht.place_eq_basic_iff _).mpr ⟨l.row, rfl⟩)
  -- any other column costs nothing after the pivot, or has not moved
  have hrest : ∀ j ∈ Finset.univ, j ≠ t.basicColumn l.row →
      (t.pivot l q).price j * ((t.pivot l q).point f j - t.point f j) = 0 := by
    intro j _ hjp
    by_cases hj : (t.pivot l q).place.get j = .basic
    · obtain ⟨r, rfl⟩ := (ht'.place_eq_basic_iff j).mp hj
      rw [ht'.basic_price, zero_mul]
    · have hjq : j ≠ q := by
        rintro rfl
        exact hj (by rw [place_pivot, if_pos rfl])
      have hplace : (t.pivot l q).place.get j = t.place.get j := by
        rw [place_pivot, if_neg hjq, if_neg hjp]
      rw [point_pivot_of_place_eq ht ht' hplace (hplace ▸ hj), sub_self, mul_zero]
  have hsub := ht'.value_sub _ _ (solves_point hf ht') (solves_point hf ht)
  rw [Finset.sum_eq_single _ hrest (fun h => absurd (Finset.mem_univ _) h),
    price_pivot_eq_add ht hd hq, ht.basic_price, ht.basic_entry, if_pos rfl, mul_one, zero_add,
    point_pivot_leaving ht' hne, mul_assoc, mul_sub] at hsub
  have hmove := (sign_mul_point_lt hf ht htol hl).2
  have hgain := mul_nonneg (dualStep_nonneg (t := t) (l := l) (q := q)) (sub_nonneg.mpr hmove.le)
  linarith

/-- A resting column of a dual feasible tableau cannot be moved at a profit: it suffices that the
new value is on the right side of the bound at which the column rests, and that a fixed one stays.
-/
theorem price_mul_sub_nonneg (hf : f.Regular) (ht : Valid f t) (hd : DualFeasible f t)
    {j : Fin (n + m)} {v : ℚ} (hj : t.place.get j ≠ .basic)
    (hlower : t.place.get j = .atLower → f.lower.get j ≤ .fin v)
    (hupper : t.place.get j = .atUpper → .fin v ≤ f.upper.get j)
    (hfixed : f.upper.get j ≤ f.lower.get j → f.lower.get j ≤ .fin v ∧ .fin v ≤ f.upper.get j) :
    0 ≤ t.price j * (v - t.point f j) := by
  rcases lt_or_ge (f.lower.get j) (f.upper.get j) with hroom | hnone
  · rcases point_resting hf ht hj with ⟨hplace, hval⟩ | ⟨hplace, hval⟩
    · have hle := hlower hplace
      rw [hval, ExtRat.fin_le_fin] at hle
      exact mul_nonneg (hd.price_nonneg ht hroom hplace) (sub_nonneg.mpr hle)
    · have hle := hupper hplace
      rw [hval, ExtRat.fin_le_fin] at hle
      exact mul_nonneg_of_nonpos_of_nonpos (hd.price_nonpos ht hroom hplace) (sub_nonpos.mpr hle)
  · rw [point_eq_of_fixed hf ht hj hnone (hfixed hnone), sub_self, mul_zero]

/-- The objective of a dual feasible tableau is at most that of every solution within the bounds
that count. -/
theorem value_point_le (hf : f.Regular) (ht : Valid f t) (hd : DualFeasible f t)
    {z : Fin (n + m) → ℚ} (hz : f.Solves z)
    (hlower : ∀ j : Fin (n + m), t.place.get j = .atLower → f.lower.get j ≤ .fin (z j))
    (hupper : ∀ j : Fin (n + m), t.place.get j = .atUpper → .fin (z j) ≤ f.upper.get j)
    (hfixed : ∀ j : Fin (n + m), f.upper.get j ≤ f.lower.get j →
      f.lower.get j ≤ .fin (z j) ∧ .fin (z j) ≤ f.upper.get j) :
    f.value (t.point f) ≤ f.value z := by
  rw [← sub_nonneg, ht.value_sub z _ hz (solves_point hf ht)]
  refine Finset.sum_nonneg fun j _ => ?_
  by_cases hj : t.place.get j = .basic
  · obtain ⟨r, rfl⟩ := (ht.place_eq_basic_iff j).mp hj
    rw [ht.basic_price, zero_mul]
  · exact price_mul_sub_nonneg hf ht hd hj (hlower j) (hupper j) (hfixed j)

end Tableau

/-! ## Runs -/

/-- At every pivot of a solve, no entry of the leaving row is too small to pivot on, and ratios are
tied only if they are equal. -/
def ToleranceFree {α : Type} [Scalar α] (lp : LinearProgram α) (s : Settings α) : Prop :=
  ∀ it ∈ lp.solveIterates s, it.iterations < s.maxIterations →
    ∀ l ∈ it.leaving? (lp.form s) s,
      Tableau.NoSmallEntries (lp.form s) it.tableau l s.pivotTol ∧
        Tableau.RatiosApart (lp.form s) it.tableau l s.pivotTol

instance {α : Type} [Scalar α] [DecidableEq α] (lp : LinearProgram α) (s : Settings α) :
    Decidable (ToleranceFree lp s) :=
  inferInstanceAs (Decidable (∀ _ ∈ _, _))

variable {lp : LinearProgram ExtRat} {s : Settings ExtRat} {r : Report ExtRat}

/-- Every iterate of a tolerance-free solve is dual feasible. -/
theorem dualFeasible_of_mem_solveIterates (hready : Ready lp s.bigBound)
    (htol : 0 < s.feasibilityTol) (hfree : ToleranceFree lp s) :
    ∀ it ∈ lp.solveIterates s, Tableau.DualFeasible (lp.form s) it.tableau := by
  have hf := regular_standardForm hready
  refine Iterate.forall_mem_iterates (P := fun it => Tableau.DualFeasible (lp.form s) it.tableau)
    s.maxIterations (fun a ha hlt b hnext hd => ?_) Tableau.dualFeasible_start
  rw [Iterate.start, Nat.zero_add] at hlt
  obtain ⟨l, e, hl, he, rfl⟩ := Iterate.next?_eq_some hnext
  obtain ⟨hrow, hapart⟩ := hfree a ha hlt l hl
  exact Tableau.dualFeasible_pivot (Iterate.valid_of_mem_iterates hf htol ha) hd hrow hapart he

/-- The objective does not fall from one iterate of a tolerance-free solve to the next. -/
theorem isChain_objective (hready : Ready lp s.bigBound) (htol : 0 < s.feasibilityTol)
    (hfree : ToleranceFree lp s) :
    (lp.solveIterates s).IsChain fun a b =>
      (lp.form s).objective (a.tableau.values (lp.form s))
        ≤ (lp.form s).objective (b.tableau.values (lp.form s)) := by
  have hf := regular_standardForm hready
  refine Iterate.isChain_iterates s.maxIterations fun a ha _ b hnext => ?_
  have hvalid := Iterate.valid_of_mem_iterates hf htol ha
  have hvalid' := Iterate.valid_next? hf htol hnext hvalid
  have hd := dualFeasible_of_mem_solveIterates hready htol hfree a ha
  obtain ⟨l, e, hl, he, rfl⟩ := Iterate.next?_eq_some hnext
  rw [StandardForm.objective_eq_fin hf (Tableau.values_eq_fin hf hvalid),
    StandardForm.objective_eq_fin hf (Tableau.values_eq_fin hf hvalid'), ExtRat.fin_le_fin]
  exact Tableau.value_point_le_pivot hf hvalid hd htol hl (Tableau.entering?_eq_some he).1 hvalid'

/-! ## Reports -/

/-- A point that does not hit the box is beyond the tolerance away from every bound that stands in
for an infinite one. -/
theorem off_box_of_hitsBox_eq_false {f : StandardForm ExtRat lp.numRows lp.numVars}
    {x : Vector ExtRat (lp.numVars + lp.numRows)} {tol : ExtRat} (h : hitsBox lp f x tol = false)
    (j : Fin lp.numVars) :
    (lp.upper.getD j 0 = .posInf → x.get (j.castAdd lp.numRows)
      < f.upper.get (j.castAdd lp.numRows)
        - tol * (1 + Scalar.abs (f.upper.get (j.castAdd lp.numRows)))) ∧
    (lp.lower.getD j 0 = .negInf → f.lower.get (j.castAdd lp.numRows)
        + tol * (1 + Scalar.abs (f.lower.get (j.castAdd lp.numRows)))
      < x.get (j.castAdd lp.numRows)) := by
  have hj := List.any_eq_false.mp h j (List.mem_finRange j)
  rw [Bool.not_eq_true, Bool.or_eq_false_iff] at hj
  constructor
  · intro hinf
    have hside := hj.1
    rw [hinf] at hside
    exact not_le.mp (of_decide_eq_false hside)
  · intro hinf
    have hside := hj.2
    rw [hinf] at hside
    exact not_le.mp (of_decide_eq_false hside)

/-- Where a solve stops off the box, a variable that rests at a bound rests at a finite one. -/
theorem finite_of_rests (hready : Ready lp s.bigBound) (htol : 0 < s.feasibilityTol)
    (hbox : hitsBox lp (lp.form s) (lp.lastPoint s) s.feasibilityTol = false)
    (j : Fin lp.numVars) :
    ((lp.lastIterate s).tableau.place.get (j.castAdd lp.numRows) = .atLower →
      Scalar.isFinite (lp.lower.getD j 0) = true) ∧
    ((lp.lastIterate s).tableau.place.get (j.castAdd lp.numRows) = .atUpper →
      Scalar.isFinite (lp.upper.getD j 0) = true) := by
  have hoff := off_box_of_hitsBox_eq_false hbox j
  have hrests : ∀ place : Place, place ≠ .basic →
      (lp.lastIterate s).tableau.place.get (j.castAdd lp.numRows) = place →
      (lp.lastPoint s).get (j.castAdd lp.numRows)
        = (lp.lastIterate s).tableau.restingValue (lp.form s) (j.castAdd lp.numRows) := by
    intro place hne hplace
    exact Tableau.values_resting (valid_lastIterate hready htol) (hplace.trans_ne hne)
  constructor
  · intro hplace
    have hval := hrests .atLower Place.noConfusion hplace
    rw [Tableau.restingValue_eq, hplace] at hval
    refine ExtRat.isFinite_of_ne (fun hinf => ?_) (hready.wellFormed.lower_getD_ne j)
    have hlt := hoff.2 hinf
    rw [hval] at hlt
    exact not_lt.mpr (ExtRat.le_add_of_nonneg _ (ExtRat.margin_nonneg htol _)) hlt
  · intro hplace
    have hval := hrests .atUpper Place.noConfusion hplace
    rw [Tableau.restingValue_eq, hplace] at hval
    refine ExtRat.isFinite_of_ne (hready.wellFormed.upper_getD_ne j) fun hinf => ?_
    have hlt := hoff.1 hinf
    rw [hval] at hlt
    exact not_lt.mpr (ExtRat.sub_le_of_nonneg _ (ExtRat.margin_nonneg htol _)) hlt

/-- The last tableau of a tolerance-free solve is a lower bound on the cost of a point that
satisfies the rows and the bounds at which columns rest, and has the values of fixed columns. -/
theorem objective_lastPoint_le (hready : Ready lp s.bigBound) (htol : 0 < s.feasibilityTol)
    (hfree : ToleranceFree lp s) {y : List ℚ} (hy : y.length = lp.numVars)
    (hlower : ∀ j : Fin (lp.numVars + lp.numRows),
      (lp.lastIterate s).tableau.place.get j = .atLower →
      (lp.form s).lower.get j ≤ .fin (lp.withSlacks y j))
    (hupper : ∀ j : Fin (lp.numVars + lp.numRows),
      (lp.lastIterate s).tableau.place.get j = .atUpper →
      .fin (lp.withSlacks y j) ≤ (lp.form s).upper.get j)
    (hfixed : ∀ j : Fin (lp.numVars + lp.numRows),
      (lp.form s).upper.get j ≤ (lp.form s).lower.get j →
      (lp.form s).lower.get j ≤ .fin (lp.withSlacks y j) ∧
        .fin (lp.withSlacks y j) ≤ (lp.form s).upper.get j) :
    (lp.form s).objective (lp.lastPoint s) ≤ Scalar.dot lp.cost (y.map .fin) := by
  have hf := regular_standardForm hready
  have hvalid := valid_lastIterate hready htol
  have hd := dualFeasible_of_mem_solveIterates hready htol hfree _ lastIterate_mem_iterates
  rw [lastPoint, StandardForm.objective_eq_fin hf (Tableau.values_eq_fin hf hvalid),
    ← fin_value hready.wellFormed hy fun j => withSlacks_var y j]
  exact Tableau.value_point_le hf hvalid hd (solves_withSlacks hready.wellFormed y) hlower hupper
    hfixed

theorem objective_le_of_boxed (hready : Ready lp s.bigBound) (htol : 0 < s.feasibilityTol)
    (hfree : ToleranceFree lp s) {y : List ℚ} (hrows : lp.RowsHold (y.map .fin))
    (hbox : Within (lp.boxedLower s.bigBound) (lp.boxedUpper s.bigBound) (y.map .fin)) :
    (lp.form s).objective (lp.lastPoint s) ≤ Scalar.dot lp.cost (y.map .fin) := by
  have hwithin := withSlacks_within hready.wellFormed hrows hbox
  exact objective_lastPoint_le hready htol hfree (hbox.length_eq.trans length_boxedLower)
    (fun j _ => (hwithin j).1) (fun j _ => (hwithin j).2) fun j _ => hwithin j

theorem objective_le_of_off_box (hready : Ready lp s.bigBound) (htol : 0 < s.feasibilityTol)
    (hfree : ToleranceFree lp s)
    (hbox : hitsBox lp (lp.form s) (lp.lastPoint s) s.feasibilityTol = false) {y : List ℚ}
    (hrows : lp.RowsHold (y.map .fin)) (hy : Within lp.lower lp.upper (y.map .fin)) :
    (lp.form s).objective (lp.lastPoint s) ≤ Scalar.dot lp.cost (y.map .fin) := by
  have hlen : y.length = lp.numVars := hy.length_eq.trans hready.wellFormed.lower
  have hslack := withSlacks_slack_within s.bigBound hready.wellFormed hlen hrows
  have hvar : ∀ j : Fin lp.numVars, lp.lower.getD j 0 ≤ .fin (lp.withSlacks y (j.castAdd _)) ∧
      .fin (lp.withSlacks y (j.castAdd _)) ≤ lp.upper.getD j 0 := by
    intro j
    rw [withSlacks_var]
    exact hy.getD hlen j
  refine objective_lastPoint_le hready htol hfree hlen (fun j => ?_) (fun j => ?_) fun j => ?_
  · refine Fin.addCases (fun k hplace => ?_) (fun i _ => (hslack i).1) j
    have hfinite := (finite_of_rests hready htol hbox k).1 hplace
    rw [standardForm_lower_var, (hready.boxed k).lower_eq hfinite]
    exact (hvar k).1
  · refine Fin.addCases (fun k hplace => ?_) (fun i _ => (hslack i).2) j
    have hfinite := (finite_of_rests hready htol hbox k).2 hplace
    rw [standardForm_upper_var, (hready.boxed k).upper_eq hfinite]
    exact (hvar k).2
  · refine Fin.addCases (fun k hnone => ?_) (fun i _ => hslack i) j
    -- a box around an infinite bound has room, so a fixed variable has two finite bounds
    rw [standardForm_lower_var, standardForm_upper_var] at hnone ⊢
    have hends := mt (hready.boxed k).lt (not_lt.mpr hnone)
    rw [not_or] at hends
    have hlo := ExtRat.isFinite_of_ne hends.1 (hready.wellFormed.lower_getD_ne k)
    have hhi := ExtRat.isFinite_of_ne (hready.wellFormed.upper_getD_ne k) hends.2
    rw [(hready.boxed k).lower_eq hlo, (hready.boxed k).upper_eq hhi]
    exact hvar k

/-- Weak duality. Every iterate of a tolerance-free solve is dual feasible, the objective does not
fall along the iterates, at the limit on pivots it is at most the cost of every point in the box,
and at an optimum at most the cost of every point within the bounds. -/
theorem weak_duality (hlp : lp.validate = .ok ()) (hs : s.validate = .ok ())
    (hle : List.Forall₂ (· ≤ ·) lp.lower lp.upper) (hfree : ToleranceFree lp s) :
    (∀ it ∈ lp.solveIterates s, Tableau.DualFeasible (lp.form s) it.tableau) ∧
    ((lp.solveIterates s).IsChain fun a b =>
      (lp.form s).objective (a.tableau.values (lp.form s))
        ≤ (lp.form s).objective (b.tableau.values (lp.form s))) ∧
    ∃ r, solve lp s = .ok r ∧
      (r.status = .maxIterations → ∀ y : List ℚ, lp.RowsHold (y.map .fin) →
        Within (lp.boxedLower s.bigBound) (lp.boxedUpper s.bigBound) (y.map .fin) →
        r.objective ≤ Scalar.dot lp.cost (y.map .fin)) ∧
      (r.status = .optimal → ∀ y : List ℚ, lp.RowsHold (y.map .fin) →
        Within lp.lower lp.upper (y.map .fin) →
        r.objective ≤ Scalar.dot lp.cost (y.map .fin)) := by
  have hwf := wellFormed_of_validate hlp
  have htol := (Settings.pos_of_validate hs).1
  have hcross : lp.crossedBound? = none :=
    (crossedBound?_eq_none_iff hwf).mpr ((forall₂_iff_getD hwf.lower hwf.upper 0 0).mp hle)
  have hok : solve lp s = .ok (solveValid lp s) := by
    rw [solve, hlp, hs]
    rfl
  obtain ⟨-, -, ⟨hbad, -⟩ | ⟨-, hready, hr⟩⟩ := solve_cases hok
  · exact absurd hcross hbad
  refine ⟨dualFeasible_of_mem_solveIterates hready htol hfree, isChain_objective hready htol hfree,
    _, hok, fun hstatus y hrows hy => ?_, fun hstatus y hrows hy => ?_⟩
  · rw [hr.objective (.inr hstatus)]
    exact objective_le_of_boxed hready htol hfree hrows hy
  · rw [hr.objective (.inl hstatus)]
    exact objective_le_of_off_box hready htol hfree (hr.off_box hstatus) hrows hy

theorem weak_duality_diagonal :
    ∃ r, solve (diagonal (3 / 2)) .standard = .ok r ∧ r.status = .optimal ∧ r.iterations = 1 ∧
      ∀ y : List ℚ, (diagonal (3 / 2)).RowsHold (y.map .fin) →
        Within (diagonal (3 / 2)).lower (diagonal (3 / 2)).upper (y.map .fin) →
        r.objective ≤ Scalar.dot (diagonal (3 / 2)).cost (y.map .fin) := by
  have hok : solve (diagonal (3 / 2)) .standard
      = .ok (solveValid (diagonal (3 / 2)) .standard) := by
    with_unfolding_all rfl
  have hstatus : (solveValid (diagonal (3 / 2)) .standard).status = .optimal := by
    decide +kernel
  obtain ⟨-, -, r, hr, -, hoptimal⟩ := @weak_duality (diagonal (3 / 2)) .standard rfl
    (by with_unfolding_all rfl) (by decide +kernel) (by decide +kernel)
  cases hok.symm.trans hr
  exact ⟨_, hok, hstatus, by decide +kernel, hoptimal hstatus⟩

end BranchBound.LinearProgram
