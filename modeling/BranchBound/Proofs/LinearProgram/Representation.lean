import BranchBound.Proofs.LinearProgram.Unbounded

/-!
# What a tableau stands for

A pivot rewrites the rows, right-hand sides, reduced costs, basis and places of a tableau, each by a
rule of its own. However many pivots are made, all of them tell of one program. Whatever the
scalars, the basis and the places agree; over rational numbers the rows are the equations of the
program solved for the basis, and the reduced costs are its costs less a combination of the rows.

* `Dimensioned`: the lists of a program are as long as a tableau reads them.
* `tableauAfter`: the tableau after a number of pivots.
* `Tableau.multiplier`, `Tableau.Valid.price_eq`: reduced costs in terms of costs and rows.
* `Represents`, `represents_of_valid`: what a tableau says about the rows and costs of a program.
* `tableauAfter_represents`: all of it after any number of pivots.
-/

namespace BranchBound.LinearProgram

/-! ## Any scalars -/

section Generic

variable {α : Type} [Scalar α] {lp : LinearProgram α} {s : Settings α}

/-- There is a row for every right-hand side, and a column and two bounds for every cost. -/
structure Dimensioned (lp : LinearProgram α) : Prop where
  rows : lp.matrix.rows.length = lp.numRows
  columns : lp.matrix.columns = lp.numVars
  lower : lp.lower.length = lp.numVars
  upper : lp.upper.length = lp.numVars

/-- Validated data has vectors of the right lengths. -/
theorem dimensioned_of_validate (h : lp.validate = .ok ()) : lp.Dimensioned := by
  unfold validate at h
  extract_lets n m bounds coefficients rhs cost upper lower columns at h
  split at h
  · cases h
  rename_i hrows
  simp only [columns] at h
  split at h
  · cases h
  rename_i hcolumns
  simp only [lower] at h
  split at h
  · cases h
  rename_i hlower
  simp only [upper] at h
  split at h
  · cases h
  rename_i hupper
  exact ⟨not_not.mp hrows, not_not.mp hcolumns, not_not.mp hlower, not_not.mp hupper⟩

/-- The tableau of a solve after `k` pivots, or where it stops if that is earlier. -/
def tableauAfter (lp : LinearProgram α) (s : Settings α) (k : ℕ) :
    Tableau α lp.numRows lp.numVars :=
  (Iterate.run (lp.form s) s k (.start (lp.form s))).2.tableau

/-- What holds of the slack basis and is kept by every pivot that a solve makes holds after any
number of pivots. -/
theorem tableauAfter_induction {P : Tableau α lp.numRows lp.numVars → Prop}
    (hstart : P (.start (lp.form s)))
    (hnext : ∀ it it' : Iterate α lp.numRows lp.numVars, it.next? (lp.form s) s = some it' →
      P it.tableau → P it'.tableau) (k : ℕ) : P (lp.tableauAfter s k) :=
  Iterate.forall_mem_iterates (P := fun it => P it.tableau) k (fun it _ _ it' => hnext it it')
    hstart _ (List.mem_of_getLast? (Iterate.stopped_run k _).1)

/-- The entering column is not basic, so a pivot keeps the basis proper. -/
theorem Iterate.proper_next? {m n : ℕ} {f : StandardForm α m n} {it it' : Iterate α m n}
    (h : it.next? f s = some it') (hit : it.tableau.Proper) : it'.tableau.Proper := by
  obtain ⟨l, e, -, he, rfl⟩ := next?_eq_some h
  refine Tableau.proper_pivot hit fun r hr => ?_
  have hrests := Tableau.place_ne_basic_of_eligible (Tableau.entering?_eq_some he).1
  exact absurd ((hit.place_eq_basic_iff _).mpr ⟨r, hr⟩) hrests

/-- A tableau is proper after any number of pivots, over any arithmetic. -/
theorem proper_tableauAfter (lp : LinearProgram α) (s : Settings α) (k : ℕ) :
    (lp.tableauAfter s k).Proper :=
  tableauAfter_induction (Tableau.proper_start _) (fun _ _ => Iterate.proper_next?) k

end Generic

/-! ## Reduced costs -/

namespace Tableau

variable {m n : ℕ} {f : StandardForm ExtRat m n} {t : Tableau ExtRat m n}

/-- How often a row has been subtracted from the costs: its slack, which costs nothing and occurs in
no other row, shows it. -/
def multiplier (t : Tableau ExtRat m n) (i : Fin m) : ℚ := -t.price (Fin.natAdd n i)

/-- Reduced costs are costs less a combination of the rows. A move of one column along with the
slacks is priced both by the costs and by the reduced costs, and these prices are the same. -/
theorem Valid.price_eq (ht : Valid f t) (hf : f.Regular) (j : Fin (n + m)) :
    t.price j = f.price j - ∑ i, t.multiplier i * f.entry i j := by
  have hstart := valid_start hf
  have hz := solves_point hf hstart
  have hmoved : f.Solves fun k => (start f).point f k + 1 * (start f).ray j 1 k :=
    solves_add_ray hstart hz 1
  have hcost : f.value (fun k => (start f).point f k + 1 * (start f).ray j 1 k) = _ :=
    value_add_ray hstart hz 1
  have hreduced := ht.value_sub _ _ hmoved hz
  rw [hcost] at hreduced
  simp only [add_sub_cancel_left, one_mul, mul_one, sum_mul_ray, basicColumn_start] at hreduced
  have hsum : ∑ i, t.multiplier i * f.entry i j
      = -∑ i, t.price (Fin.natAdd n i) * f.entry i j := by
    simp only [multiplier, neg_mul, Finset.sum_neg_distrib]
  have hprice : f.price j = t.price j - ∑ i, t.price (Fin.natAdd n i) * f.entry i j := hreduced
  rw [hsum, hprice]
  ring

end Tableau

/-! ## The program behind a tableau -/

variable {lp : LinearProgram ExtRat} {s : Settings ExtRat}

/-- The coefficients of a row followed by those of the slacks, of which it has its own. -/
def slackRow (lp : LinearProgram ExtRat) (i : Fin lp.numRows) :
    Fin (lp.numVars + lp.numRows) → ℚ :=
  Fin.append (fun j => Terms.coef (lp.matrix.rows.getD i []) j) (Pi.single i 1)

/-- The costs followed by those of the slacks, which cost nothing. -/
def slackCost (lp : LinearProgram ExtRat) : Fin (lp.numVars + lp.numRows) → ℚ :=
  Fin.append (fun j => (lp.cost.getD j 0).toRat) 0

theorem entry_form (hwf : lp.WellFormed) (i : Fin lp.numRows)
    (j : Fin (lp.numVars + lp.numRows)) : (lp.form s).entry i j = lp.slackRow i j := by
  refine Fin.addCases (fun k => ?_) (fun r => ?_) j
  · rw [entry_var hwf, slackRow, Fin.append_left]
  · rw [entry_slack, slackRow, Fin.append_right, Pi.single_apply]
    exact if_congr eq_comm rfl rfl

theorem price_form (j : Fin (lp.numVars + lp.numRows)) :
    (lp.form s).price j = lp.slackCost j := by
  refine Fin.addCases (fun k => ?_) (fun r => ?_) j
  · rw [StandardForm.price, standardForm_cost_var, slackCost, Fin.append_left]
  · rw [price_slack, slackCost, Fin.append_right, Pi.zero_apply]

/-- A tableau of rational numbers that tells of a program: resting columns rest at finite bounds,
basic columns are unit columns without a reduced cost, the rows have the solutions of the program's
rows with slacks, and reduced costs are costs less a combination of these rows. -/
structure Represents (lp : LinearProgram ExtRat) (s : Settings ExtRat)
    (t : Tableau ExtRat lp.numRows lp.numVars) : Prop where
  rows : ∀ (i : Fin lp.numRows) (j : Fin (lp.numVars + lp.numRows)),
    (t.rows.get i).get j = .fin (t.entry i j)
  beta : ∀ i : Fin lp.numRows, t.beta.get i = .fin (t.right i)
  reduced : ∀ j : Fin (lp.numVars + lp.numRows), t.reduced.get j = .fin (t.price j)
  rests : ∀ j : Fin (lp.numVars + lp.numRows), t.place.get j ≠ .basic →
    (t.place.get j = .atLower ∧ Scalar.isFinite ((lp.form s).lower.get j) = true) ∨
      (t.place.get j = .atUpper ∧ Scalar.isFinite ((lp.form s).upper.get j) = true)
  slack_place : ∀ r : Fin lp.numRows, t.place.get (Fin.natAdd lp.numVars r) ≠ .atUpper
  basic_entry : ∀ i r, t.entry i (t.basicColumn r) = if i = r then 1 else 0
  basic_price : ∀ r, t.price (t.basicColumn r) = 0
  solves_iff : ∀ z, t.Solves z ↔ ∀ i, ∑ j, lp.slackRow i j * z j = (lp.rhs.getD i 0).toRat
  price_eq : ∀ j, t.price j = lp.slackCost j - ∑ i, t.multiplier i * lp.slackRow i j

/-- A valid tableau represents the program. -/
theorem represents_of_valid (hready : Ready lp s.bigBound)
    {t : Tableau ExtRat lp.numRows lp.numVars} (ht : Tableau.Valid (lp.form s) t) :
    lp.Represents s t where
  rows := ht.rows
  beta := ht.beta
  reduced := ht.reduced
  rests j hj := by
    have hlower : Scalar.isFinite ((lp.form s).lower.get j) = true := by
      rw [(regular_standardForm hready).lower j]
      rfl
    cases hplace : t.place.get j with
    | basic => exact absurd hplace hj
    | atLower => exact .inl ⟨rfl, hlower⟩
    | atUpper => exact .inr ⟨rfl, ht.upper_finite j hplace⟩
  slack_place r hplace := by
    have hfinite := ht.upper_finite _ hplace
    rw [standardForm_upper_slack] at hfinite
    exact Bool.false_ne_true hfinite
  basic_entry := ht.basic_entry
  basic_price := ht.basic_price
  solves_iff z := by
    rw [ht.solves_iff]
    refine forall_congr' fun i => ?_
    rw [StandardForm.right, standardForm_rhs]
    simp only [entry_form hready.wellFormed]
  price_eq j := by
    rw [ht.price_eq (regular_standardForm hready), price_form]
    simp only [entry_form hready.wellFormed]

/-- Whatever the scalars, after any number of pivots rows have different basic columns, and these
are the columns that do not rest at a bound; where the data is in order, its lists are as long as
the tableau reads them. Over rational numbers, for data and settings in order and bounds that do not
cross, the tableau represents the program. -/
theorem tableauAfter_represents (k : ℕ) :
    (∀ (α : Type) [Scalar α] (lp : LinearProgram α) (s : Settings α),
      (lp.tableauAfter s k).Proper ∧ (lp.validate = .ok () → lp.Dimensioned)) ∧
    ∀ (lp : LinearProgram ExtRat) (s : Settings ExtRat), lp.validate = .ok () →
      s.validate = .ok () → List.Forall₂ (· ≤ ·) lp.lower lp.upper →
      lp.Represents s (lp.tableauAfter s k) := by
  refine ⟨fun α _ lp s => ⟨proper_tableauAfter lp s k, dimensioned_of_validate⟩,
    fun lp s hlp hs hle => ?_⟩
  have hwf := wellFormed_of_validate hlp
  obtain ⟨htol, -, hfinite, hpos⟩ := Settings.pos_of_validate hs
  have hready : Ready lp s.bigBound :=
    ⟨hwf, hfinite, hpos, (forall₂_iff_getD hwf.lower hwf.upper 0 0).mp hle⟩
  have hf := regular_standardForm hready
  exact represents_of_valid hready <| tableauAfter_induction (Tableau.valid_start hf)
    (fun _ _ => Iterate.valid_next? hf htol) k

/-- After its one pivot the first variable is basic, and the row has been added to the costs. -/
theorem tableauAfter_represents_diagonal :
    ((diagonal (3 / 2)).tableauAfter .standard 1).basicColumn ⟨0, by decide⟩ = ⟨0, by decide⟩ ∧
    ((diagonal (3 / 2)).tableauAfter .standard 1).multiplier ⟨0, by decide⟩ = -1 ∧
    ((diagonal (3 / 2)).tableauAfter .standard 1).Proper ∧
    (diagonal (3 / 2)).Represents .standard ((diagonal (3 / 2)).tableauAfter .standard 1) := by
  obtain ⟨hany, hexact⟩ := tableauAfter_represents 1
  exact ⟨by decide +kernel, by decide +kernel, (hany ExtRat _ _).1,
    hexact _ _ rfl (by with_unfolding_all rfl) (by decide +kernel)⟩

end BranchBound.LinearProgram
