import BranchBound.Proofs.LinearProgram.StandardForm

/-!
# Tableaus over the rational numbers

A tableau reached from the slack basis by pivots is another way of writing the standard form: it has
the same solutions, its basic columns are unit columns, and its reduced costs price every difference
of two solutions as the costs do.

* `Tableau.Proper`: the basis and the places of columns agree, whatever the scalars.
* `Tableau.Valid`: this relation to a standard form.
* `valid_start`, `valid_pivot`: it holds at the slack basis, and every pivot on a nonzero entry
  keeps it.
* `Tableau.point`, `solves_point`: the values read off a tableau solve the standard form.
-/

namespace BranchBound.LinearProgram.Tableau

variable {m n : ℕ}

/-! ## Bases -/

section Bases

variable {α : Type} [Scalar α] {f : StandardForm α m n} {t : Tableau α m n} {l : Leaving m}
  {q : Fin (n + m)}

/-- Rows have different basic columns, and these are the columns that do not rest at a bound. -/
structure Proper (t : Tableau α m n) : Prop where
  injective : Function.Injective t.basicColumn
  place_eq_basic_iff : ∀ j : Fin (n + m), t.place.get j = .basic ↔ ∃ r, t.basicColumn r = j

theorem basicColumn_start (r : Fin m) : (start f).basicColumn r = Fin.natAdd n r := by
  simp only [basicColumn, start, Fin.getElem_fin, Vector.getElem_ofFn, Fin.eta]

theorem place_start_var (k : Fin n) :
    (start f).place.get (k.castAdd m)
      = if 0 ≤ f.cost.get (k.castAdd m) then .atLower else .atUpper := by
  show (start f).place[k.castAdd m] = _
  simp only [start, Fin.getElem_fin, Vector.getElem_ofFn]
  rw [if_pos (show (k.castAdd m).val < n from k.isLt)]
  rfl

theorem place_start_slack (r : Fin m) : (start f).place.get (Fin.natAdd n r) = .basic := by
  show (start f).place[Fin.natAdd n r] = _
  simp only [start, Fin.getElem_fin, Vector.getElem_ofFn]
  rw [if_neg (show ¬ (Fin.natAdd n r).val < n from Nat.not_lt.mpr (Nat.le_add_right n r))]

/-- The slacks are basic at the start, and every variable rests. -/
theorem proper_start (f : StandardForm α m n) : (start f).Proper where
  injective r s hrs := by
    rw [basicColumn_start, basicColumn_start] at hrs
    exact Fin.natAdd_injective m n hrs
  place_eq_basic_iff j := by
    refine Fin.addCases (fun k => ?_) (fun r => ?_) j
    · rw [place_start_var]
      constructor
      · intro h
        split at h <;> cases h
      · rintro ⟨r, hr⟩
        rw [basicColumn_start] at hr
        have hval := congrArg Fin.val hr
        rw [Fin.val_natAdd, Fin.val_castAdd] at hval
        omega
    · exact ⟨fun _ => ⟨r, basicColumn_start r⟩, fun _ => place_start_slack r⟩

/-- A pivot moves two columns: the one that enters becomes basic, the one that leaves rests at the
bound it missed. -/
theorem place_pivot (j : Fin (n + m)) :
    (t.pivot l q).place.get j
      = if j = q then .basic
        else if j = t.basicColumn l.row then (if l.below then .atLower else .atUpper)
        else t.place.get j := by
  show (t.pivot l q).place[j] = _
  simp only [pivot, Fin.getElem_fin, Vector.getElem_set, Fin.val_inj]
  simp only [eq_comm]
  rfl

/-- The entering column takes the row of the leaving one. -/
theorem basicColumn_pivot (r : Fin m) :
    (t.pivot l q).basicColumn r = if r = l.row then q else t.basicColumn r := by
  simp only [basicColumn, pivot, Fin.getElem_fin, Vector.getElem_set, Fin.val_inj]
  simp only [eq_comm]

/-- A pivot keeps the basis proper if no other row has the entering column in the basis. -/
theorem proper_pivot (ht : t.Proper) (hq : ∀ r, t.basicColumn r = q → r = l.row) :
    (t.pivot l q).Proper where
  injective r s hrs := by
    rw [basicColumn_pivot, basicColumn_pivot] at hrs
    split at hrs <;> split at hrs
    · exact ‹r = l.row›.trans ‹s = l.row›.symm
    · exact absurd (hq s hrs.symm) ‹_›
    · exact absurd (hq r hrs) ‹_›
    · exact ht.injective hrs
  place_eq_basic_iff j := by
    rw [place_pivot]
    by_cases hj : j = q
    · rw [if_pos hj]
      refine ⟨fun _ => ⟨l.row, ?_⟩, fun _ => rfl⟩
      rw [basicColumn_pivot, if_pos rfl, hj]
    rw [if_neg hj]
    by_cases hp : j = t.basicColumn l.row
    · -- the leaving column: its row has another basic column now
      rw [if_pos hp]
      constructor
      · intro h
        split at h <;> cases h
      · rintro ⟨r, hr⟩
        rw [basicColumn_pivot] at hr
        split at hr
        · exact absurd hr.symm hj
        · rename_i hne
          exact absurd (ht.injective (hr.trans hp)) hne
    · rw [if_neg hp, ht.place_eq_basic_iff]
      constructor
      · rintro ⟨r, rfl⟩
        refine ⟨r, ?_⟩
        rw [basicColumn_pivot, if_neg (fun hr => hp (by rw [hr]))]
      · rintro ⟨r, hr⟩
        rw [basicColumn_pivot] at hr
        split at hr
        · exact absurd hr.symm hj
        · exact ⟨r, hr⟩

end Bases

/-! ## Rational reading -/

/-- Coefficient of a column in a row. -/
def entry (t : Tableau ExtRat m n) (i : Fin m) (j : Fin (n + m)) : ℚ := ((t.rows.get i).get j).toRat

/-- Right-hand side of a row. -/
def right (t : Tableau ExtRat m n) (i : Fin m) : ℚ := (t.beta.get i).toRat

/-- Reduced cost of a column. -/
def price (t : Tableau ExtRat m n) (j : Fin (n + m)) : ℚ := (t.reduced.get j).toRat

/-- All rows hold. -/
def Solves (t : Tableau ExtRat m n) (z : Fin (n + m) → ℚ) : Prop :=
  ∀ i, ∑ j, t.entry i j * z j = t.right i

/-- A tableau that rewrites a standard form: finite numbers, unit columns in the basis, the same
solutions, and reduced costs that price differences of solutions. -/
structure Valid (f : StandardForm ExtRat m n) (t : Tableau ExtRat m n) : Prop where
  rows : ∀ (i : Fin m) (j : Fin (n + m)), (t.rows.get i).get j = .fin (t.entry i j)
  beta : ∀ i : Fin m, t.beta.get i = .fin (t.right i)
  reduced : ∀ j : Fin (n + m), t.reduced.get j = .fin (t.price j)
  basic_entry : ∀ i r, t.entry i (t.basicColumn r) = if i = r then 1 else 0
  basic_price : ∀ r, t.price (t.basicColumn r) = 0
  place_eq_basic_iff : ∀ j : Fin (n + m), t.place.get j = .basic ↔ ∃ r, t.basicColumn r = j
  upper_finite : ∀ j : Fin (n + m), t.place.get j = .atUpper →
    Scalar.isFinite (f.upper.get j) = true
  solves_iff : ∀ z, t.Solves z ↔ f.Solves z
  value_sub : ∀ z w, f.Solves z → f.Solves w →
    f.value z - f.value w = ∑ j, t.price j * (z j - w j)

variable {f : StandardForm ExtRat m n} {t : Tableau ExtRat m n}

/-! ## The slack basis -/

/-- The tableau of the slack basis rewrites the standard form it starts from. -/
theorem valid_start (hf : f.Regular) : Valid f (start f) where
  rows := hf.rows
  beta := hf.rhs
  reduced := hf.cost
  basic_entry i r := by
    rw [basicColumn_start]
    exact hf.slack_entry i r
  basic_price r := by
    rw [basicColumn_start]
    exact hf.slack_price r
  place_eq_basic_iff := (proper_start f).place_eq_basic_iff
  upper_finite j := by
    refine Fin.addCases (fun k => ?_) (fun r => ?_) j
    · intro _
      exact hf.upper_var k
    · intro h
      rw [place_start_slack] at h
      cases h
  solves_iff z := Iff.rfl
  value_sub z w _ _ := by
    rw [StandardForm.value, StandardForm.value, ← Finset.sum_sub_distrib]
    refine Finset.sum_congr rfl fun j _ => ?_
    rw [mul_sub]
    rfl

/-! ## Basic columns -/

/-- Basic columns of different rows differ. -/
theorem Valid.basicColumn_injective (ht : Valid f t) : Function.Injective t.basicColumn := by
  intro r s hrs
  by_contra hne
  have hr := ht.basic_entry r r
  rw [hrs, ht.basic_entry r s, if_neg hne, if_pos rfl] at hr
  exact zero_ne_one hr

theorem Valid.proper (ht : Valid f t) : t.Proper :=
  ⟨ht.basicColumn_injective, ht.place_eq_basic_iff⟩

/-- In a row only its own basic column and the resting columns count. -/
theorem Valid.sum_entry (ht : Valid f t) (r : Fin m) (z : Fin (n + m) → ℚ) :
    ∑ j, t.entry r j * z j
      = z (t.basicColumn r)
        + ∑ j, if t.place.get j = .basic then 0 else t.entry r j * z j := by
  have hcol : z (t.basicColumn r) = ∑ j, if j = t.basicColumn r then z j else 0 := by
    rw [Finset.sum_ite_eq' Finset.univ (t.basicColumn r) z, if_pos (Finset.mem_univ _)]
  rw [hcol, ← Finset.sum_add_distrib]
  refine Finset.sum_congr rfl fun j _ => ?_
  -- column by column: a basic column counts in its own row only
  by_cases hj : t.place.get j = .basic
  · obtain ⟨s, rfl⟩ := (ht.place_eq_basic_iff j).mp hj
    rw [if_pos hj, add_zero, ht.basic_entry]
    by_cases hrs : r = s
    · rw [if_pos hrs, if_pos (by rw [hrs]), one_mul]
    · rw [if_neg hrs, if_neg (fun h => hrs (ht.basicColumn_injective h).symm), zero_mul]
  · have hne : j ≠ t.basicColumn r := by
      rintro rfl
      exact hj ((ht.place_eq_basic_iff _).mpr ⟨r, rfl⟩)
    rw [if_neg hne, if_neg hj, zero_add]

/-! ## Pivots -/

variable {l : Leaving m} {q : Fin (n + m)}

/-- The leaving row solved for the entering column. -/
theorem pivotRow_eq (ht : Valid f t) (j : Fin (n + m)) :
    ((t.rows.get l.row).map (· / (t.rows.get l.row).get q)).get j
      = .fin (t.entry l.row j / t.entry l.row q) := by
  have hmap : ((t.rows.get l.row).map (· / (t.rows.get l.row).get q)).get j
      = (t.rows.get l.row).get j / (t.rows.get l.row).get q := Vector.getElem_map _ j.isLt
  rw [hmap, ht.rows, ht.rows, ExtRat.fin_div]

/-- The pivot row is divided by its entry, and cleared from the others. -/
theorem rows_pivot (ht : Valid f t) (i : Fin m) (j : Fin (n + m)) :
    ((t.pivot l q).rows.get i).get j
      = .fin (if i = l.row then t.entry l.row j / t.entry l.row q
          else t.entry i j - t.entry i q * (t.entry l.row j / t.entry l.row q)) := by
  have hrow : (t.pivot l q).rows.get i
      = if i = l.row then (t.rows.get l.row).map (· / (t.rows.get l.row).get q)
        else if (t.rows.get i).get q == 0 then t.rows.get i
        else (t.rows.get i).zipWith (fun v p => v - (t.rows.get i).get q * p)
          ((t.rows.get l.row).map (· / (t.rows.get l.row).get q)) :=
    Vector.getElem_ofFn i.isLt
  rw [hrow]
  split
  · exact pivotRow_eq ht j
  split
  · -- a row without an entry in the entering column is left alone
    rename_i hzero
    rw [ht.rows, ExtRat.fin_beq_zero, decide_eq_true_iff] at hzero
    rw [ht.rows, hzero, zero_mul, sub_zero]
  · have hzip : ((t.rows.get i).zipWith (fun v p => v - (t.rows.get i).get q * p)
        ((t.rows.get l.row).map (· / (t.rows.get l.row).get q))).get j
        = (t.rows.get i).get j - (t.rows.get i).get q
          * ((t.rows.get l.row).map (· / (t.rows.get l.row).get q)).get j :=
      Vector.getElem_zipWith j.isLt
    rw [hzip, pivotRow_eq ht, ht.rows, ht.rows, ExtRat.fin_mul, ExtRat.fin_sub]

/-- The right side goes along with the rows. -/
theorem beta_pivot (ht : Valid f t) (i : Fin m) :
    (t.pivot l q).beta.get i
      = .fin (if i = l.row then t.right l.row / t.entry l.row q
          else t.right i - t.entry i q * (t.right l.row / t.entry l.row q)) := by
  have hbeta : (t.pivot l q).beta.get i
      = if i = l.row then t.beta.get l.row / (t.rows.get l.row).get q
        else if (t.rows.get i).get q == 0 then t.beta.get i
        else t.beta.get i - (t.rows.get i).get q * (t.beta.get l.row / (t.rows.get l.row).get q) :=
    Vector.getElem_ofFn i.isLt
  rw [hbeta, ht.beta, ht.beta, ht.rows, ht.rows, ExtRat.fin_div, ExtRat.fin_beq_zero]
  split
  · rfl
  split
  · rename_i hzero
    rw [decide_eq_true_iff] at hzero
    rw [hzero, zero_mul, sub_zero]
  · rw [ExtRat.fin_mul, ExtRat.fin_sub]

/-- The pivot row is cleared from the prices, too. -/
theorem reduced_pivot (ht : Valid f t) (hq : t.entry l.row q ≠ 0) (j : Fin (n + m)) :
    (t.pivot l q).reduced.get j
      = .fin (t.price j - t.price q * (t.entry l.row j / t.entry l.row q)) := by
  have hreduced : (t.pivot l q).reduced.get j
      = ((t.reduced.zipWith (fun v p => v - t.reduced.get q * p)
          ((t.rows.get l.row).map (· / (t.rows.get l.row).get q))).set q.val 0)[j] := rfl
  rw [hreduced, Fin.getElem_fin, Vector.getElem_set]
  split
  · -- the entering column is set to zero, which is what the formula gives
    rename_i hqj
    rw [← Fin.ext hqj, div_self hq, mul_one, sub_self]
    rfl
  · rw [Vector.getElem_zipWith]
    show t.reduced.get j - t.reduced.get q
      * ((t.rows.get l.row).map (· / (t.rows.get l.row).get q)).get j = _
    rw [pivotRow_eq ht, ht.reduced, ht.reduced, ExtRat.fin_mul, ExtRat.fin_sub]

theorem entry_pivot (ht : Valid f t) (i : Fin m) (j : Fin (n + m)) :
    (t.pivot l q).entry i j
      = if i = l.row then t.entry l.row j / t.entry l.row q
        else t.entry i j - t.entry i q * (t.entry l.row j / t.entry l.row q) := by
  rw [entry, rows_pivot ht, ExtRat.toRat_fin]

theorem right_pivot (ht : Valid f t) (i : Fin m) :
    (t.pivot l q).right i
      = if i = l.row then t.right l.row / t.entry l.row q
        else t.right i - t.entry i q * (t.right l.row / t.entry l.row q) := by
  rw [right, beta_pivot ht, ExtRat.toRat_fin]

theorem price_pivot (ht : Valid f t) (hq : t.entry l.row q ≠ 0) (j : Fin (n + m)) :
    (t.pivot l q).price j
      = t.price j - t.price q * (t.entry l.row j / t.entry l.row q) := by
  rw [price, reduced_pivot ht hq, ExtRat.toRat_fin]

/-- A pivot divides its own row and subtracts multiples of it from the others. -/
theorem sum_entry_pivot (ht : Valid f t) (i : Fin m) (z : Fin (n + m) → ℚ) :
    ∑ j, (t.pivot l q).entry i j * z j
      = if i = l.row then (∑ j, t.entry l.row j * z j) / t.entry l.row q
        else (∑ j, t.entry i j * z j)
          - t.entry i q * ((∑ j, t.entry l.row j * z j) / t.entry l.row q) := by
  simp only [entry_pivot ht]
  split
  · rw [Finset.sum_div]
    refine Finset.sum_congr rfl fun j _ => ?_
    ring
  · rw [Finset.sum_div, Finset.mul_sum, ← Finset.sum_sub_distrib]
    refine Finset.sum_congr rfl fun j _ => ?_
    ring

/-- A pivot keeps the solutions. -/
theorem solves_pivot_iff (ht : Valid f t) (hq : t.entry l.row q ≠ 0) (z : Fin (n + m) → ℚ) :
    (t.pivot l q).Solves z ↔ t.Solves z := by
  constructor
  · intro h i
    have hrow : ∑ j, t.entry l.row j * z j = t.right l.row := by
      have := h l.row
      rw [sum_entry_pivot ht, right_pivot ht, if_pos rfl, if_pos rfl] at this
      exact (div_left_inj' hq).mp this
    by_cases hi : i = l.row
    · rw [hi]
      exact hrow
    · have := h i
      rw [sum_entry_pivot ht, right_pivot ht, if_neg hi, if_neg hi, hrow] at this
      exact sub_left_inj.mp this
  · intro h i
    rw [sum_entry_pivot ht, right_pivot ht, h l.row, h i]

/-- A pivot subtracts a multiple of its row from the reduced costs, which does not change how they
price a difference of solutions. -/
theorem sum_price_pivot (ht : Valid f t) (hq : t.entry l.row q ≠ 0) {z w : Fin (n + m) → ℚ}
    (hz : t.Solves z) (hw : t.Solves w) :
    ∑ j, (t.pivot l q).price j * (z j - w j) = ∑ j, t.price j * (z j - w j) := by
  have hrow : ∑ j, t.price q * (t.entry l.row j / t.entry l.row q) * (z j - w j) = 0 := by
    have hdiff : ∑ j, t.entry l.row j * (z j - w j) = 0 := by
      simp only [mul_sub, Finset.sum_sub_distrib]
      rw [hz l.row, hw l.row, sub_self]
    calc ∑ j, t.price q * (t.entry l.row j / t.entry l.row q) * (z j - w j)
        = t.price q / t.entry l.row q * ∑ j, t.entry l.row j * (z j - w j) := by
          rw [Finset.mul_sum]
          refine Finset.sum_congr rfl fun j _ => ?_
          ring
      _ = 0 := by rw [hdiff, mul_zero]
  simp only [price_pivot ht hq, sub_mul, Finset.sum_sub_distrib]
  rw [hrow, sub_zero]

/-- A pivot on a nonzero entry gives another tableau of the same standard form, provided the bound
at which the leaving column comes to rest is finite. -/
theorem valid_pivot (ht : Valid f t) (hq : t.entry l.row q ≠ 0)
    (hup : l.below = false → Scalar.isFinite (f.upper.get (t.basicColumn l.row)) = true) :
    Valid f (t.pivot l q) where
  rows i j := by rw [entry_pivot ht, rows_pivot ht]
  beta i := by rw [right_pivot ht, beta_pivot ht]
  reduced j := by rw [price_pivot ht hq, reduced_pivot ht hq]
  basic_entry i r := by
    rw [basicColumn_pivot, entry_pivot ht]
    by_cases hr : r = l.row
    · rw [if_pos hr, hr, div_self hq, mul_one, sub_self]
    · rw [if_neg hr, ht.basic_entry, if_neg (Ne.symm hr), zero_div, mul_zero, sub_zero]
      by_cases hi : i = l.row
      · rw [if_pos hi, hi, if_neg (Ne.symm hr)]
      · rw [if_neg hi, ht.basic_entry]
  basic_price r := by
    rw [basicColumn_pivot, price_pivot ht hq]
    by_cases hr : r = l.row
    · rw [if_pos hr, div_self hq, mul_one, sub_self]
    · rw [if_neg hr, ht.basic_price, ht.basic_entry, if_neg (Ne.symm hr), zero_div, mul_zero,
        sub_zero]
  place_eq_basic_iff := by
    refine (proper_pivot ht.proper fun r hr => ?_).place_eq_basic_iff
    by_contra hne
    rw [← hr, ht.basic_entry, if_neg (Ne.symm hne)] at hq
    exact hq rfl
  upper_finite j h := by
    rw [place_pivot] at h
    split at h
    · cases h
    split at h
    · rename_i hp
      split at h
      · cases h
      · rename_i hbelow
        rw [hp]
        exact hup (Bool.eq_false_iff.mpr hbelow)
    · exact ht.upper_finite j h
  solves_iff z := (solves_pivot_iff ht hq z).trans (ht.solves_iff z)
  value_sub z w hz hw := by
    rw [ht.value_sub z w hz hw]
    exact (sum_price_pivot ht hq ((ht.solves_iff z).mpr hz) ((ht.solves_iff w).mpr hw)).symm

/-! ## The point of a tableau -/

section Writes

variable {α : Type} {k : ℕ} {col : Fin m → Fin k} {write : Vector α k → Fin m → Vector α k}

/-- A column that no row of a list writes keeps its value. -/
theorem get_foldl_of_ne (hwrite : ∀ x r j, col r ≠ j → (write x r).get j = x.get j) {j : Fin k}
    (rs : List (Fin m)) (hj : ∀ r ∈ rs, col r ≠ j) (x : Vector α k) :
    (rs.foldl write x).get j = x.get j := by
  induction rs generalizing x with
  | nil => rfl
  | cons r rs ih =>
    rw [List.foldl_cons, ih (fun s hs => hj s (List.mem_cons_of_mem r hs))]
    exact hwrite x r j (hj r List.mem_cons_self)

/-- Where rows write to different columns, every column has what its own row wrote. -/
theorem get_foldl_of_mem (hwrite : ∀ x r j, col r ≠ j → (write x r).get j = x.get j)
    {v : Fin m → α} (hself : ∀ x r, (write x r).get (col r) = v r) (hcol : Function.Injective col)
    {r : Fin m} (rs : List (Fin m)) (hr : r ∈ rs) (x : Vector α k) :
    (rs.foldl write x).get (col r) = v r := by
  induction rs generalizing x with
  | nil => cases hr
  | cons s rs ih =>
    rw [List.foldl_cons]
    by_cases hmem : r ∈ rs
    · exact ih hmem _
    · -- this is the last write to the column
      have hrs : r = s := (List.mem_cons.mp hr).resolve_right hmem
      have hne : ∀ d ∈ rs, col d ≠ col r := by
        intro d hd h
        rw [hcol h] at hd
        exact hmem hd
      rw [get_foldl_of_ne hwrite rs hne, hrs]
      exact hself x s

end Writes

/-- A basic column has the value its row gives it. -/
theorem values_basicColumn (ht : Valid f t) (r : Fin m) :
    (t.values f).get (t.basicColumn r) = t.basicValue f r := by
  refine get_foldl_of_mem (fun x r j hne => ?_) (fun x r => ?_) ht.basicColumn_injective
    (List.finRange m) (List.mem_finRange r) _
  · exact Vector.getElem_set_ne _ _ fun h => hne (Fin.ext h)
  · exact Vector.getElem_set_self _

/-- Another column has the value of the bound it rests at. -/
theorem values_resting (ht : Valid f t) {j : Fin (n + m)} (hj : t.place.get j ≠ .basic) :
    (t.values f).get j = t.restingValue f j := by
  have hcol : ∀ r ∈ List.finRange m, t.basicColumn r ≠ j :=
    fun r _ h => hj ((ht.place_eq_basic_iff j).mpr ⟨r, h⟩)
  rw [values, get_foldl_of_ne (fun x r j hne => ?_) (List.finRange m) hcol]
  · exact Vector.getElem_ofFn j.isLt
  · exact Vector.getElem_set_ne _ _ fun h => hne (Fin.ext h)

theorem restingValue_eq (f : StandardForm ExtRat m n) (t : Tableau ExtRat m n) (j : Fin (n + m)) :
    t.restingValue f j = match t.place.get j with
      | .atLower => f.lower.get j
      | .atUpper => f.upper.get j
      | .basic => 0 := rfl

/-- Columns rest at finite bounds. -/
theorem restingValue_eq_fin (hf : f.Regular) (ht : Valid f t) (j : Fin (n + m)) :
    t.restingValue f j = .fin (t.restingValue f j).toRat := by
  rw [restingValue_eq]
  split
  · exact hf.lower j
  · rename_i hplace
    exact (ExtRat.fin_toRat (ht.upper_finite j hplace)).symm
  · rfl

/-- The value of a basic column is what the resting columns leave of the right-hand side. -/
theorem basicValue_eq_fin (hf : f.Regular) (ht : Valid f t) (r : Fin m) :
    t.basicValue f r = .fin (t.right r - ∑ j : Fin (n + m),
      if t.place.get j = .basic then 0 else t.entry r j * (t.restingValue f j).toRat) := by
  have hstep : ∀ j ∈ List.finRange (n + m), ∀ a : ℚ,
      (if (t.rows.get r).get j != 0 && t.place.get j != .basic then
        ExtRat.fin a - (t.rows.get r).get j * t.restingValue f j else .fin a)
        = .fin (a + -(if t.place.get j = .basic then 0
            else t.entry r j * (t.restingValue f j).toRat)) := by
    intro j _ a
    -- basic columns and zero entries are skipped, and the formula adds nothing for them
    by_cases hplace : t.place.get j = .basic
    · rw [if_pos hplace, hplace, neg_zero, add_zero, if_neg (by simp)]
    · rw [if_neg hplace, restingValue_eq_fin hf ht, ht.rows]
      by_cases hzero : t.entry r j = 0
      · rw [hzero, zero_mul, neg_zero, add_zero, if_neg (by simp)]
      · have hcond : (ExtRat.fin (t.entry r j) != 0 && t.place.get j != .basic) = true := by
          rw [Bool.and_eq_true, bne_iff_ne, bne_iff_ne]
          exact ⟨fun h => hzero (ExtRat.fin_eq_zero.mp h), hplace⟩
        rw [if_pos hcond, ExtRat.fin_mul, ExtRat.fin_sub, ExtRat.toRat_fin,
          sub_eq_add_neg]
  show (List.finRange (n + m)).foldl
    (fun v j => if (t.rows.get r).get j != 0 && t.place.get j != .basic then
      v - (t.rows.get r).get j * t.restingValue f j else v) (t.beta.get r) = _
  rw [ht.beta, ExtRat.foldl_eq_fin _ hstep, ← Fin.sum_univ_def, Finset.sum_neg_distrib,
    sub_eq_add_neg]

/-- The values of a tableau as rational numbers. -/
def point (f : StandardForm ExtRat m n) (t : Tableau ExtRat m n) (j : Fin (n + m)) : ℚ :=
  ((t.values f).get j).toRat

/-- Every value of a tableau is a rational number. -/
theorem values_eq_fin (hf : f.Regular) (ht : Valid f t) (j : Fin (n + m)) :
    (t.values f).get j = .fin (t.point f j) := by
  rw [point]
  by_cases hj : t.place.get j = .basic
  · obtain ⟨r, rfl⟩ := (ht.place_eq_basic_iff j).mp hj
    rw [values_basicColumn ht, basicValue_eq_fin hf ht, ExtRat.toRat_fin]
  · rw [values_resting ht hj]
    exact restingValue_eq_fin hf ht j

/-- The values of a tableau solve the standard form. -/
theorem solves_point (hf : f.Regular) (ht : Valid f t) : f.Solves (t.point f) := by
  rw [← ht.solves_iff]
  intro r
  have hbasic : t.point f (t.basicColumn r) = t.right r - ∑ j : Fin (n + m),
      if t.place.get j = .basic then 0 else t.entry r j * t.point f j := by
    have hsum : ∀ j : Fin (n + m),
        (if t.place.get j = .basic then 0 else t.entry r j * t.point f j)
          = if t.place.get j = .basic then 0 else t.entry r j * (t.restingValue f j).toRat := by
      intro j
      by_cases hj : t.place.get j = .basic
      · rw [if_pos hj, if_pos hj]
      · rw [if_neg hj, if_neg hj, point, values_resting ht hj]
    simp only [hsum]
    rw [point, values_basicColumn ht, basicValue_eq_fin hf ht, ExtRat.toRat_fin]
  rw [ht.sum_entry, hbasic, sub_add_cancel]

/-- A column that is not basic has the value of the bound at which it rests. -/
theorem point_resting (hf : f.Regular) (ht : Valid f t) {j : Fin (n + m)}
    (hj : t.place.get j ≠ .basic) :
    (t.place.get j = .atLower ∧ f.lower.get j = .fin (t.point f j)) ∨
      (t.place.get j = .atUpper ∧ f.upper.get j = .fin (t.point f j)) := by
  rw [← values_eq_fin hf ht, values_resting ht hj, restingValue_eq]
  cases hplace : t.place.get j with
  | basic => exact absurd hplace hj
  | atLower => exact .inl ⟨rfl, rfl⟩
  | atUpper => exact .inr ⟨rfl, rfl⟩

/-- A fixed column that is not basic has the only value between its bounds. -/
theorem point_eq_of_fixed (hf : f.Regular) (ht : Valid f t) {j : Fin (n + m)}
    (hj : t.place.get j ≠ .basic) (hfixed : f.upper.get j ≤ f.lower.get j) {v : ℚ}
    (hv : f.lower.get j ≤ .fin v ∧ .fin v ≤ f.upper.get j) : v = t.point f j := by
  rcases point_resting hf ht hj with ⟨-, hval⟩ | ⟨-, hval⟩
  · rw [hval] at hv hfixed
    exact le_antisymm (hv.2.trans hfixed) hv.1
  · rw [hval] at hv hfixed
    exact le_antisymm hv.2 (hfixed.trans hv.1)

end BranchBound.LinearProgram.Tableau
