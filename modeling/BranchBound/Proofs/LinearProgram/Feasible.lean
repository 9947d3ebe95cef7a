import Mathlib.Data.List.GetD
import BranchBound.Proofs.Scalar.Exact
import BranchBound.LinearProgram.Tableau

/-!
# Points of a linear program

What it means for a point to satisfy a linear program, and what validation says about the data.

* `Within`, `LinearProgram.RowsHold`: bounds and inequalities at a point.
* `Terms.coef`, `Terms.activity_eq_fin`: a linear form at a rational point is a sum over its
  columns.
* `LinearProgram.WellFormed`, `wellFormed_of_validate`: what validation guarantees.
-/

namespace BranchBound

/-- Every entry of `x` lies between the corresponding bounds. -/
def Within {α : Type} [LE α] (lower upper x : List α) : Prop :=
  List.Forall₂ (· ≤ ·) lower x ∧ List.Forall₂ (· ≤ ·) x upper

/-- Two lists of one length are related where their entries are. -/
theorem forall₂_iff_getD {β γ : Type} {R : β → γ → Prop} {l : List β} {k : List γ} {n : ℕ}
    (hl : l.length = n) (hk : k.length = n) (b : β) (c : γ) :
    List.Forall₂ R l k ↔ ∀ j : Fin n, R (l.getD j b) (k.getD j c) := by
  rw [List.forall₂_iff_get]
  constructor
  · rintro ⟨-, h⟩ j
    rw [List.getD_eq_getElem _ _ (lt_of_lt_of_eq j.isLt hl.symm),
      List.getD_eq_getElem _ _ (lt_of_lt_of_eq j.isLt hk.symm)]
    exact h j _ _
  · intro h
    refine ⟨hl.trans hk.symm, fun j hj hj' => ?_⟩
    have hR := h ⟨j, lt_of_lt_of_eq hj hl⟩
    rw [List.getD_eq_getElem _ _ hj, List.getD_eq_getElem _ _ hj'] at hR
    exact hR

theorem Within.length_eq {lower upper : List ExtRat} {y : List ℚ}
    (h : Within lower upper (y.map .fin)) : y.length = lower.length := by
  rw [h.1.length_eq, List.length_map]

/-- Each coordinate of a point within bounds lies between its own two bounds. -/
theorem Within.getD {lower upper : List ExtRat} {y : List ℚ} {n : ℕ}
    (h : Within lower upper (y.map .fin)) (hy : y.length = n) (j : Fin n) :
    lower.getD j 0 ≤ .fin (y.getD j 0) ∧ .fin (y.getD j 0) ≤ upper.getD j 0 := by
  have hlen : (y.map ExtRat.fin).length = n := by rw [List.length_map, hy]
  have hlo := (forall₂_iff_getD (h.1.length_eq.trans hlen) hlen 0 (.fin 0)).mp h.1 j
  have hhi := (forall₂_iff_getD hlen (h.2.length_eq.symm.trans hlen) (.fin 0) 0).mp h.2 j
  rw [List.getD_map] at hlo hhi
  exact ⟨hlo, hhi⟩

/-! ## Linear forms -/

namespace Terms

/-- The coefficient of a column as a rational number. -/
def coef (terms : Terms ExtRat) (j : ℕ) : ℚ :=
  ((terms.filter (·.1 = j)).map (·.2.toRat)).sum

/-- With finite terms the coefficient of a column is a rational number, the sum of its terms. -/
theorem coefficient_eq_fin {terms : Terms ExtRat}
    (h : ∀ e ∈ terms, Scalar.isFinite e.2 = true) (j : ℕ) :
    terms.coefficient j = .fin (terms.coef j) := by
  have hstep : ∀ e ∈ terms.filter (·.1 = j), ∀ a : ℚ,
      ExtRat.fin a + e.2 = .fin (a + e.2.toRat) := by
    intro e he a
    rw [← ExtRat.fin_add, ExtRat.fin_toRat (h e (List.mem_of_mem_filter he))]
  rw [coefficient, ExtRat.zero_eq_fin, ExtRat.foldl_eq_fin _ hstep, zero_add, coef]

theorem coef_nil (j : ℕ) : coef [] j = 0 := rfl

/-- A term counts for its own column. -/
theorem coef_cons (e : ℕ × ExtRat) (terms : Terms ExtRat) (j : ℕ) :
    coef (e :: terms) j = (if e.1 = j then e.2.toRat else 0) + coef terms j := by
  rw [coef, List.filter_cons]
  by_cases h : e.1 = j
  · rw [if_pos (decide_eq_true h), if_pos h, List.map_cons, List.sum_cons, coef]
  · rw [if_neg (by simpa using h), if_neg h, zero_add, coef]

/-- Adding up the terms of a form is adding up over the columns, where columns beyond the point
count for nothing. -/
theorem sum_coef_mul (terms : Terms ExtRat) {n : ℕ} {y : List ℚ} (hy : y.length = n) :
    ∑ j : Fin n, terms.coef j * y.getD j 0
      = (terms.map fun e => e.2.toRat * y.getD e.1 0).sum := by
  induction terms with
  | nil => simp only [List.map_nil, List.sum_nil, coef_nil, zero_mul, Finset.sum_const_zero]
  | cons e terms ih =>
    simp only [List.map_cons, List.sum_cons, ← ih, coef_cons, add_mul, Finset.sum_add_distrib]
    congr 1
    by_cases he : e.1 < n
    · rw [Finset.sum_eq_single (⟨e.1, he⟩ : Fin n)]
      · rw [if_pos rfl]
      · intro j _ hj
        rw [if_neg (fun h => hj (Fin.ext h.symm)), zero_mul]
      · intro hnot
        exact absurd (Finset.mem_univ _) hnot
    · rw [List.getD_eq_default _ _ (by omega), mul_zero, Finset.sum_eq_zero]
      intro j _
      rw [if_neg (by have := j.isLt; omega), zero_mul]

/-- The value of a form at a rational point. -/
theorem activity_eq_fin {terms : Terms ExtRat} (h : ∀ e ∈ terms, Scalar.isFinite e.2 = true)
    {n : ℕ} {y : List ℚ} (hy : y.length = n) :
    terms.activity (y.map .fin) = .fin (∑ j : Fin n, terms.coef j * y.getD j 0) := by
  have hstep : ∀ e ∈ terms, ∀ a : ℚ,
      ExtRat.fin a + e.2 * (y.map ExtRat.fin).getD e.1 0 = .fin (a + e.2.toRat * y.getD e.1 0) := by
    intro e he a
    have hget : (y.map ExtRat.fin).getD e.1 0 = .fin (y.getD e.1 0) :=
      List.getD_map y 0 ExtRat.fin
    rw [hget, ← ExtRat.fin_toRat (h e he), ExtRat.fin_mul, ExtRat.fin_add, ExtRat.toRat_fin]
  rw [activity, ExtRat.zero_eq_fin, ExtRat.foldl_eq_fin _ hstep, zero_add, sum_coef_mul _ hy]

end Terms

namespace LinearProgram

/-! ## Points and what validation guarantees -/

/-- Every inequality holds at a point. -/
def RowsHold {α : Type} [Scalar α] (lp : LinearProgram α) (x : List α) : Prop :=
  List.Forall₂ (fun terms b => Terms.activity terms x ≤ b) lp.matrix.rows lp.rhs

/-- Lower ends of the finite box. -/
def boxedLower {α : Type} [Scalar α] (lp : LinearProgram α) (big : α) : List α :=
  (List.range lp.numVars).map fun j => (boxedVar lp big j).1

/-- Upper ends of the finite box. -/
def boxedUpper {α : Type} [Scalar α] (lp : LinearProgram α) (big : α) : List α :=
  (List.range lp.numVars).map fun j => (boxedVar lp big j).2

/-- Dimensions agree, the data is finite, and every bound has values on its side. -/
structure WellFormed (lp : LinearProgram ExtRat) : Prop where
  rows : lp.matrix.rows.length = lp.numRows
  lower : lp.lower.length = lp.numVars
  upper : lp.upper.length = lp.numVars
  cost_finite : ∀ c ∈ lp.cost, Scalar.isFinite c = true
  rhs_finite : ∀ b ∈ lp.rhs, Scalar.isFinite b = true
  coefficient_finite : ∀ terms ∈ lp.matrix.rows, ∀ e ∈ terms, Scalar.isFinite e.2 = true
  lower_ne : ∀ lo ∈ lp.lower, lo ≠ .posInf
  upper_ne : ∀ hi ∈ lp.upper, hi ≠ .negInf

theorem isFinite_of_findIdx? {l : List ExtRat}
    (h : ∀ j, l.findIdx? (!Scalar.isFinite ·) = some j → False) :
    ∀ a ∈ l, Scalar.isFinite a = true := by
  intro a ha
  have hnone := Option.eq_none_iff_forall_ne_some.mpr h
  simpa using List.findIdx?_eq_none_iff.mp hnone a ha

/-- A list of checks passes only if each of them does. -/
theorem forM_eq_ok {β ε : Type} {l : List β} {check : β → Except ε Unit}
    (h : l.forM check = .ok ()) : ∀ e ∈ l, check e = .ok () := by
  induction l with
  | nil => intro e he; cases he
  | cons d l ih =>
    rw [List.forM_eq_forM, List.forM_cons] at h
    cases hd : check d with
    | error err =>
      rw [hd] at h
      cases h
    | ok _ =>
      rw [hd] at h
      intro e he
      rcases List.mem_cons.mp he with rfl | he
      · exact hd
      · exact ih h e he

/-- A bound that passes its check can be met by some value. -/
theorem bounds_of_checkBound {j : ℕ} {lo hi : ExtRat} (h : checkBound j lo hi = .ok ()) :
    lo ≠ .posInf ∧ hi ≠ .negInf := by
  unfold checkBound at h
  rw [if_neg (by exact Bool.false_ne_true)] at h
  split at h
  · cases h
  · rename_i hne
    constructor
    · rintro rfl
      exact hne rfl
    · rintro rfl
      exact hne (Bool.or_true _)

/-- Validated data is well formed. -/
theorem wellFormed_of_validate {lp : LinearProgram ExtRat} (h : lp.validate = .ok ()) :
    lp.WellFormed := by
  unfold validate at h
  extract_lets n m bounds coefficients rhs cost upper lower columns at h
  split at h
  · cases h
  rename_i hrows
  simp only [columns] at h
  split at h
  · cases h
  simp only [lower] at h
  split at h
  · cases h
  rename_i hlower
  simp only [upper] at h
  split at h
  · cases h
  rename_i hupper
  simp only [cost] at h
  split at h
  · cases h
  rename_i hcost
  simp only [rhs] at h
  split at h
  · cases h
  rename_i hrhs
  simp only [coefficients] at h
  split at h
  · cases h
  rename_i hcoef
  have hcheck : ∀ (j : ℕ) (lo hi : ExtRat), lp.lower[j]? = some lo → lp.upper[j]? = some hi →
      lo ≠ .posInf ∧ hi ≠ .negInf := by
    intro j lo hi hlo hhi
    have hmem : ((lo, hi), j) ∈ (lp.lower.zip lp.upper).zipIdx := by
      rw [List.mem_zipIdx_iff_getElem?, List.getElem?_zip_eq_some]
      exact ⟨hlo, hhi⟩
    exact bounds_of_checkBound (forM_eq_ok h _ hmem)
  have hlen : lp.lower.length = lp.upper.length := by
    rw [not_not.mp hlower, not_not.mp hupper]
  refine ⟨not_not.mp hrows, not_not.mp hlower, not_not.mp hupper, isFinite_of_findIdx? hcost,
    isFinite_of_findIdx? hrhs, ?_, ?_, ?_⟩
  · intro terms hterms e he
    obtain ⟨i, hi⟩ := List.mem_iff_getElem?.mp hterms
    have hentry : (i, e) ∈ lp.matrix.entries :=
      List.mem_flatMap.mpr ⟨(terms, i), List.mem_zipIdx_iff_getElem?.mpr hi, List.mem_map.mpr
        ⟨e, he, rfl⟩⟩
    by_contra hinf
    exact hcoef (List.any_eq_true.mpr ⟨_, hentry, by simpa using hinf⟩)
  · intro lo hlo
    obtain ⟨j, hj, hget⟩ := List.mem_iff_getElem.mp hlo
    exact (hcheck j lo _ (List.getElem?_eq_some_iff.mpr ⟨hj, hget⟩)
      (List.getElem?_eq_getElem (hlen ▸ hj))).1
  · intro hi hhi
    obtain ⟨j, hj, hget⟩ := List.mem_iff_getElem.mp hhi
    exact (hcheck j _ hi (List.getElem?_eq_getElem (hlen ▸ hj))
      (List.getElem?_eq_some_iff.mpr ⟨hj, hget⟩)).2

/-- If every check passes, so does the list of them. -/
theorem forM_ok_of_forall {β ε : Type} {l : List β} {check : β → Except ε Unit}
    (h : ∀ e ∈ l, check e = .ok ()) : l.forM check = .ok () := by
  induction l with
  | nil => rfl
  | cons d l ih =>
    obtain ⟨hd, hl⟩ := List.forall_mem_cons.mp h
    rw [List.forM_eq_forM, List.forM_cons, hd]
    exact ih hl

theorem findIdx?_of_isFinite {l : List ExtRat} (h : ∀ a ∈ l, Scalar.isFinite a = true) :
    l.findIdx? (!Scalar.isFinite ·) = none := by
  rw [List.findIdx?_eq_none_iff]
  intro a ha
  rw [h a ha]
  rfl

/-- Bounds that can be met pass the check, also when they cross. -/
theorem checkBound_of_ne {lo hi : ExtRat} (j : ℕ) (hlo : lo ≠ .posInf) (hhi : hi ≠ .negInf) :
    checkBound j lo hi = .ok () := by
  have hlo' : (lo == Scalar.infinity) = false := decide_eq_false hlo
  have hhi' : (hi == -Scalar.infinity) = false := decide_eq_false hhi
  unfold checkBound
  rw [if_neg (by exact Bool.false_ne_true), hlo', hhi']
  rfl

/-- Well-formed data passes the check. -/
theorem validate_of_wellFormed {lp : LinearProgram ExtRat} (h : lp.WellFormed)
    (hcolumns : lp.matrix.columns = lp.numVars) : lp.validate = .ok () := by
  have hcoefficients : lp.matrix.entries.any (fun e => !Scalar.isFinite e.2.2) = false := by
    rw [List.any_eq_false]
    intro e he
    obtain ⟨⟨terms, i⟩, hterms, he⟩ := List.mem_flatMap.mp he
    obtain ⟨d, hd, rfl⟩ := List.mem_map.mp he
    rw [h.coefficient_finite terms (List.fst_mem_of_mem_zipIdx hterms) d hd]
    exact Bool.false_ne_true
  have hbounds : (lp.lower.zip lp.upper).zipIdx.forM (fun ((lo, hi), j) => checkBound j lo hi)
      = .ok () := by
    apply forM_ok_of_forall
    rintro ⟨⟨lo, hi⟩, j⟩ hmem
    obtain ⟨hlo, hhi⟩ := List.of_mem_zip (List.fst_mem_of_mem_zipIdx hmem)
    exact checkBound_of_ne j (h.lower_ne lo hlo) (h.upper_ne hi hhi)
  unfold validate
  rw [if_neg (not_not.mpr h.rows), if_neg (not_not.mpr hcolumns), if_neg (not_not.mpr h.lower),
    if_neg (not_not.mpr h.upper), findIdx?_of_isFinite h.cost_finite,
    findIdx?_of_isFinite h.rhs_finite, hcoefficients]
  exact hbounds

end LinearProgram

end BranchBound
