import BranchBound.Proofs.LinearProgram.Feasible
import BranchBound.Problem.Basic

/-!
# Problems from the constructors

Constructors check what they are given, so the problems they make have data that can be computed
with.

* `Problem.Constructed`: problems made from rows, with types changed any number of times.
* `Problem.of_ofRows`: what the checks say, and which problem it is.
* `Problem.WellFormed`, `Problem.Constructed.wellFormed`: what the constructors guarantee.
* `Problem.objectiveValue_eq_fin`: objectives of rational points are rational.
-/

namespace BranchBound.Problem

/-- A problem made by the constructors. -/
inductive Constructed {α : Type} [Scalar α] : Problem α → Prop
  | ofRows {objective : List α} {rows : List (String × List α)} {rhs : List α} {p : Problem α}
      (h : ofRows objective rows rhs = .ok p) : Constructed p
  | withTypes {p q : Problem α} {types : List VarType} (hp : Constructed p)
      (h : p.withTypes types = .ok q) : Constructed q

theorem of_checkRow {n : ℕ} {name : String} {coefficients : List ExtRat}
    (h : checkRow n name coefficients = .ok ()) :
    coefficients.length = n ∧ ∀ c ∈ coefficients, Scalar.isFinite c = true := by
  unfold checkRow at h
  extract_lets finite at h
  split at h
  · cases h
  rename_i hlength
  simp only [finite] at h
  split at h
  · cases h
  rename_i hfinite
  exact ⟨not_not.mp hlength, LinearProgram.isFinite_of_findIdx? hfinite⟩

/-- What the checks of a problem from rows say, and which problem it is. -/
theorem of_ofRows {objective : List ExtRat} {rows : List (String × List ExtRat)}
    {rhs : List ExtRat} {p : Problem ExtRat} (h : ofRows objective rows rhs = .ok p) :
    (∀ c ∈ objective, Scalar.isFinite c = true) ∧
      (∀ row ∈ rows, row.2.length = objective.length ∧ ∀ c ∈ row.2, Scalar.isFinite c = true) ∧
      rhs.length = rows.length ∧ (∀ b ∈ rhs, Scalar.isFinite b = true) ∧
      p = ⟨objective, (rows.zip rhs).map fun ((name, coefficients), b) =>
          ⟨name, Terms.ofDense coefficients, b⟩, List.replicate objective.length .integer⟩ := by
  unfold ofRows at h
  extract_lets n built sides checked at h
  split at h
  · cases h
  rename_i hobjective
  simp only [checked] at h
  cases hrows : rows.forM fun (name, coefficients) => checkRow n name coefficients with
  | error e =>
    rw [hrows] at h
    cases h
  | ok u =>
    rw [hrows] at h
    replace h : (if rhs.length ≠ rows.length then _ else sides ()) = Except.ok p := h
    split at h
    · cases h
    rename_i hlength
    simp only [sides] at h
    split at h
    · cases h
    rename_i hsides
    cases h
    refine ⟨LinearProgram.isFinite_of_findIdx? hobjective, fun row hrow => ?_, not_not.mp hlength,
      fun b hb => ?_, rfl⟩
    · exact of_checkRow (LinearProgram.forM_eq_ok hrows row hrow)
    · -- no side is paired with a row and found infinite, and each is paired with one
      have hnone : (rows.zip rhs).find? (fun (_, b) => !Scalar.isFinite b) = none :=
        Option.eq_none_iff_forall_ne_some.mpr fun found => hsides found.1.1 found.1.2 found.2
      obtain ⟨row, hpair⟩ : ∃ row, (row, b) ∈ rows.zip rhs := by
        rw [← List.map_snd_zip (not_not.mp hlength).le] at hb
        obtain ⟨⟨row, _⟩, hpair, rfl⟩ := List.mem_map.mp hb
        exact ⟨row, hpair⟩
      simpa using List.find?_eq_none.mp hnone _ hpair

/-- All numbers are finite, and every variable has a type. -/
structure WellFormed (p : Problem ExtRat) : Prop where
  objective : ∀ c ∈ p.objective, Scalar.isFinite c = true
  coefficient : ∀ r ∈ p.rows, ∀ e ∈ r.terms, Scalar.isFinite e.2 = true
  rhs : ∀ r ∈ p.rows, Scalar.isFinite r.rhs = true
  types : p.types.length = p.numVars

theorem Constructed.wellFormed {p : Problem ExtRat} (h : p.Constructed) : p.WellFormed := by
  induction h with
  | ofRows h =>
    obtain ⟨hobjective, hrows, -, hrhs, rfl⟩ := of_ofRows h
    refine ⟨hobjective, ?_, ?_, List.length_replicate⟩
    · intro r hr e he
      obtain ⟨⟨row, b⟩, hpair, rfl⟩ := List.mem_map.mp hr
      obtain ⟨⟨v, j⟩, hv, rfl⟩ := List.mem_map.mp he
      exact (hrows row (List.of_mem_zip hpair).1).2 v
        (List.fst_mem_of_mem_zipIdx (List.mem_of_mem_filter hv))
    · intro r hr
      obtain ⟨⟨row, b⟩, hpair, rfl⟩ := List.mem_map.mp hr
      exact hrhs b (List.of_mem_zip hpair).2
  | withTypes hp h ih =>
    unfold Problem.withTypes at h
    split at h
    · cases h
    · rename_i hlength
      cases h
      exact ⟨ih.objective, ih.coefficient, ih.rhs, not_not.mp hlength⟩

/-- Coefficients of the objective are finite. -/
theorem Constructed.isFinite_objective {p : Problem ExtRat} (h : p.Constructed) :
    ∀ c ∈ p.objective, Scalar.isFinite c = true :=
  h.wellFormed.objective

/-- Variables that must take whole values are variables. -/
theorem WellFormed.lt_numVars {p : Problem ExtRat} (h : p.WellFormed) {j : ℕ}
    (hj : j ∈ p.integerVars) : j < p.numVars := by
  obtain ⟨⟨t, _⟩, hmem, rfl⟩ := List.mem_map.mp hj
  have hget := List.mem_zipIdx_iff_getElem?.mp (List.mem_of_mem_filter hmem)
  exact lt_of_lt_of_eq (List.getElem?_eq_some_iff.mp hget).1 h.types

/-- The objective of a rational point is a rational number. -/
theorem objectiveValue_eq_fin {p : Problem ExtRat} (h : ∀ c ∈ p.objective, Scalar.isFinite c = true)
    (y : List ℚ) : p.objectiveValue (y.map .fin)
      = .fin (ExtRat.ratDot (p.objective.map ExtRat.toRat) y) := by
  rw [objectiveValue, ← ExtRat.dot_map_fin, ExtRat.map_fin_map_toRat h]

end BranchBound.Problem
