import BranchBound.Proofs.LinearProgram.Infeasible
import BranchBound.Proofs.LinearProgram.Unbounded

/-!
# Solves that nothing disturbs

A solve that pivots without help of its tolerances and ends within its limit on pivots is exact on a
finite box: where the program has a point, it reports an optimum, and no point costs less.

* `Undisturbed`: such solves.
* `Iterate.iterations_run_lt`: a run that finds no entering column has pivots left.
* `status_eq_optimal`: of the five ways to end, only one is open to a program with a point.
* `optimal_of_undisturbed`: the optimum.
-/

namespace BranchBound.LinearProgram

/-- A solve that no tolerance decides and that ends within its limit on pivots. -/
structure Undisturbed {α : Type} [Scalar α] (lp : LinearProgram α) (s : Settings α) : Prop where
  free : ToleranceFree lp s
  ended : (lp.outcome s).1 ≠ .maxIterations

instance {α : Type} [Scalar α] [DecidableEq α] (lp : LinearProgram α) (s : Settings α) :
    Decidable (Undisturbed lp s) :=
  decidable_of_iff (ToleranceFree lp s ∧ (lp.outcome s).1 ≠ .maxIterations)
    ⟨fun h => ⟨h.1, h.2⟩, fun h => ⟨h.free, h.ended⟩⟩

section Generic

variable {α : Type} [Scalar α]

/-- The limit on pivots is looked at before the entering column, so where none is found there are
pivots left. -/
theorem Iterate.iterations_run_lt {m n : ℕ} {f : StandardForm α m n} {s : Settings α} (budget : ℕ)
    (it : Iterate α m n) (h : (run f s budget it).1 = .primalInfeasible) :
    (run f s budget it).2.iterations < it.iterations + budget := by
  induction budget generalizing it with
  | zero =>
    cases proceeds f s it with
    | ends hstatus hstopped hnext hrun =>
      rw [hrun] at h
      rcases hstatus with rfl | rfl <;> cases h
    | infeasible hlimit hstopped hnext hzero hrun =>
      rw [hzero] at h
      cases h
    | pivots hlimit hnext hzero hrun =>
      rw [hzero] at h
      cases h
  | succ budget ih =>
    cases proceeds f s it with
    | ends hstatus hstopped hnext hrun =>
      rw [hrun] at h
      rcases hstatus with rfl | rfl <;> cases h
    | infeasible hlimit hstopped hnext hzero hrun =>
      rw [hrun]
      exact Nat.lt_add_of_pos_right budget.succ_pos
    | @pivots it' hlimit hnext hzero hrun =>
      -- one pivot more was made, and one less is left
      rw [hrun] at h ⊢
      have hcount := iterations_next? hnext
      have hlater := ih it' h
      omega

variable {lp : LinearProgram α} {s : Settings α} {r : Report α}

theorem eq_solveValid (h : solve lp s = .ok r) : r = solveValid lp s := by
  unfold solve at h
  cases hdata : lp.validate with
  | error fault =>
    rw [hdata] at h
    cases h
  | ok _ =>
    cases hset : s.validate with
    | error fault =>
      rw [hdata, hset] at h
      cases h
    | ok _ =>
      rw [hdata, hset] at h
      cases h
      rfl

/-- Only an optimum on the box is reported with another status than the run ended with. -/
theorem status_solveValid (h : lp.crossedBound? = none) :
    (solveValid lp s).status = .dualInfeasible ∨ (solveValid lp s).status = (lp.outcome s).1 := by
  rw [solveValid, h]
  show (if _ then _ else _) = _ ∨ (if _ then _ else _) = _
  split
  · exact .inl rfl
  · exact .inr rfl

end Generic

variable {lp : LinearProgram ExtRat} {s : Settings ExtRat} {r : Report ExtRat} {y : List ℚ}

/-- Where no entry is too small to pivot on, a run that ends without an entering column shows that
the box has no point. -/
theorem not_feasible_of_primalInfeasible (hready : Ready lp s.bigBound)
    (htol : 0 < s.feasibilityTol) (hfree : ToleranceFree lp s) (hr : Reported lp s r)
    (hstatus : r.status = .primalInfeasible) (houtcome : (lp.outcome s).1 = .primalInfeasible)
    (hrows : lp.RowsHold (y.map .fin)) :
    ¬ Within (lp.boxedLower s.bigBound) (lp.boxedUpper s.bigBound) (y.map .fin) := by
  intro hbox
  obtain ⟨l, hl, hnone⟩ := hr.entering?_eq_none hstatus
  have hlt := Iterate.iterations_run_lt _ _ houtcome
  rw [Iterate.start, Nat.zero_add] at hlt
  obtain ⟨hrow, -⟩ := hfree _ lastIterate_mem_iterates hlt l hl
  exact Tableau.not_within_of_entering?_eq_none (regular_standardForm hready)
    (valid_lastIterate hready htol) htol hl hrow hnone (solves_withSlacks hready.wellFormed y)
    (withSlacks_within hready.wellFormed hrows hbox)

/-- On a finite box nothing stands in for an infinite bound. -/
theorem not_hitsBox (hready : Ready lp s.bigBound) (htol : 0 < s.feasibilityTol)
    (hfinite : ∀ b ∈ lp.lower ++ lp.upper, Scalar.isFinite b = true) :
    ¬ hitsBox lp (lp.form s) (lp.lastPoint s) s.feasibilityTol = true := by
  intro hbox
  obtain ⟨j, hside⟩ := onBox_of_hitsBox hready htol hbox
  have hlo : (j : ℕ) < lp.lower.length := lt_of_lt_of_eq j.isLt hready.wellFormed.lower.symm
  have hhi : (j : ℕ) < lp.upper.length := lt_of_lt_of_eq j.isLt hready.wellFormed.upper.symm
  rcases hside with ⟨hinf, -⟩ | ⟨hinf, -⟩
  · rw [List.getD_eq_getElem _ _ hhi] at hinf
    have hmem := hfinite _ (List.mem_append_right _ (List.getElem_mem hhi))
    rw [hinf] at hmem
    cases hmem
  · rw [List.getD_eq_getElem _ _ hlo] at hinf
    have hmem := hfinite _ (List.mem_append_left _ (List.getElem_mem hlo))
    rw [hinf] at hmem
    cases hmem

theorem status_eq_optimal (h : solve lp s = .ok r) (hlp : Undisturbed lp s)
    (hfinite : ∀ b ∈ lp.lower ++ lp.upper, Scalar.isFinite b = true) (hy : lp.Feasible y) :
    r.status = .optimal := by
  obtain ⟨hrows, hwithin⟩ := hy
  obtain ⟨hwf, hset, hcases⟩ := solve_cases h
  have htol := (Settings.pos_of_validate hset).1
  obtain ⟨hlower, hupper⟩ := boxed_eq_of_finite hwf s.bigBound hfinite
  rw [← hlower, ← hupper] at hwithin
  rcases hcases with ⟨hcross, -⟩ | ⟨hcross, hready, hr⟩
  · exact absurd hwithin (not_within_of_crossed hwf hcross)
  have hsame := status_solveValid (s := s) hcross
  rw [← eq_solveValid h] at hsame
  cases hstatus : r.status with
  | optimal => rfl
  | dualInfeasible =>
    exact absurd (reported_dualInfeasible h hstatus).2.1 (not_hitsBox hready htol hfinite)
  | maxIterations =>
    rw [hstatus] at hsame
    exact absurd (hsame.resolve_left Status.noConfusion).symm hlp.ended
  | primalInfeasible =>
    rw [hstatus] at hsame
    exact absurd hwithin (not_feasible_of_primalInfeasible hready htol hlp.free hr hstatus
      (hsame.resolve_left Status.noConfusion).symm hrows)
  | numericalError =>
    have hstop := hr.stopped (by rw [hstatus]; exact Status.noConfusion)
    rw [hstatus] at hstop
    cases hstop with
    | numericalError hinf =>
      -- exact arithmetic stays finite
      obtain ⟨j, hj, hnot⟩ := Vector.any_iff_exists.mp hinf
      have hfin := Tableau.values_eq_fin (regular_standardForm hready)
        (valid_lastIterate hready htol) ⟨j, hj⟩
      rw [show (Tableau.values _ _)[j] = _ from hfin] at hnot
      cases hnot

/-- An undisturbed solve of a program with a point in a finite box reports an optimum, which costs
no more than the point. -/
theorem optimal_of_undisturbed (h : solve lp s = .ok r) (hlp : Undisturbed lp s)
    (hfinite : ∀ b ∈ lp.lower ++ lp.upper, Scalar.isFinite b = true) (hy : lp.Feasible y) :
    r.status = .optimal ∧ r.objective ≤ Scalar.dot lp.cost (y.map .fin) := by
  have hstatus := status_eq_optimal h hlp hfinite hy
  obtain ⟨hwf, hset, ⟨-, hbad⟩ | ⟨-, hready, hr⟩⟩ := solve_cases h
  · rw [hstatus] at hbad
    cases hbad
  have htol := (Settings.pos_of_validate hset).1
  refine ⟨hstatus, ?_⟩
  rw [hr.objective (.inl hstatus)]
  exact objective_le_of_off_box hready htol hlp.free (hr.off_box hstatus) hy.1 hy.2

end BranchBound.LinearProgram
