import BranchBound.Proofs.LinearProgram.Undisturbed

/-!
# A limit on pivots only truncates

A solve with a smaller limit on pivots makes the same pivots as one with a larger limit, and stops
sooner. Whether it still reaches the end depends on what is looked at before the limit: values that
are no longer finite and points without a leaving row are noticed at the limit, the lack of an
entering column is not. Nothing is asked of the arithmetic.

* `Settled`: ends that a limit leaves as they are.
* `Iterate.run_truncated`: two runs from one iterate, by induction on the smaller limit.
* `Iterate.iterates_prefix`: the iterates of two such runs.
* `limit_truncates`: two solves.
-/

namespace BranchBound.LinearProgram

variable {α : Type} [Scalar α]

/-- Whether a solve that ends with this status after this many pivots ends the same way under a
limit of `k` pivots: some pivots are left, or the end is noticed before the limit is. -/
def Settled (k : ℕ) (status : Status) (iterations : ℕ) : Prop :=
  iterations < k ∨ iterations = k ∧
    (status = .optimal ∨ status = .dualInfeasible ∨ status = .numericalError)

/-! ## Runs -/

namespace Iterate

variable {m n : ℕ} {f : StandardForm α m n} {s : Settings α} {k K : ℕ}

/-- The limit among the settings plays no part in a run, which is told its own. -/
theorem run_withMaxIterations (limit budget : ℕ) (it : Iterate α m n) :
    run f (s.withMaxIterations limit) budget it = run f s budget it := by
  induction budget generalizing it with
  | zero =>
    rw [run, run]
    rfl
  | succ budget ih =>
    rw [run, run]
    simp only [ih]
    rfl

theorem iterations_le_run (budget : ℕ) (it : Iterate α m n) :
    it.iterations ≤ (run f s budget it).2.iterations := by
  induction budget generalizing it with
  | zero =>
    cases proceeds f s it with
    | ends hstatus hstopped hnext hrun => rw [hrun]
    | infeasible hlimit hstopped hnext hzero hrun => rw [hzero]
    | pivots hlimit hnext hzero hrun => rw [hzero]
  | succ budget ih =>
    cases proceeds f s it with
    | ends hstatus hstopped hnext hrun => rw [hrun]
    | infeasible hlimit hstopped hnext hzero hrun => rw [hrun]
    | @pivots it' hlimit hnext hzero hrun =>
      have hcount := iterations_next? hnext
      have hlater := ih it'
      rw [hrun]
      omega

/-- Of two runs from one iterate, the one with the smaller limit ends as the other does where that
end is settled, and otherwise stops at its limit. -/
theorem run_truncated (hle : k ≤ K) (it : Iterate α m n) :
    (Settled (it.iterations + k) (run f s K it).1 (run f s K it).2.iterations ∧
      run f s k it = run f s K it) ∨
    (¬ Settled (it.iterations + k) (run f s K it).1 (run f s K it).2.iterations ∧
      ∃ last, run f s k it = (.maxIterations, last) ∧ last.iterations = it.iterations + k) := by
  unfold Settled
  induction k generalizing it K with
  | zero =>
    cases proceeds f s it with
    | ends hstatus hstopped hnext hrun =>
      rw [hrun, hrun]
      exact .inl ⟨.inr ⟨rfl, hstatus.imp_right .inr⟩, rfl⟩
    | infeasible hlimit hstopped hnext hzero hrun =>
      -- the want of an entering column is noticed after the limit
      refine .inr ⟨?_, it, hzero, rfl⟩
      cases K with
      | zero =>
        rw [hzero]
        simp
      | succ K =>
        rw [hrun]
        simp
    | @pivots it' hlimit hnext hzero hrun =>
      -- the run with the larger limit goes on
      refine .inr ⟨?_, it, hzero, rfl⟩
      cases K with
      | zero =>
        rw [hzero]
        simp
      | succ K =>
        have hcount := iterations_next? hnext
        have hlater := iterations_le_run (f := f) (s := s) K it'
        rw [hrun]
        omega
  | succ k ih =>
    obtain ⟨K, rfl⟩ : ∃ L, K = L + 1 := ⟨K - 1, by omega⟩
    cases proceeds f s it with
    | ends hstatus hstopped hnext hrun =>
      rw [hrun, hrun]
      exact .inl ⟨.inl (Nat.lt_add_of_pos_right k.succ_pos), rfl⟩
    | infeasible hlimit hstopped hnext hzero hrun =>
      rw [hrun, hrun]
      exact .inl ⟨.inl (Nat.lt_add_of_pos_right k.succ_pos), rfl⟩
    | @pivots it' hlimit hnext hzero hrun =>
      -- one pivot is made by both
      have hrest := ih (Nat.le_of_succ_le_succ hle) it'
      rw [iterations_next? hnext, Nat.add_right_comm, Nat.add_assoc] at hrest
      rw [hrun, hrun]
      exact hrest

theorem iterations_run_le (budget : ℕ) (it : Iterate α m n) :
    (run f s budget it).2.iterations ≤ it.iterations + budget := by
  -- a run is the truncation of itself
  rcases run_truncated (f := f) (s := s) (le_refl budget) it with
    ⟨hlt | ⟨heq, -⟩, -⟩ | ⟨-, last, hrun, hcount⟩
  · exact hlt.le
  · exact heq.le
  · rw [hrun]
    exact hcount.le

theorem iterates_withMaxIterations (limit budget : ℕ) (it : Iterate α m n) :
    iterates f (s.withMaxIterations limit) budget it = iterates f s budget it := by
  have hnext : ∀ it : Iterate α m n, it.next? f (s.withMaxIterations limit) = it.next? f s :=
    fun _ => rfl
  induction budget generalizing it with
  | zero => rfl
  | succ budget ih =>
    rw [iterates, iterates, hnext]
    simp only [ih]

/-- A run with a smaller limit passes through the first iterates of one with a larger limit. -/
theorem iterates_prefix (hle : k ≤ K) (it : Iterate α m n) :
    iterates f s k it <+: iterates f s K it := by
  induction k generalizing it K with
  | zero =>
    cases K with
    | zero => exact List.prefix_rfl
    | succ K => exact List.prefix_append [it] _
  | succ k ih =>
    obtain ⟨K, rfl⟩ : ∃ L, K = L + 1 := ⟨K - 1, by omega⟩
    cases hnext : it.next? f s with
    | none =>
      rw [iterates_of_next?_eq_none hnext, iterates_of_next?_eq_none hnext]
    | some it' =>
      rw [iterates_of_next?_eq_some hnext, iterates_of_next?_eq_some hnext, List.prefix_cons_inj]
      exact ih (Nat.le_of_succ_le_succ hle) it'

end Iterate

/-! ## Solves -/

/-- Where no lower bound exceeds its upper bound, none is found. -/
theorem crossedBound?_eq_none {lp : LinearProgram α}
    (h : ∀ (j : ℕ) (lo hi : α), lp.lower[j]? = some lo → lp.upper[j]? = some hi → ¬ hi < lo) :
    lp.crossedBound? = none := by
  rw [crossedBound?, Option.map_eq_none_iff, List.find?_eq_none]
  rintro ⟨⟨lo, hi⟩, j⟩ hmem
  rw [List.mem_zipIdx_iff_getElem?, List.getElem?_zip_eq_some] at hmem
  simpa using h j lo hi hmem.1 hmem.2

/-- The limit among the settings is not checked. -/
theorem solve_withMaxIterations (lp : LinearProgram α) (s : Settings α) (k : ℕ) :
    solve lp (s.withMaxIterations k)
      = (solve lp s).map fun _ => solveValid lp (s.withMaxIterations k) := by
  have hsettings : (s.withMaxIterations k).validate = s.validate := rfl
  unfold solve
  rw [hsettings]
  cases lp.validate with
  | error fault => rfl
  | ok _ =>
    cases s.validate with
    | error fault => rfl
    | ok _ => rfl

/-- What is reported for a program without crossed bounds, by the limit on pivots. -/
theorem solveValid_withMaxIterations {lp : LinearProgram α} (h : lp.crossedBound? = none)
    (s : Settings α) (k : ℕ) :
    solveValid lp (s.withMaxIterations k)
      = conclude lp s (lp.form s) (Iterate.run (lp.form s) s k (.start (lp.form s))).1
          (Iterate.run (lp.form s) s k (.start (lp.form s))).2 := by
  rw [← Iterate.run_withMaxIterations k k, solveValid, h]
  rfl

/-- An optimum on the box is reported with another status, and is as settled with it. -/
theorem settled_conclude (lp : LinearProgram α) (s : Settings α)
    (f : StandardForm α lp.numRows lp.numVars) (k : ℕ) (status : Status)
    (it : Iterate α lp.numRows lp.numVars) :
    Settled k (conclude lp s f status it).status (conclude lp s f status it).iterations
      ↔ Settled k status it.iterations := by
  show Settled k (if _ then _ else _) it.iterations ↔ _
  split
  · rename_i hbox
    rw [hbox.1]
    simp [Settled]
  · rfl

/-- The reports of two solves of a program without crossed bounds, one with a smaller limit. -/
theorem solveValid_truncated {lp : LinearProgram α} (h : lp.crossedBound? = none) (s : Settings α)
    {k K : ℕ} (hle : k ≤ K) :
    (Settled k (solveValid lp (s.withMaxIterations K)).status
        (solveValid lp (s.withMaxIterations K)).iterations ∧
      solveValid lp (s.withMaxIterations k) = solveValid lp (s.withMaxIterations K)) ∨
    (¬ Settled k (solveValid lp (s.withMaxIterations K)).status
        (solveValid lp (s.withMaxIterations K)).iterations ∧
      (solveValid lp (s.withMaxIterations k)).status = .maxIterations ∧
      (solveValid lp (s.withMaxIterations k)).iterations = k) := by
  rw [solveValid_withMaxIterations h, solveValid_withMaxIterations h, settled_conclude]
  have hruns := Iterate.run_truncated (f := lp.form s) (s := s) hle (.start (lp.form s))
  have hstart : (Iterate.start (lp.form s)).iterations + k = k := Nat.zero_add k
  rw [hstart] at hruns
  rcases hruns with ⟨hsettled, hsame⟩ | ⟨hnot, last, hlast, hcount⟩
  · rw [hsame]
    exact .inl ⟨hsettled, rfl⟩
  · rw [hlast]
    exact .inr ⟨hnot, by simp [conclude], hcount⟩

/-- No more pivots are reported than the limit allows. -/
theorem iterations_solveValid_le (lp : LinearProgram α) (s : Settings α) :
    (solveValid lp s).iterations ≤ s.maxIterations := by
  unfold solveValid
  split
  · exact Nat.zero_le _
  · exact (Iterate.iterations_run_le s.maxIterations _).trans_eq (Nat.zero_add _)

/-- A solve that returns also returns under a smaller limit: the same report where the end is
settled, and otherwise that the limit is reached. -/
theorem solve_truncated {lp : LinearProgram α} (h : lp.crossedBound? = none) {s : Settings α}
    {k K : ℕ} (hle : k ≤ K) {r : Report α} (hr : solve lp (s.withMaxIterations K) = .ok r) :
    (Settled k r.status r.iterations → solve lp (s.withMaxIterations k) = .ok r) ∧
    (¬ Settled k r.status r.iterations →
      ∃ r', solve lp (s.withMaxIterations k) = .ok r' ∧
        r'.status = .maxIterations ∧ r'.iterations = k) := by
  have hreport := eq_solveValid hr
  rw [solve_withMaxIterations] at hr ⊢
  cases hs : solve lp s with
  | error e =>
    rw [hs] at hr
    cases hr
  | ok _ =>
    rw [hreport]
    rcases solveValid_truncated h s hle with ⟨hsettled, hsame⟩ | ⟨hnot, hstatus, hcount⟩
    · exact ⟨fun _ => congrArg Except.ok hsame, fun hnot => absurd hsettled hnot⟩
    · exact ⟨fun hsettled => absurd hsettled hnot, fun _ => ⟨_, rfl, hstatus, hcount⟩⟩

/-- A limit on pivots only truncates. Under a smaller limit a solve fails as under a larger one, or
reports the same where that end is settled, and otherwise reports that its own limit is reached. -/
theorem limit_truncates (lp : LinearProgram α) (s : Settings α) {k K : ℕ} (hle : k ≤ K)
    (hbounds : ∀ (j : ℕ) (lo hi : α), lp.lower[j]? = some lo → lp.upper[j]? = some hi → ¬ hi < lo) :
    (∀ e, solve lp (s.withMaxIterations k) = .error e
      ↔ solve lp (s.withMaxIterations K) = .error e) ∧
    ∀ r, solve lp (s.withMaxIterations K) = .ok r →
      (Settled k r.status r.iterations → solve lp (s.withMaxIterations k) = .ok r) ∧
      (¬ Settled k r.status r.iterations →
        ∃ r', solve lp (s.withMaxIterations k) = .ok r' ∧
          r'.status = .maxIterations ∧ r'.iterations = k) := by
  refine ⟨fun e => ?_, fun r => solve_truncated (crossedBound?_eq_none hbounds) hle⟩
  rw [solve_withMaxIterations, solve_withMaxIterations]
  cases solve lp s with
  | error _ => exact Iff.rfl
  | ok _ => exact ⟨nofun, nofun⟩

/-- Two pivots show that the program has no point. A limit of three lets the solve say so, a limit
of two does not. -/
theorem limit_truncates_diagonal :
    ∃ r, solve (diagonal (-1)) .standard = .ok r ∧ r.status = .primalInfeasible ∧
      r.iterations = 2 ∧
      solve (diagonal (-1)) (Settings.standard.withMaxIterations 3) = .ok r ∧
      ∃ r', solve (diagonal (-1)) (Settings.standard.withMaxIterations 2) = .ok r' ∧
        r'.status = .maxIterations ∧ r'.iterations = 2 := by
  have hok : solve (diagonal (-1)) .standard = .ok (solveValid (diagonal (-1)) .standard) := by
    with_unfolding_all rfl
  have hstatus : (solveValid (diagonal (-1)) .standard).status = .primalInfeasible := by
    decide +kernel
  have hcount : (solveValid (diagonal (-1)) .standard).iterations = 2 := by
    decide +kernel
  have hbounds : ∀ (j : ℕ) (lo hi : ExtRat), (diagonal (-1)).lower[j]? = some lo →
      (diagonal (-1)).upper[j]? = some hi → ¬ hi < lo := by
    intro j lo hi hlo hhi
    match j with
    | 0 | 1 =>
      cases hlo
      cases hhi
      decide +kernel
    | j + 2 => cases hlo
  have hthree := (limit_truncates (diagonal (-1)) .standard (show 3 ≤ 50000 by decide) hbounds).2
    _ hok
  have htwo := (limit_truncates (diagonal (-1)) .standard (show 2 ≤ 50000 by decide) hbounds).2
    _ hok
  rw [hstatus, hcount] at hthree htwo
  refine ⟨_, hok, hstatus, hcount, hthree.1 (.inl (by decide)), htwo.2 ?_⟩
  simp [Settled]

/-! ## Objectives -/

/-- Where a tolerance-free solve stops under a smaller limit, its objective is no larger. -/
theorem objective_truncated_le {lp : LinearProgram ExtRat} {s : Settings ExtRat}
    (hready : Ready lp s.bigBound) (htol : 0 < s.feasibilityTol) (hfree : ToleranceFree lp s)
    {k : ℕ} (hle : k ≤ s.maxIterations) :
    (lp.form s).objective (lp.lastPoint (s.withMaxIterations k))
      ≤ (lp.form s).objective (lp.lastPoint s) := by
  have hmem : lp.lastIterate (s.withMaxIterations k) ∈ lp.solveIterates s := by
    have hstop : lp.lastIterate (s.withMaxIterations k)
        ∈ lp.solveIterates (s.withMaxIterations k) := lastIterate_mem_iterates
    rw [solveIterates, Iterate.iterates_withMaxIterations] at hstop
    exact (Iterate.iterates_prefix hle _).subset hstop
  have hlast : (lp.solveIterates s).getLast (List.ne_nil_of_mem hmem) = lp.lastIterate s :=
    (List.getLast_eq_iff_getLast?_eq_some _).mpr (Iterate.stopped_run _ _).1
  -- the objective does not fall along the iterates
  have hchain := (List.isChain_map _).mpr (isChain_objective hready htol hfree)
  have hle := hchain.pairwise.rel_getLast (List.mem_map_of_mem hmem)
  rw [List.getLast_map, hlast] at hle
  exact hle

end BranchBound.LinearProgram
