import BranchBound.Proofs.LinearProgram.Choice
import BranchBound.LinearProgram.DualSimplex

/-!
# Runs of the dual simplex

The iterates a solve passes through, as a list, and what is true of all of them.

* `Iterate.next?`, `Iterate.iterates`: one pivot, and the iterates that a budget of pivots allows.
* `Iterate.forall_mem_iterates`, `Iterate.isChain_iterates`: what a pivot keeps or relates, along
  all iterates.
* `Iterate.Stopped`, `Iterate.Proceeds`, `Iterate.proceeds`: why a run stops at an iterate, and what
  it does there whatever its limit.
* `Iterate.stopped_run`: where a run ends and why.
* `valid_of_mem_iterates`: every iterate rewrites the standard form.
* `solveIterates`, `lastIterate`, `Reported`, `solve_cases`: what a report says about the run it
  comes from.
-/

namespace BranchBound.LinearProgram

/-! ## Iterates -/

namespace Iterate

section Generic

variable {α : Type} [Scalar α] {m n : ℕ}

/-- The leaving row of an iterate. -/
def leaving? (f : StandardForm α m n) (s : Settings α) (it : Iterate α m n) :
    Option (Tableau.Leaving m) :=
  it.tableau.leaving? f (it.tableau.values f) s.feasibilityTol it.bland

/-- The entering column for a leaving row. -/
def entering? (f : StandardForm α m n) (s : Settings α) (it : Iterate α m n)
    (l : Tableau.Leaving m) : Option (Tableau.Entering α m n) :=
  it.tableau.entering? f l s.pivotTol it.bland

/-- The iterate after the pivot a solve makes here, if it makes one. -/
def next? (f : StandardForm α m n) (s : Settings α) (it : Iterate α m n) :
    Option (Iterate α m n) :=
  if (it.tableau.values f).any (!Scalar.isFinite ·) then none
  else (it.leaving? f s).bind fun l => (it.entering? f s l).map (it.advance f s.verbose l)

/-- The iterates from here on, as many as a budget of pivots allows. -/
def iterates (f : StandardForm α m n) (s : Settings α) :
    (budget : ℕ) → Iterate α m n → List (Iterate α m n)
  | 0, it => [it]
  | budget + 1, it =>
    it :: match it.next? f s with
      | none => []
      | some it => iterates f s budget it

/-- Why a run stops at an iterate. -/
inductive Stopped (f : StandardForm α m n) (s : Settings α) (it : Iterate α m n) : Status → Prop
  | numericalError (h : (it.tableau.values f).any (!Scalar.isFinite ·) = true) :
    Stopped f s it .numericalError
  | optimal (h : it.leaving? f s = none) : Stopped f s it .optimal
  | maxIterations {l : Tableau.Leaving m} (h : it.leaving? f s = some l) :
    Stopped f s it .maxIterations
  | primalInfeasible {l : Tableau.Leaving m} (h : it.leaving? f s = some l)
    (hnone : it.entering? f s l = none) : Stopped f s it .primalInfeasible

variable {f : StandardForm α m n} {s : Settings α}

/-- A pivot has a row that leaves and a column that enters. -/
theorem next?_eq_some {it it' : Iterate α m n} (h : it.next? f s = some it') :
    ∃ l e, it.leaving? f s = some l ∧ it.entering? f s l = some e ∧
      it' = it.advance f s.verbose l e := by
  unfold next? at h
  split at h
  · exact absurd h.symm (Option.some_ne_none it')
  · obtain ⟨l, hl, hmap⟩ := Option.bind_eq_some_iff.mp h
    obtain ⟨e, he, rfl⟩ := Option.map_eq_some_iff.mp hmap
    exact ⟨l, e, hl, he, rfl⟩

theorem iterations_next? {it it' : Iterate α m n} (h : it.next? f s = some it') :
    it'.iterations = it.iterations + 1 := by
  obtain ⟨l, e, -, -, rfl⟩ := next?_eq_some h
  rfl

/-- An iterate without a pivot is the last. -/
theorem iterates_of_next?_eq_none {it : Iterate α m n} (h : it.next? f s = none) (budget : ℕ) :
    iterates f s budget it = [it] := by
  cases budget with
  | zero => rfl
  | succ budget => rw [iterates, h]

theorem iterates_of_next?_eq_some {it it' : Iterate α m n} (h : it.next? f s = some it')
    (budget : ℕ) : iterates f s (budget + 1) it = it :: iterates f s budget it' := by
  rw [iterates, h]

/-- What every pivot that is made keeps holds of all iterates. -/
theorem forall_mem_iterates {P : Iterate α m n → Prop} (budget : ℕ) {it : Iterate α m n}
    (hstep : ∀ a ∈ iterates f s budget it, a.iterations < it.iterations + budget →
      ∀ b, a.next? f s = some b → P a → P b)
    (h : P it) : ∀ a ∈ iterates f s budget it, P a := by
  induction budget generalizing it with
  | zero =>
    intro a ha
    rw [List.mem_singleton.mp ha]
    exact h
  | succ budget ih =>
    cases hnext : it.next? f s with
    | none =>
      intro a ha
      rw [iterates_of_next?_eq_none hnext, List.mem_singleton] at ha
      rw [ha]
      exact h
    | some it' =>
      rw [iterates_of_next?_eq_some hnext] at hstep ⊢
      -- one pivot more and one pivot less to go: the limit in `hstep` stays where it is
      have hcount := iterations_next? hnext
      have hlater : ∀ a ∈ iterates f s budget it', P a := by
        refine ih (fun a ha hlt => hstep a (List.mem_cons_of_mem it ha) (by omega)) ?_
        exact hstep it List.mem_cons_self (by omega) it' hnext h
      intro a ha
      rcases List.mem_cons.mp ha with rfl | ha
      · exact h
      · exact hlater a ha

/-- What every pivot that is made relates is related from each iterate to the next. -/
theorem isChain_iterates {R : Iterate α m n → Iterate α m n → Prop} (budget : ℕ)
    {it : Iterate α m n}
    (hstep : ∀ a ∈ iterates f s budget it, a.iterations < it.iterations + budget →
      ∀ b, a.next? f s = some b → R a b) :
    (iterates f s budget it).IsChain R := by
  induction budget generalizing it with
  | zero => exact List.isChain_singleton it
  | succ budget ih =>
    cases hnext : it.next? f s with
    | none =>
      rw [iterates_of_next?_eq_none hnext]
      exact List.isChain_singleton it
    | some it' =>
      rw [iterates_of_next?_eq_some hnext] at hstep ⊢
      have hcount := iterations_next? hnext
      have hlater : (iterates f s budget it').IsChain R :=
        ih fun a ha hlt => hstep a (List.mem_cons_of_mem it ha) (by omega)
      refine List.IsChain.cons hlater fun b hb => ?_
      have hb' : b = it' := by
        cases budget <;> exact (Option.some.inj hb).symm
      rw [hb']
      exact hstep it List.mem_cons_self (by omega) it' hnext

/-- What a run does at an iterate, whatever its limit on pivots. -/
inductive Proceeds (f : StandardForm α m n) (s : Settings α) (it : Iterate α m n) : Prop
  /-- It ends before the limit is looked at. -/
  | ends {status : Status} (hstatus : status = .optimal ∨ status = .numericalError)
      (hstopped : Stopped f s it status) (hnext : it.next? f s = none)
      (hrun : ∀ budget, run f s budget it = (status, it))
  /-- It ends for want of an entering column if there are pivots left. -/
  | infeasible (hlimit : Stopped f s it .maxIterations)
      (hstopped : Stopped f s it .primalInfeasible) (hnext : it.next? f s = none)
      (hzero : run f s 0 it = (.maxIterations, it))
      (hrun : ∀ budget, run f s (budget + 1) it = (.primalInfeasible, it))
  /-- It makes a pivot if there are pivots left. -/
  | pivots {it' : Iterate α m n} (hlimit : Stopped f s it .maxIterations)
      (hnext : it.next? f s = some it') (hzero : run f s 0 it = (.maxIterations, it))
      (hrun : ∀ budget, run f s (budget + 1) it = run f s budget it')

/-- Every iterate ends the run or makes one pivot. -/
theorem proceeds (f : StandardForm α m n) (s : Settings α) (it : Iterate α m n) :
    Proceeds f s it := by
  -- `run` and `next?` make the same checks in the same order
  cases hinf : (it.tableau.values f).any (!Scalar.isFinite ·) with
  | true =>
    refine .ends (.inr rfl) (.numericalError hinf) (by rw [next?, if_pos hinf]) fun budget => ?_
    rw [run]
    exact if_pos hinf
  | false =>
    have hfinite : ¬ (it.tableau.values f).any (!Scalar.isFinite ·) = true := by
      rw [hinf]
      exact Bool.false_ne_true
    have hnext : it.next? f s
        = (it.leaving? f s).bind fun l => (it.entering? f s l).map (it.advance f s.verbose l) :=
      if_neg hfinite
    cases hl : it.leaving? f s with
    | none =>
      rw [hl, Option.bind_none] at hnext
      refine .ends (.inl rfl) (.optimal hl) hnext fun budget => ?_
      unfold leaving? at hl
      rw [run, if_neg hfinite, hl]
    | some l =>
      have hlimit : Stopped f s it .maxIterations := .maxIterations hl
      have hleaving := hl
      unfold leaving? at hleaving
      have hzero : run f s 0 it = (.maxIterations, it) := by
        rw [run]
        dsimp only
        rw [if_neg hfinite, hleaving]
      rw [hl, Option.bind_some] at hnext
      cases he : it.entering? f s l with
      | none =>
        rw [he, Option.map_none] at hnext
        refine .infeasible hlimit (.primalInfeasible hl he) hnext hzero fun budget => ?_
        unfold entering? at he
        rw [run]
        dsimp only
        rw [if_neg hfinite, hleaving]
        dsimp only
        rw [he]
      | some e =>
        rw [he, Option.map_some] at hnext
        refine .pivots hlimit hnext hzero fun budget => ?_
        unfold entering? at he
        rw [run]
        dsimp only
        rw [if_neg hfinite, hleaving]
        dsimp only
        rw [he]

/-- A run ends at the last of its iterates, for the reason its status says. -/
theorem stopped_run (budget : ℕ) (it : Iterate α m n) :
    (iterates f s budget it).getLast? = some (run f s budget it).2 ∧
      Stopped f s (run f s budget it).2 (run f s budget it).1 := by
  induction budget generalizing it with
  | zero =>
    cases proceeds f s it with
    | ends hstatus hstopped hnext hrun =>
      rw [hrun]
      exact ⟨rfl, hstopped⟩
    | infeasible hlimit hstopped hnext hzero hrun =>
      rw [hzero]
      exact ⟨rfl, hlimit⟩
    | pivots hlimit hnext hzero hrun =>
      rw [hzero]
      exact ⟨rfl, hlimit⟩
  | succ budget ih =>
    cases proceeds f s it with
    | ends hstatus hstopped hnext hrun =>
      rw [hrun, iterates_of_next?_eq_none hnext]
      exact ⟨rfl, hstopped⟩
    | infeasible hlimit hstopped hnext hzero hrun =>
      rw [hrun, iterates_of_next?_eq_none hnext]
      exact ⟨rfl, hstopped⟩
    | @pivots it' hlimit hnext hzero hrun =>
      obtain ⟨hlast, hstop⟩ := ih it'
      rw [hrun, iterates_of_next?_eq_some hnext, List.getLast?_cons, hlast]
      exact ⟨rfl, hstop⟩

end Generic

/-! ## Every iterate rewrites the standard form -/

variable {m n : ℕ} {f : StandardForm ExtRat m n} {s : Settings ExtRat}

theorem valid_next? (hf : f.Regular) (htol : 0 < s.feasibilityTol) {it it' : Iterate ExtRat m n}
    (h : it.next? f s = some it') (hit : Tableau.Valid f it.tableau) :
    Tableau.Valid f it'.tableau := by
  obtain ⟨l, e, hl, he, rfl⟩ := next?_eq_some h
  have hq := Tableau.entry_ne_zero_of_eligible hit (Tableau.entering?_eq_some he).1
  refine Tableau.valid_pivot hit hq fun hbelow => ?_
  -- the bound that the leaving column violates is the one where it comes to rest
  have hbound := (Tableau.sign_mul_point_lt hf hit htol hl).1
  rw [Tableau.Leaving.bound, hbelow] at hbound
  exact hbound

/-- Every iterate of a run is valid. -/
theorem valid_of_mem_iterates (hf : f.Regular) (htol : 0 < s.feasibilityTol) {budget : ℕ}
    {it : Iterate ExtRat m n} (hit : it ∈ iterates f s budget (.start f)) :
    Tableau.Valid f it.tableau :=
  forall_mem_iterates (P := fun it => Tableau.Valid f it.tableau) budget
    (fun _ _ _ _ hnext hvalid => valid_next? hf htol hnext hvalid) (Tableau.valid_start hf) it hit

end Iterate

/-! ## Reports -/

/-- Tolerances are positive, and the box is positive and finite. -/
theorem Settings.pos_of_validate {s : Settings ExtRat} (h : s.validate = .ok ()) :
    0 < s.feasibilityTol ∧ 0 < s.pivotTol ∧ Scalar.isFinite s.bigBound = true ∧ 0 < s.bigBound := by
  unfold Settings.validate at h
  extract_lets big pivot at h
  split at h
  · cases h
  rename_i hfeas
  simp only [pivot] at h
  split at h
  · cases h
  rename_i hpivot
  simp only [big] at h
  split at h
  · cases h
  rename_i hbig
  rw [not_not] at hfeas hpivot hbig
  exact ⟨hfeas, hpivot, hbig.1, hbig.2⟩

section Generic

variable {α : Type} [Scalar α]

/-- The standard form a solve works on. -/
abbrev form (lp : LinearProgram α) (s : Settings α) : StandardForm α lp.numRows lp.numVars :=
  standardForm lp s.bigBound

/-- The status with which a solve stops pivoting, and the iterate it has reached. -/
def outcome (lp : LinearProgram α) (s : Settings α) :
    Status × Iterate α lp.numRows lp.numVars :=
  Iterate.run (lp.form s) s s.maxIterations (.start (lp.form s))

/-- The iterates a solve passes through. -/
def solveIterates (lp : LinearProgram α) (s : Settings α) :
    List (Iterate α lp.numRows lp.numVars) :=
  Iterate.iterates (lp.form s) s s.maxIterations (.start (lp.form s))

/-- The iterate at which a solve stops. -/
def lastIterate (lp : LinearProgram α) (s : Settings α) : Iterate α lp.numRows lp.numVars :=
  (lp.outcome s).2

/-- The values of all columns where a solve stops. -/
def lastPoint (lp : LinearProgram α) (s : Settings α) : Vector α (lp.numVars + lp.numRows) :=
  (lp.lastIterate s).tableau.values (lp.form s)

/-- What a report says about the iterate it is read off. -/
structure Reported (lp : LinearProgram α) (s : Settings α) (r : Report α) : Prop where
  x : r.x = (lp.lastPoint s).toList.take lp.numVars
  stopped : r.status ≠ .dualInfeasible → Iterate.Stopped (lp.form s) s (lp.lastIterate s) r.status
  off_box : r.status = .optimal → hitsBox lp (lp.form s) (lp.lastPoint s) s.feasibilityTol = false
  objective : r.status = .optimal ∨ r.status = .maxIterations →
    r.objective = (lp.form s).objective (lp.lastPoint s)

variable {lp : LinearProgram α} {s : Settings α}

theorem lastIterate_mem_iterates :
    lp.lastIterate s ∈ lp.solveIterates s :=
  List.mem_of_getLast? (Iterate.stopped_run _ _).1

/-- What is reported is read off the last iterate. -/
theorem reported_solveValid (h : lp.crossedBound? = none) : Reported lp s (solveValid lp s) := by
  have hreport : solveValid lp s
      = conclude lp s (lp.form s) (lp.outcome s).1 (lp.lastIterate s) := by
    rw [solveValid, h]
    rfl
  have hstop : Iterate.Stopped (lp.form s) s (lp.lastIterate s) (lp.outcome s).1 :=
    (Iterate.stopped_run _ _).2
  rw [hreport]
  -- concluding turns an optimum on the box into another status, and keeps all others
  generalize (lp.outcome s).1 = status at hstop
  refine ⟨rfl, ?_, ?_, ?_⟩
  · show (if _ then _ else _) ≠ _ → Iterate.Stopped _ _ _ (if _ then _ else _)
    split
    · intro hne
      exact absurd rfl hne
    · intro _
      exact hstop
  · show (if _ then _ else _) = _ → _
    split
    · intro hdual
      cases hdual
    · rename_i hnot
      intro hopt
      exact Bool.eq_false_iff.mpr fun hbox => hnot ⟨hopt, hbox⟩
  · intro hst
    have hobj : (conclude lp s (lp.form s) status (lp.lastIterate s)).objective
        = reportedObjective (lp.form s) (lp.lastPoint s)
          (conclude lp s (lp.form s) status (lp.lastIterate s)).status := rfl
    rw [hobj]
    rcases hst with hst | hst <;> rw [hst] <;> rfl

end Generic

/-- No bound is crossed exactly if every lower bound is at most its upper bound. -/
theorem crossedBound?_eq_none_iff {lp : LinearProgram ExtRat} (hwf : lp.WellFormed) :
    lp.crossedBound? = none ↔ ∀ j : Fin lp.numVars, lp.lower.getD j 0 ≤ lp.upper.getD j 0 := by
  rw [crossedBound?, Option.map_eq_none_iff, List.find?_eq_none]
  constructor
  · intro h j
    have hlo : (j : ℕ) < lp.lower.length := lt_of_lt_of_eq j.isLt hwf.lower.symm
    have hhi : (j : ℕ) < lp.upper.length := lt_of_lt_of_eq j.isLt hwf.upper.symm
    rw [List.getD_eq_getElem _ _ hlo, List.getD_eq_getElem _ _ hhi]
    have hmem : ((lp.lower[(j : ℕ)], lp.upper[(j : ℕ)]), (j : ℕ))
        ∈ (lp.lower.zip lp.upper).zipIdx := by
      rw [List.mem_zipIdx_iff_getElem?, List.getElem?_zip_eq_some]
      exact ⟨List.getElem?_eq_getElem hlo, List.getElem?_eq_getElem hhi⟩
    simpa using h _ hmem
  · rintro h ⟨⟨lo, hi⟩, j⟩ hmem
    rw [List.mem_zipIdx_iff_getElem?, List.getElem?_zip_eq_some] at hmem
    obtain ⟨hlo, hhi⟩ := hmem
    have hj : j < lp.numVars := lt_of_lt_of_eq (List.getElem?_eq_some_iff.mp hlo).1 hwf.lower
    have hle := h ⟨j, hj⟩
    rw [List.getD_eq_getElem?_getD, List.getD_eq_getElem?_getD, hlo, hhi] at hle
    simpa using hle

/-- A solve with data and settings in order returns. -/
theorem solve_of_validate {α : Type} [Scalar α] {lp : LinearProgram α} {s : Settings α}
    (hdata : lp.validate = .ok ()) (hsettings : s.validate = .ok ()) :
    solve lp s = .ok (solveValid lp s) := by
  unfold solve
  rw [hdata, hsettings]
  rfl

/-- A report has a value for every variable. -/
theorem length_x_solveValid {α : Type} [Scalar α] (lp : LinearProgram α) (s : Settings α) :
    (solveValid lp s).x.length = lp.numVars := by
  unfold solveValid
  split
  · exact List.length_replicate
  · show (List.take _ _).length = _
    rw [List.length_take, Vector.length_toList]
    exact Nat.min_eq_left (Nat.le_add_right _ _)

/-- A solve that returns has usable data. Either it found crossed bounds and says so, or its report
is read off the iterate at which it stopped. -/
theorem solve_cases {lp : LinearProgram ExtRat} {s : Settings ExtRat} {r : Report ExtRat}
    (h : solve lp s = .ok r) :
    lp.WellFormed ∧ s.validate = .ok () ∧
      ((lp.crossedBound? ≠ none ∧ r.status = .primalInfeasible) ∨
        (lp.crossedBound? = none ∧ Ready lp s.bigBound ∧ Reported lp s r)) := by
  unfold solve at h
  cases hdata : lp.validate with
  | error fault =>
    rw [hdata] at h
    cases h
  | ok _ =>
    cases hset : s.validate with
    | error fault =>
      rw [hdata, hset] at h
      cases h
    | ok _ =>
      rw [hdata, hset] at h
      cases h
      have hwf := wellFormed_of_validate hdata
      refine ⟨hwf, rfl, ?_⟩
      cases hcross : lp.crossedBound? with
      | some b =>
        refine .inl ⟨Option.some_ne_none b, ?_⟩
        rw [solveValid, hcross]
      | none =>
        obtain ⟨-, -, hfin, hpos⟩ := Settings.pos_of_validate hset
        exact .inr ⟨rfl, ⟨hwf, hfin, hpos, (crossedBound?_eq_none_iff hwf).mp hcross⟩,
          reported_solveValid hcross⟩

end BranchBound.LinearProgram
