import BranchBound.Proofs.LinearProgram.Truncation
import BranchBound.Proofs.Relaxation.Dependable

/-!
# Limited requests to the simplex backend

A limit on iterations makes the simplex backend stop early. Up to the limit it does what it does
without one, so a request that ends within its limit is answered in full, and one that does not is
answered with a bound that is no tighter than the optimum.

* `settled_of_optimal`, `outcome_limited_of_optimal`: optima within the limit.
* `objective_le_limited`: bounds at the limit.
* `sound_adapter`: what an answer of the simplex backend says about the relaxation, with and without
  a limit.
-/

namespace BranchBound.Relaxation

section Generic

variable {α : Type} [Scalar α]

theorem iterations_interpret (cap : Option ℕ) (r : LinearProgram.Report α) :
    (interpret cap r).1.iterations = r.iterations := by
  unfold interpret
  split <;> rfl

/-- The limit on iterations is only reported to a request with a limit. -/
theorem status_interpret_eq_iterationLimit_iff {cap : Option ℕ} {r : LinearProgram.Report α} :
    (interpret cap r).1.status = .iterationLimit
      ↔ r.status = .maxIterations ∧ cap.isSome = true := by
  unfold interpret
  cases r.status <;> cases cap <;> simp [roundedAnswer, Answer.infeasible]

variable {p : Problem α} {box : Box α} {s : SimplexState α} {cap : ℕ} {a b : Answer α}

/-- A request is rejected with and without a limit alike. -/
theorem outcome_eq_error_iff {e : SolveError α} :
    (simplex.solve p box (some cap) s).1.outcome = .error e
      ↔ (simplex.solve p box none s).1.outcome = .error e := by
  unfold simplex SimplexState.settingsFor
  dsimp only
  rw [LinearProgram.solve_withMaxIterations]
  cases (p.relaxation box.lower box.upper).solve s.settings with
  | error e => rfl
  | ok r => exact ⟨nofun, nofun⟩

theorem iterations_limited_le (h : (simplex.solve p box (some cap) s).1.outcome = .ok a) :
    a.iterations ≤ min cap s.settings.maxIterations := by
  obtain ⟨r, hr, rfl⟩ := exists_report h
  rw [iterations_interpret, LinearProgram.eq_solveValid hr]
  exact LinearProgram.iterations_solveValid_le _ _

end Generic

variable {p : Problem ExtRat} {box : Box ExtRat} {s : SimplexState ExtRat} {cap : ℕ}
  {a b : Answer ExtRat}

/-- An optimum that is found within a limit is the answer under the limit. -/
theorem outcome_limited_of_optimal (h : (simplex.solve p box none s).1.outcome = .ok b)
    (hoptimal : b.isOptimal = true) (hcap : b.iterations ≤ cap) :
    (simplex.solve p box (some cap) s).1.outcome = .ok b := by
  obtain ⟨r, hr, rfl⟩ := exists_report h
  have hstatus := isOptimal_interpret_iff.mp hoptimal
  obtain ⟨-, -, ⟨-, hbad⟩ | ⟨hcross, -, -⟩⟩ := LinearProgram.solve_cases hr
  · rw [hstatus] at hbad
    cases hbad
  have hsame := LinearProgram.eq_solveValid hr
  have hcount : r.iterations ≤ min cap s.settings.maxIterations := by
    rw [iterations_interpret] at hcap
    refine le_min hcap ?_
    rw [hsame]
    exact LinearProgram.iterations_solveValid_le _ _
  have hsettled : LinearProgram.Settled (min cap s.settings.maxIterations) r.status r.iterations :=
    hcount.lt_or_eq.imp_right fun heq => ⟨heq, .inl hstatus⟩
  have hlimited := (LinearProgram.solve_truncated hcross (min_le_right cap _) hr).1 hsettled
  have hinterpret : (interpret none r).1 = (interpret (some cap) r).1 := by
    rw [interpret_of_optimal hstatus, interpret_of_optimal hstatus]
  rw [hinterpret]
  unfold simplex SimplexState.settingsFor
  dsimp only
  rw [hlimited]

/-- What the limit on iterations leaves of a tolerance-free solve bounds its optimum. -/
theorem objective_le_limited
    (hfree : LinearProgram.ToleranceFree (p.relaxation box.lower box.upper) s.settings)
    (ha : (simplex.solve p box (some cap) s).1.outcome = .ok a)
    (hlimit : a.status = .iterationLimit)
    (hb : (simplex.solve p box none s).1.outcome = .ok b) (hoptimal : b.isOptimal = true) :
    b.objective ≤ a.objective := by
  obtain ⟨r, hr, rfl⟩ := exists_report ha
  obtain ⟨r', hr', rfl⟩ := exists_report hb
  have hstatus := (status_interpret_eq_iterationLimit_iff.mp hlimit).1
  have hstatus' := isOptimal_interpret_iff.mp hoptimal
  obtain ⟨-, -, ⟨-, hbad⟩ | ⟨-, -, hreported⟩⟩ := LinearProgram.solve_cases hr
  · rw [hstatus] at hbad
    cases hbad
  obtain ⟨-, hset, ⟨-, hbad⟩ | ⟨-, hready, hreported'⟩⟩ := LinearProgram.solve_cases hr'
  · rw [hstatus'] at hbad
    cases hbad
  have hle : r.objective ≤ r'.objective := by
    rw [hreported.objective (.inr hstatus), hreported'.objective (.inl hstatus')]
    have htol := (LinearProgram.Settings.pos_of_validate hset).1
    exact LinearProgram.objective_truncated_le hready htol hfree (min_le_right cap _)
  have hanswer : (interpret (some cap) r).1 = roundedAnswer .iterationLimit r := by
    unfold interpret
    rw [hstatus]
  rw [hanswer, interpret_of_optimal hstatus']
  exact round7_mono ((ExtRat.neg_le_neg_iff _ _).mpr hle)

/-- An optimum of a tolerance-free solve is no worse than any point of the relaxation. -/
theorem round7_le_of_optimal {cap : Option ℕ} {y : List ℚ}
    (hfree : LinearProgram.ToleranceFree (p.relaxation box.lower box.upper) (s.settingsFor cap))
    (h : (simplex.solve p box cap s).1.outcome = .ok a) (hoptimal : a.isOptimal = true)
    (hy : p.RelaxedPoint box y) : round7 (p.objectiveValue (y.map .fin)) ≤ a.objective := by
  obtain ⟨r, hr, rfl⟩ := exists_report h
  have hstatus := isOptimal_interpret_iff.mp hoptimal
  obtain ⟨hwf, hset, ⟨-, hbad⟩ | ⟨-, hready, hreported⟩⟩ := LinearProgram.solve_cases hr
  · rw [hstatus] at hbad
    cases hbad
  have hpoint := feasible_of_relaxedPoint hy
  rw [interpret_of_optimal hstatus]
  refine round7_objectiveValue_le hwf ?_
  rw [hreported.objective (.inl hstatus)]
  exact LinearProgram.objective_le_of_off_box hready (LinearProgram.Settings.pos_of_validate hset).1
    hfree (hreported.off_box hstatus) hpoint.1 hpoint.2

/-- The simplex backend answers for the relaxation. Requests in usable boxes are answered, and a
request is rejected with a limit if and only if it is without one. Where the solve is
tolerance-free, no point of the relaxation is better than an optimum. Under a limit there are no
more iterations than it allows; an optimum within them is the answer as without a limit, and where
the limit is reached the objective bounds the optimum. Without a limit no answer says that it was
reached. -/
theorem sound_adapter (hp : p.Constructed) (box : Box ExtRat) (s : SimplexState ExtRat) (cap : ℕ) :
    (box.Usable p.numVars → s.settings.validate = .ok () →
      ∀ cap, ∃ a, (simplex.solve p box cap s).1.outcome = .ok a) ∧
    (∀ e, (simplex.solve p box (some cap) s).1.outcome = .error e
      ↔ (simplex.solve p box none s).1.outcome = .error e) ∧
    (∀ limit, LinearProgram.ToleranceFree (p.relaxation box.lower box.upper)
        (s.settingsFor limit) →
      ∀ a, (simplex.solve p box limit s).1.outcome = .ok a → a.status = .optimal →
        ∀ y, p.RelaxedPoint box y → round7 (p.objectiveValue (y.map .fin)) ≤ a.objective) ∧
    (∀ a, (simplex.solve p box (some cap) s).1.outcome = .ok a →
      a.iterations ≤ min cap s.settings.maxIterations) ∧
    (∀ b, (simplex.solve p box none s).1.outcome = .ok b → b.status = .optimal →
      b.iterations ≤ cap → (simplex.solve p box (some cap) s).1.outcome = .ok b) ∧
    (LinearProgram.ToleranceFree (p.relaxation box.lower box.upper) s.settings →
      ∀ a b, (simplex.solve p box (some cap) s).1.outcome = .ok a → a.status = .iterationLimit →
        (simplex.solve p box none s).1.outcome = .ok b → b.status = .optimal →
        b.objective ≤ a.objective) ∧
    ∀ b, (simplex.solve p box none s).1.outcome = .ok b → b.status ≠ .iterationLimit := by
  refine ⟨fun hbox hs cap => ?_, fun e => outcome_eq_error_iff, ?_, fun a => iterations_limited_le,
    ?_, ?_, ?_⟩
  · obtain ⟨a, ha, -⟩ := answers_simplex hp.wellFormed hs hbox cap
    exact ⟨a, ha⟩
  · intro limit hfree a ha hoptimal y hy
    exact round7_le_of_optimal hfree ha (decide_eq_true hoptimal) hy
  · intro b hb hoptimal hcap
    exact outcome_limited_of_optimal hb (decide_eq_true hoptimal) hcap
  · intro hfree a b ha hlimit hb hoptimal
    exact objective_le_limited hfree ha hlimit hb (decide_eq_true hoptimal)
  · intro b hb hlimit
    obtain ⟨r, -, rfl⟩ := exists_report hb
    exact Bool.false_ne_true (status_interpret_eq_iterationLimit_iff.mp hlimit).2

/-- Two things, of which two rows allow four thirds altogether. -/
def wedge : Problem ExtRat where
  objective := [1, 1]
  rows := [⟨"c0", [(0, .fin 2), (1, 1)], .fin 2⟩, ⟨"c1", [(0, 1), (1, .fin 2)], .fin 2⟩]
  types := [.integer, .integer]

theorem constructed_wedge : wedge.Constructed :=
  .ofRows (show Problem.ofRows [1, 1] [("c0", [.fin 2, 1]), ("c1", [1, .fin 2])]
    [.fin 2, .fin 2] = _ by with_unfolding_all rfl)

/-- One pivot leads to a bound and two to the optimum. -/
theorem sound_adapter_wedge : ∃ a b,
    (simplex.solve wedge (.root wedge false) (some 1) (.new .standard)).1.outcome = .ok a ∧
    a.status = .iterationLimit ∧ a.iterations ≤ 1 ∧
    (simplex.solve wedge (.root wedge false) none (.new .standard)).1.outcome = .ok b ∧
    b.status = .optimal ∧ b.iterations = 2 ∧
    (simplex.solve wedge (.root wedge false) (some 2) (.new .standard)).1.outcome = .ok b ∧
    b.objective ≤ a.objective ∧
    ∀ y, wedge.RelaxedPoint (.root wedge false) y →
      round7 (wedge.objectiveValue (y.map .fin)) ≤ b.objective := by
  obtain ⟨hanswers, -, -, hcount, -, hbound, -⟩ :=
    sound_adapter constructed_wedge (.root wedge false) (.new .standard) 1
  obtain ⟨-, -, hoptimum, -, hsame, -, -⟩ :=
    sound_adapter constructed_wedge (.root wedge false) (.new .standard) 2
  have hbox := Box.usable_root constructed_wedge.wellFormed false
  have hs : (SimplexState.new (α := ExtRat) .standard).settings.validate = .ok () := by
    with_unfolding_all rfl
  have hfree : LinearProgram.ToleranceFree
      (wedge.relaxation (Box.root wedge false).lower (Box.root wedge false).upper) .standard := by
    decide +kernel
  obtain ⟨a, ha⟩ := hanswers hbox hs (some 1)
  obtain ⟨b, hb⟩ := hanswers hbox hs none
  have hlimit : (simplex.solve wedge (.root wedge false) (some 1)
      (.new .standard)).1.outcome.toOption.map Answer.status = some .iterationLimit := by
    decide +kernel
  have hread : (simplex.solve wedge (.root wedge false) none
      (.new .standard)).1.outcome.toOption.map (fun b => (b.status, b.iterations))
        = some (.optimal, 2) := by
    decide +kernel
  rw [ha] at hlimit
  rw [hb] at hread
  obtain ⟨hstatus, htwo⟩ := Prod.mk.inj (Option.some.inj hread)
  exact ⟨a, b, ha, Option.some.inj hlimit, hcount a ha, hb, hstatus, htwo,
    hsame b hb hstatus htwo.le, hbound hfree a b ha (Option.some.inj hlimit) hb hstatus,
    hoptimum none hfree b hb hstatus⟩

end BranchBound.Relaxation
