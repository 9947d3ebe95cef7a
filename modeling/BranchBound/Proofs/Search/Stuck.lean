import BranchBound.Proofs.Search.Errors
import BranchBound.Proofs.Search.OrderIndependence

/-!
# Nodes that cannot be branched on

Whether an optimum is integer is decided up to a tolerance of the settings, and whether a variable
can be branched on up to a fixed one. A value between the two is neither whole nor fractional. Over
a backend that always answers with finite values, this is the one way a search can fail, and it
needs a tolerance of the settings below the fixed one.

* `fails_visit`: the visit of a stuck node fails.
* `step_eq_visit`: a step that takes up a node is its visit.
* `ended_error_iff`: a run fails exactly where it takes up a stuck node.
* `fails_iff_stuck`: the same for searches, and that a tolerance that is not too small excludes it.
* `accepted_tolerance_fails`: settings that pass their check do not exclude it.
-/

namespace BranchBound

open Relaxation

namespace Search

variable {σ : Type} {P : σ → Prop} {ctx : Context σ ExtRat}

/-! ## Visits -/

section Visits

variable {id : ℕ} {s : State σ ExtRat}

/-- Branching fails where no integer variable is fractional. -/
theorem fails_branch {node : NodePoint ExtRat} (hfs : ctx.problem.fractional? node.x = some [])
    (bound : ExtRat) (s : State σ ExtRat) :
    ∃ t, Fails (branch ctx id node bound) s (.noCandidate id) t := by
  have hselect : Runs (Scoring.select ctx.backend ctx.problem
      (Scoring.switchDepth ctx.problem.numVars) node) s.scoring none s.scoring := by
    unfold Scoring.select
    rw [hfs]
    rfl
  have hrun := run_onScoring (Scoring.select ctx.backend ctx.problem
    (Scoring.switchDepth ctx.problem.numVars) node) s
  rw [hselect] at hrun
  unfold branch
  exact exists_fails_bind hrun ⟨_, rfl⟩

/-- Going on from such an optimum fails, if neither its value nor its depth closes the node. -/
theorem fails_settle {node : Node ExtRat} {box : Box ExtRat} {a : Answer ExtRat}
    (hs : Ready ctx P id s) (hbranch : ∀ b, node.branch = some b → b.var < ctx.problem.numVars)
    (hinteger : ctx.problem.integerFeasible? a.x ctx.settings.integralityTol = some false)
    (hopen : ctx.closedBy s.incumbent.objective a.objective = false)
    (hdepth : ctx.tooDeep node.depth = false) (hfs : ctx.problem.fractional? a.x = some []) :
    ∃ t, Fails (settle ctx id node box a) s (.noCandidate id) t := by
  unfold settle
  extract_lets relax rest
  have hrest : ∀ {u : State σ ExtRat}, u.incumbent = s.incumbent →
      ∃ t, Fails (rest ()) u (.noCandidate id) t := by
    intro u hincumbent
    have hstatus : ctx.classify false node.depth u.incumbent.objective relax = .candidate := by
      unfold Context.classify
      rw [hincumbent, if_neg Bool.false_ne_true, hopen, if_neg Bool.false_ne_true, hdepth,
        if_neg Bool.false_ne_true]
    have hcount : ctx.problem.infeasibility? a.x = some _ := congrArg (Option.map _) hfs
    simp only [rest]
    apply exists_fails_bind (runs_inRange_iff.mpr ⟨hinteger, rfl⟩)
    apply exists_fails_bind (runs_get_iff.mpr ⟨rfl, rfl⟩)
    rw [hstatus]
    have hnote : Runs (noteFathomed ctx id node.depth .candidate relax) u () u := rfl
    apply exists_fails_bind hnote
    simp only [Bool.false_eq_true, if_false, if_true]
    apply exists_fails_bind (runs_map_iff.mpr ⟨_, runs_inRange_iff.mpr ⟨hcount, rfl⟩, rfl⟩)
    apply exists_fails_bind (b := ⟨⟩) (runs_modify_iff.mpr rfl)
    apply exists_fails_bind (runs_get_iff.mpr ⟨rfl, rfl⟩)
    exact fails_branch hfs _ _
  cases hnode : node.branch with
  | none => exact hrest rfl
  | some b =>
    obtain ⟨⟨⟩, u, hrun, -, -⟩ :=
      delivers_onScoring (Scoring.delivers_learn (hbranch b hnode) node.bound relax) s hs
    obtain ⟨learned, -, rfl⟩ := scoring_of_runs_onScoring hrun
    exact exists_fails_bind hrun (hrest rfl)

/-- The visit of a node that is in order but stuck fails. -/
theorem fails_visit {node : Node ExtRat} {box : Box ExtRat} (hv : Visitable ctx s.tree id node box)
    (hs : s.scoring.Fit ctx.problem.numVars P) (hstuck : Stuck ctx id s) (inherited : ExtRat) :
    ∃ t, Fails (visit ctx id inherited) s (.noCandidate id) t := by
  obtain ⟨node', box', a, scoring, hasked, hoptimal, hinteger, hopen, hdepth, hfs⟩ := hstuck
  cases hv.get?.symm.trans hasked.get?
  have hask := run_onScoring (Scoring.ask (Oracle.solveNode ctx.backend ctx.problem box'))
    (s.enter node.depth)
  rw [show (Scoring.ask _).run.run (s.enter node.depth).scoring = _ from hasked.ask] at hask
  have hready : Ready ctx (fun _ => True) id { s.enter node.depth with scoring } := by
    refine ⟨⟨?_, trivial⟩, Tree.get?_lt_size hv.get?⟩
    show scoring.table.Covers _
    rw [Scoring.eq_of_runs_ask hasked.ask]
    exact hs.table
  unfold visit
  apply exists_fails_bind (runs_get_iff.mpr ⟨rfl, rfl⟩)
  apply exists_fails_bind (runs_inRange_iff.mpr ⟨hv.get?, rfl⟩)
  rw [hasked.not_closed, if_neg Bool.false_ne_true]
  unfold expand
  apply exists_fails_bind (b := ⟨⟩) (runs_modify_iff.mpr rfl)
  apply exists_fails_bind (runs_get_iff.mpr ⟨rfl, rfl⟩)
  apply exists_fails_bind (runs_inRange_iff.mpr ⟨hasked.box?, rfl⟩)
  apply exists_fails_bind hask
  rw [hoptimal, if_pos rfl]
  obtain ⟨t, ht⟩ : ∃ t, Fails (settle ctx id node box' a) _ (.noCandidate id) t :=
    fails_settle hready hv.branch hinteger hopen hdepth hfs
  exact ⟨t, fails_bind_iff.mpr (.inl ht)⟩

end Visits

/-! ## Runs -/

/-- Where no limit is reached, a run goes on from the visit of the next node, or ends with it. -/
theorem step_eq_visit {α : Type} [Scalar α] {ctx : Context σ α} {s t : State σ α} {e : Entry α}
    {rest : Frontier α} (h : TakesUp ctx e rest s t) :
    step ctx s = match (visit ctx e.node e.bound).run.run { s with frontier := rest } with
      | (.ok (), u) => .running u
      | (.error err, u) => .ended (.error err) u := by
  have htime : ¬ timeIsUp ctx s = true := by
    rw [h.in_time]
    exact Bool.false_ne_true
  unfold step
  rw [h.pop?]
  exact (if_neg htime).trans (if_neg (Nat.not_le.mpr h.within_nodes))

section Run

variable {tol : ExtRat} (hB : ctx.backend.Dependable ctx.problem tol P)
  (hp : ctx.problem.WellFormed) (hlog : ctx.settings.logInterval ≠ 0)

include hB hp hlog

/-- A run fails exactly where it takes up a stuck node, and says so. -/
theorem ended_error_iff {backend : σ} {s : State σ ExtRat} {m : ℕ} {err : SolveError ExtRat}
    (hm : (Phase.running (initial ctx backend)).advance ctx m = .running s)
    (hs : s.scoring.Fit ctx.problem.numVars P) (n : ℕ) :
    (∃ t, (Phase.running s).advance ctx n = .ended (.error err) t) ↔
      ∃ r ∈ rounds ctx n s, err = .noCandidate r.entry.node ∧ Stuck ctx r.entry.node r.before := by
  induction n generalizing m s with
  | zero => simp [Phase.advance, rounds]
  | succ n ih =>
    rw [Phase.advance]
    rcases step_cases ctx s with ⟨status, hstep, -⟩ | ⟨e, rest, _, htakes, -⟩
    · rw [hstep, Phase.advance_ended, rounds_of_stopped hstep]
      simp
    · obtain ⟨node, box, hv⟩ := exists_visitable hp hm htakes.pop?
      by_cases hstuck : Stuck ctx e.node { s with frontier := rest }
      · -- the run ends here
        obtain ⟨t, ht⟩ := fails_visit (s := { s with frontier := rest }) hv hs hstuck e.bound
        have hstep : step ctx s = .ended (.error (.noCandidate e.node)) t := by
          rw [step_eq_visit htakes, ht]
        rw [hstep, Phase.advance_ended, rounds_of_failed hstep htakes.pop?]
        simp [hstuck, eq_comm]
      · -- this round is not the one that fails
        obtain ⟨t, hrun, ht⟩ :=
          exists_runs_visit hB hp hlog (s := { s with frontier := rest }) hv hs hstuck e.bound
        have hstep : step ctx s = .running t := by
          rw [step_eq_visit htakes, hrun]
        have hnext : (Phase.running (initial ctx backend)).advance ctx (m + 1) = .running t := by
          rw [Phase.advance_add, hm]
          exact hstep
        rw [hstep, ih hnext ht.scoring, rounds_of_running hstep htakes.pop?]
        simp [hstuck]

end Run

/-! ## Searches -/

/-- With settings that pass their check, the error of a search is that of its run. -/
theorem returned_error_iff {α : Type} [Scalar α] {ctx : Context σ α} {backend : σ}
    {err : SolveError α} (hvalid : ctx.settings.validate = .ok ()) :
    returned (solveWith ctx backend) = .error err ↔
      ∃ t, (Phase.running (initial ctx backend)).advance ctx (stepBound ctx.settings)
        = .ended (.error err) t := by
  have hreturned : returned (solveWith ctx backend) = (search ctx backend).result := by
    unfold solveWith
    rw [hvalid]
    rfl
  rw [hreturned]
  constructor
  · intro h
    exact ⟨_, ended_of_search_error h⟩
  · rintro ⟨t, ht⟩
    exact (search_of_ended ht).1

/-- Over a backend that always answers, with finite values for all variables where there is a bound,
a solve of a problem made by the constructors with settings that pass their check fails exactly
where it takes up a node whose optimum is neither integer nor closed, and no integer variable of it
counts as fractional. If the tolerance is not below that of fractional values, it returns a
solution. -/
theorem fails_iff_stuck (hp : ctx.problem.Constructed) (hvalid : ctx.settings.validate = .ok ())
    (hB : ctx.backend.Regular ctx.problem P) (backend : σ)
    (hbackend : P (ctx.backend.setMode ctx.settings.lpMode backend).2) :
    (∀ err, returned (solveWith ctx backend) = .error err ↔
      ∃ r ∈ rounds ctx (stepBound ctx.settings) (initial ctx backend),
        err = .noCandidate r.entry.node ∧ Stuck ctx r.entry.node r.before) ∧
    (Problem.fractionalTol ≤ ctx.settings.integralityTol →
      ∃ sol, returned (solveWith ctx backend) = .ok sol) := by
  obtain ⟨hlog, -⟩ := lp_validate_of_validate hvalid
  constructor
  · intro err
    rw [returned_error_iff hvalid]
    have hfit : (initial ctx backend).scoring.Fit ctx.problem.numVars P :=
      ⟨⟨List.length_map _, List.length_map _⟩, hbackend⟩
    have hdependable := hB.dependable hp.wellFormed le_rfl
    exact ended_error_iff hdependable hp.wellFormed hlog (m := 0) rfl hfit _
  · intro htol
    obtain ⟨⟨sol, hsol⟩, -⟩ := search_succeeds (hB.dependable hp.wellFormed htol) hp.wellFormed hlog
      backend hbackend
    refine ⟨sol, ?_⟩
    unfold solveWith
    rw [hvalid]
    exact hsol

/-! ## One variable -/

/-- A search whose every optimum is five billionths, with a certain tolerance. -/
def nearZeroContext (tol : ℚ) : Context Unit ExtRat :=
  ⟨doubled 3, { Settings.standard with integralityTol := .fin tol },
    steadyBackend fun _ => ⟨.optimal, [.fin (5 / 10 ^ 9)], 1, 1⟩, id⟩

theorem regular_nearZero (tol : ℚ) :
    (nearZeroContext tol).backend.Regular (doubled 3) fun _ => True where
  answers box cap _ := by
    refine ⟨_, rfl, trivial, fun _ => ⟨rfl, ?_⟩⟩
    intro v hv
    rw [List.mem_singleton.mp hv]
    rfl

/-- Settings with these tolerances pass their check. -/
theorem validate_nearZero :
    (nearZeroContext (1 / 10 ^ 9)).settings.validate = .ok () ∧
      (nearZeroContext (1 / 10 ^ 8)).settings.validate = .ok () := by
  constructor
  · with_unfolding_all rfl
  · with_unfolding_all rfl

/-- For a tolerance of one billionth there is an internal error. -/
theorem error_nearZero : ∃ err,
    returned (solveWith (nearZeroContext (1 / 10 ^ 9)) ()) = .error err ∧ err.kind = .internal := by
  have hrun : ((returned (solveWith (nearZeroContext (1 / 10 ^ 9)) ())).mapError
      SolveError.kind).map (fun _ => ()) = .error .internal := by
    decide +kernel
  cases hresult : returned (solveWith (nearZeroContext (1 / 10 ^ 9)) ()) with
  | ok sol =>
    rw [hresult] at hrun
    cases hrun
  | error err =>
    rw [hresult] at hrun
    exact ⟨err, rfl, Except.error.inj hrun⟩

/-- A node is stuck for a tolerance of one billionth, and there is a solution for one of a hundred
millionth. -/
theorem fails_iff_stuck_nearZero :
    (∃ r ∈ rounds (nearZeroContext (1 / 10 ^ 9)) (stepBound (nearZeroContext (1 / 10 ^ 9)).settings)
        (initial (nearZeroContext (1 / 10 ^ 9)) ()),
      Stuck (nearZeroContext (1 / 10 ^ 9)) r.entry.node r.before) ∧
    ∃ sol, returned (solveWith (nearZeroContext (1 / 10 ^ 8)) ()) = .ok sol := by
  obtain ⟨hsmall, hlarge⟩ := validate_nearZero
  constructor
  · obtain ⟨err, herr, -⟩ := error_nearZero
    obtain ⟨r, hr, -, hstuck⟩ := ((fails_iff_stuck (constructed_doubled 3) hsmall
      (regular_nearZero (1 / 10 ^ 9)) () trivial).1 err).mp herr
    exact ⟨r, hr, hstuck⟩
  · refine (fails_iff_stuck (constructed_doubled 3) hlarge (regular_nearZero (1 / 10 ^ 8)) ()
      trivial).2 ?_
    decide +kernel

/-- So it is not true that settings which pass their check keep such a backend from an internal
error. -/
theorem accepted_tolerance_fails :
    ¬ ∀ (ctx : Context Unit ExtRat) (backend : Unit), ctx.problem.Constructed →
      ctx.settings.validate = .ok () → ctx.backend.Regular ctx.problem (fun _ => True) →
      ∀ err, returned (solveWith ctx backend) = .error err → err.kind ≠ .internal := by
  intro hclaim
  obtain ⟨err, herr, hkind⟩ := error_nearZero
  exact hclaim _ _ (constructed_doubled 3) validate_nearZero.1 (regular_nearZero _) err herr hkind

end Search

end BranchBound
