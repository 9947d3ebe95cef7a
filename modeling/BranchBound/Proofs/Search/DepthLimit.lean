import BranchBound.Proofs.Search.Kept

/-!
# What a limit on the depth hides

A node that is too deep is closed whatever its optimum is, and is no longer counted among the open
ones. The bound of a solution is therefore at least the objective of every integer point but for
those in the boxes of such nodes, whose own bounds still cover them.

* `trusted_of_boundsOn`: a backend that gives upper bounds gives every integer point its due.
* `Kept.le_bestBound_or_dropped`: what the bound of a search covers.
* `bound_up_to_dropped`: what the bound of a solution covers.
* `depthLimit_hides_point`: a run that reports no point where there is one.
-/

namespace BranchBound.Search

open Relaxation

variable {σ : Type} {ctx : Context σ ExtRat} {y : List ℚ}

theorem wholePoint_of_integerPoint (hy : ctx.problem.IntegerPoint ctx.rootBox y) :
    WholePoint ctx y :=
  ⟨hy.inside, hy.whole⟩

/-- Upper bounds on integer points, which must be optima, are what a point is due. -/
theorem trusted_of_boundsOn (hbackend : ctx.backend.BoundsOn ctx.problem)
    (hy : ctx.problem.IntegerPoint ctx.rootBox y) (tree : Tree ExtRat) :
    Trusted ctx tree y (ctx.problem.objectiveValue (y.map .fin)) := by
  intro id box hbox hinside backend a hanswer
  have hpoint : ctx.problem.IntegerPoint box y := ⟨hinside, hy.rows, hy.whole⟩
  cases hstatus : a.status with
  | optimal =>
    exact ⟨decide_eq_true hstatus, hbackend.le_optimum hanswer hstatus y hpoint⟩
  | infeasible => exact absurd hpoint (hbackend.infeasible hanswer hstatus y)
  | iterationLimit => exact absurd hstatus (hbackend.not_limited hanswer)

/-- Unless every node is looked at, a point is below the best bound or was dropped. -/
theorem Kept.le_bestBound_or_dropped {s : State σ ExtRat} {v : ExtRat}
    (h : Kept ctx y v s.frontier.entries s.core) (hall : ctx.settings.enumerateAll = false) :
    v ≤ s.bestBound ∨ ∃ id node box a, Dropped ctx s.core id node box a ∧
      box.Contains (y.map .fin) ∧ v ≤ node.bound := by
  rw [State.bestBound_eq_max]
  cases h with
  | reached hle => exact .inl (hle.trans (le_max_right _ _))
  | pending he hnode hholds hbound hentry =>
    exact .inl ((hentry hall).trans ((Frontier.le_bestBound he).trans (le_max_left _ _)))
  | dropped hdropped hinside hbound => exact .inr ⟨_, _, _, _, hdropped, hinside, hbound⟩

/-- What the bound of a solution covers, whatever limit on the depth is set. Over a backend that
gives upper bounds, an integer point of the root box is no better than the bound, or it lies in the
box of a node that was closed at too great a depth although its optimum was fractional and at least
as good as the point. So the bound is valid where no node was closed for its depth. -/
theorem bound_up_to_dropped {backend : σ} {out : Outcome σ ExtRat} {sol : Solution ExtRat}
    (hsolve : solveWith ctx backend = .ok out) (hok : out.result = .ok sol)
    (hall : ctx.settings.enumerateAll = false) (hbackend : ctx.backend.BoundsOn ctx.problem)
    (hy : ctx.problem.IntegerPoint ctx.rootBox y) :
    ctx.problem.objectiveValue (y.map .fin) ≤ sol.bound ∨
      ∃ id node box a, Dropped ctx out.state.core id node box a ∧ box.Contains (y.map .fin) ∧
        ctx.problem.objectiveValue (y.map .fin) ≤ node.bound := by
  obtain ⟨-, rfl⟩ := search_of_solveWith hsolve
  obtain ⟨s, hreach, -, hsol, hstate⟩ := reachable_of_search hok
  have hcore : (search ctx backend).state.core = s.core := by
    rw [hstate]
    exact core_foldl_note _ s
  rw [hcore, hsol]
  exact (kept_of_grown (wholePoint_of_integerPoint hy) (grown_of_reachable hreach)
    (trusted_of_boundsOn hbackend hy _)).le_bestBound_or_dropped hall

/-! ## One variable -/

/-- The search for the largest whole number whose double is within a limit, where not even the root
is branched on. -/
def shallowContext (b : ℚ) : Context Unit ExtRat :=
  { doubledContext b with
    settings := { Settings.standard.generalInteger with depthLimit := some 0 } }

theorem solveWith_shallow :
    solveWith (shallowContext 3) () = .ok (search (shallowContext 3) ()) := by
  with_unfolding_all rfl

/-- The run ends at its root, without a point and with nothing left open. -/
theorem result_shallow : ∃ sol, (search (shallowContext 3) ()).result = .ok sol ∧
    sol.status = .infeasible ∧ sol.bound = .negInf := by
  have hrun : (search (shallowContext 3) ()).result.toOption.map
      (fun sol => (sol.status, sol.bound)) = some (.infeasible, .negInf) := by
    decide +kernel
  obtain ⟨sol, hok, hread⟩ := exists_ok_of_toOption_map hrun
  obtain ⟨hstatus, hbound⟩ := Prod.mk.inj hread
  exact ⟨sol, hok, hstatus, hbound⟩

/-- One is such a whole number, and it is in the box of a node that was too deep. -/
theorem bound_up_to_dropped_shallow :
    ∃ out sol, solveWith (shallowContext 3) () = .ok out ∧ out.result = .ok sol ∧
      sol.bound = .negInf ∧ ∃ id node box a,
        Dropped (shallowContext 3) out.state.core id node box a ∧ box.Contains [.fin 1] ∧
        .fin 1 ≤ node.bound := by
  obtain ⟨sol, hok, -, hbound⟩ := result_shallow
  refine ⟨_, sol, solveWith_shallow, hok, hbound, ?_⟩
  have hcovered := bound_up_to_dropped solveWith_shallow hok rfl (soundOn_doubled 3).toBoundsOn
    integerPoint_doubled
  rw [hbound, List.map_singleton, show (shallowContext 3).problem = doubled 3 from rfl,
    objectiveValue_doubled] at hcovered
  exact hcovered.resolve_left id

/-- With a limit on the depth, a run can report that there is no point, with nothing left above the
lowest bound, although there is one: the backend gives upper bounds, and one is a whole number whose
double is at most three. -/
theorem depthLimit_hides_point :
    (shallowContext 3).settings.validate = .ok () ∧
      (shallowContext 3).settings.enumerateAll = false ∧
      (shallowContext 3).backend.BoundsOn (shallowContext 3).problem ∧
      ∃ out sol, solveWith (shallowContext 3) () = .ok out ∧ out.result = .ok sol ∧
        sol.status = .infeasible ∧ ∃ y, (shallowContext 3).problem.IntegerPoint
            (shallowContext 3).rootBox y ∧
          ¬ (shallowContext 3).problem.objectiveValue (y.map .fin) ≤ sol.bound := by
  obtain ⟨sol, hok, hstatus, hbound⟩ := result_shallow
  obtain ⟨hvalid, -⟩ := search_of_solveWith solveWith_shallow
  refine ⟨hvalid, rfl, (soundOn_doubled 3).toBoundsOn, _, sol, solveWith_shallow, hok, hstatus, [1],
    integerPoint_doubled, ?_⟩
  rw [hbound, List.map_singleton, show (shallowContext 3).problem = doubled 3 from rfl,
    objectiveValue_doubled]
  exact id

end BranchBound.Search
