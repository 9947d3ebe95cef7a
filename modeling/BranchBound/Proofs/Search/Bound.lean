import BranchBound.Proofs.Problem.Constructed
import BranchBound.Proofs.Scalar.Comparable
import BranchBound.Proofs.Search.Cover

/-!
# Reported bounds are valid

The bound of a solution is at least the objective of every integer point of the root box, for
whatever reason the search stopped. Where all nodes were looked at, bounds of open nodes say
nothing, so no node may be left open.

* `Frontier.le_bestBound`: the best bound is above that of every open node.
* `Invariant.le_bestBound`, `Invariant.le_objective`: what the invariant says at the end of a run.
* `Search.bound_valid`: bounds, optima and infeasibility.
-/

namespace BranchBound

/-! ## The best bound -/

/-- No open node has a bound above the best. -/
theorem Frontier.le_bestBound {f : Frontier ExtRat} {e : Entry ExtRat} (he : e ∈ f.entries) :
    e.bound ≤ f.bestBound :=
  (ComparableScalar.foldl_maxNum Entry.bound rfl fun _ _ => rfl).2.1 e he

namespace Search

open Relaxation

variable {σ : Type} {ctx : Context σ ExtRat} {s : State σ ExtRat} {y : List ℚ}

theorem State.bestBound_eq_max (s : State σ ExtRat) :
    s.bestBound = max s.frontier.bestBound s.incumbent.objective :=
  ExtRat.maxNum_eq_max _ _

/-! ## Integer points at the end of a run -/

/-- Integer points are below the best bound, unless every node is looked at and some are still
open. -/
theorem Invariant.le_bestBound (h : Invariant ctx s.core)
    (hopen : ctx.settings.enumerateAll = true → s.frontier.entries = [])
    (hy : ctx.problem.IntegerPoint ctx.rootBox y) :
    ctx.problem.objectiveValue (y.map .fin) ≤ s.bestBound := by
  rw [State.bestBound_eq_max]
  rcases h.covered y hy with hle | ⟨e, he, _, _, -, -, -, -, hbound⟩
  · exact hle.trans (le_max_right _ _)
  · have hall : ctx.settings.enumerateAll = false := by
      refine eq_false_of_ne_true fun hall => List.not_mem_nil (a := e) ?_
      rw [← hopen hall]
      exact he
    exact (hbound hall).trans ((Frontier.le_bestBound he).trans (le_max_left _ _))

/-- Where nothing is open, integer points are no better than the incumbent. -/
theorem Invariant.le_objective (h : Invariant ctx s.core) (hentries : s.frontier.entries = [])
    (hy : ctx.problem.IntegerPoint ctx.rootBox y) :
    ctx.problem.objectiveValue (y.map .fin) ≤ s.incumbent.objective := by
  rcases h.covered y hy with hle | ⟨e, he, -⟩
  · exact hle
  · refine (List.not_mem_nil (a := e) ?_).elim
    rw [← hentries]
    exact he

/-- Where nothing is open and there is no incumbent, there is no integer point. -/
theorem Invariant.not_integerPoint (h : Invariant ctx s.core) (hentries : s.frontier.entries = [])
    (hnone : s.incumbent.point = none)
    (hfinite : ∀ c ∈ ctx.problem.objective, Scalar.isFinite c = true) :
    ¬ ctx.problem.IntegerPoint ctx.rootBox y := by
  intro hy
  have hnegInf : s.incumbent.objective = .negInf := h.no_point hnone
  have hle := h.le_objective hentries hy
  rw [Problem.objectiveValue_eq_fin hfinite, hnegInf] at hle
  exact hle

/-! ## Solutions -/

/-- A run that ends infeasible has no incumbent. -/
theorem Stopped.point_eq_none (h : Stopped ctx s .infeasible) : s.incumbent.point = none := by
  generalize hstatus : SolveStatus.infeasible = status at h
  cases h with
  | exhausted hentries =>
    unfold Search.exhausted at hstatus
    split at hstatus
    · cases hstatus
    · rename_i hpoint
      exact Option.not_isSome_iff_eq_none.mp hpoint
  | timeLimit htime => cases hstatus
  | nodeLimit => cases hstatus

/-- Closing notes change neither the tree nor the incumbent. -/
theorem core_foldl_note {α : Type} (notes : List (Note α)) (s : State σ α) :
    (notes.foldl State.note s).core = s.core := by
  induction notes generalizing s with
  | nil => rfl
  | cons n notes ih => rw [List.foldl_cons, ih, core_note]

/-- The objective of a solution is that of the incumbent at the end. -/
theorem objective_of_search {α : Type} [Scalar α] {ctx : Context σ α} {backend : σ}
    {sol : Solution α} (h : (search ctx backend).result = .ok sol) :
    sol.objective = (search ctx backend).state.incumbent.objective := by
  obtain ⟨s, -, hsol, hstate⟩ := outcome_of_search h
  have hincumbent : (search ctx backend).state.incumbent = s.incumbent := by
    rw [hstate]
    exact congrArg Core.incumbent (core_foldl_note _ s)
  rw [hincumbent]
  exact congrArg Solution.objective hsol

theorem integralityTol_pos_of_validate {settings : Settings ExtRat}
    (h : settings.validate = .ok ()) : 0 < settings.integralityTol := by
  unfold Settings.validate at h
  extract_lets rest rest' at h
  split at h
  · cases h
  · rename_i htol
    exact (not_not.mp htol).1

/-- The bound of a solution is valid: over a backend that can be trusted and without a limit on the
depth, it is at least the objective of every integer point of the root box, unless all nodes were to
be looked at and some are still open. So an optimum is one, and where no point was found there is
none, provided that the objective is finite, as the constructors check. -/
theorem bound_valid {backend : σ} {out : Outcome σ ExtRat} {sol : Solution ExtRat}
    (hsolve : solveWith ctx backend = .ok out) (hok : out.result = .ok sol)
    (hlimit : ctx.settings.depthLimit = none) (hbackend : ctx.backend.SoundOn ctx.problem) :
    ((ctx.settings.enumerateAll = true → out.state.frontier.entries = []) →
      ∀ y, ctx.problem.IntegerPoint ctx.rootBox y →
        ctx.problem.objectiveValue (y.map .fin) ≤ sol.bound) ∧
    (sol.status = .optimal → ∀ y, ctx.problem.IntegerPoint ctx.rootBox y →
      ctx.problem.objectiveValue (y.map .fin) ≤ sol.objective) ∧
    (sol.status = .infeasible → (∀ c ∈ ctx.problem.objective, Scalar.isFinite c = true) →
      ∀ y, ¬ ctx.problem.IntegerPoint ctx.rootBox y) := by
  obtain ⟨hvalid, rfl⟩ := search_of_solveWith hsolve
  obtain ⟨s, hreach, hstopped, hsol, hstate⟩ := reachable_of_search hok
  have hinv := invariant_of_reachable hbackend hlimit (integralityTol_pos_of_validate hvalid) hreach
  have hfrontier : (search ctx backend).state.frontier = s.frontier := by
    rw [hstate]
    exact congrArg Core.frontier (core_foldl_note _ s)
  rw [hfrontier, hsol]
  refine ⟨fun hopen y hy => hinv.le_bestBound hopen hy, fun hoptimal y hy => ?_,
    fun hinfeasible hfinite y => ?_⟩
  · replace hoptimal : sol.status = .optimal := hoptimal
    rw [hoptimal] at hstopped
    exact hinv.le_objective (hstopped.entries_eq_nil rfl) hy
  · replace hinfeasible : sol.status = .infeasible := hinfeasible
    rw [hinfeasible] at hstopped
    exact hinv.not_integerPoint (hstopped.entries_eq_nil rfl) hstopped.point_eq_none hfinite

/-! ## One variable -/

/-- Maximize a variable whose double is limited. -/
def doubled (b : ℚ) : Problem ExtRat := ⟨[.fin 1], [⟨"c0", [(0, .fin 2)], .fin b⟩], [.integer]⟩

/-- Answers with the largest value in the box whose double is within the limit. -/
def doubledBackend (b : ℚ) : Backend Unit ExtRat where
  solve _ box _ s :=
    let outcome := match box with
      | ⟨[lo], [hi]⟩ =>
        if lo ≤ min hi (.fin (b / 2)) then
          .ok ⟨.optimal, [min hi (.fin (b / 2))], min hi (.fin (b / 2)), 0⟩
        else .ok (.infeasible 0)
      | _ => .error (.answerLength box.lower.length 1)
    (⟨outcome, []⟩, s)
  setMode _ s := ([], s)

/-- What the backend says of the one variable's bounds. -/
theorem answer_doubled {b : ℚ} {box : Box ExtRat} {s : Unit} {a : Answer ExtRat}
    (h : ((doubledBackend b).solve (doubled b) box none s).1.outcome = .ok a) :
    ∃ lo hi, box = ⟨[lo], [hi]⟩ ∧
      ((lo ≤ min hi (.fin (b / 2)) ∧
        a = ⟨.optimal, [min hi (.fin (b / 2))], min hi (.fin (b / 2)), 0⟩) ∨
      (min hi (.fin (b / 2)) < lo ∧ a = .infeasible 0)) := by
  unfold doubledBackend at h
  dsimp only at h
  split at h
  · rename_i lo hi
    refine ⟨lo, hi, rfl, ?_⟩
    split at h
    · cases h
      exact .inl ⟨‹_›, rfl⟩
    · cases h
      exact .inr ⟨not_le.mp ‹_›, rfl⟩
  · cases h

/-- A point is a number between the bounds whose double is within the limit. -/
theorem exists_of_relaxedPoint_doubled {b : ℚ} {lo hi : ExtRat} {y : List ℚ}
    (hy : (doubled b).RelaxedPoint ⟨[lo], [hi]⟩ y) :
    ∃ q : ℚ, y = [q] ∧ lo ≤ .fin q ∧ .fin q ≤ min hi (.fin (b / 2)) := by
  have hlength : y.length = 1 := by
    rw [← List.length_map (f := ExtRat.fin), ← hy.inside.1.length_eq]
    rfl
  obtain ⟨q, rfl⟩ := List.length_eq_one_iff.mp hlength
  have hlo : lo ≤ .fin q := (List.forall₂_cons.mp hy.inside.1).1
  have hhi : .fin q ≤ hi := (List.forall₂_cons.mp hy.inside.2).1
  have hrow : (ExtRat.fin 0 + .fin 2 * .fin q) ≤ .fin b := hy.rows _ List.mem_cons_self
  rw [ExtRat.fin_mul, ExtRat.fin_add, ExtRat.fin_le_fin, zero_add] at hrow
  refine ⟨q, rfl, hlo, le_min hhi ?_⟩
  rw [ExtRat.fin_le_fin]
  linarith

theorem objectiveValue_doubled (b q : ℚ) :
    (doubled b).objectiveValue [.fin q] = .fin q := by
  show (ExtRat.fin (-0) + .fin 1 * .fin q) = .fin q
  rw [ExtRat.fin_mul, ExtRat.fin_add, neg_zero, zero_add, one_mul]

/-- The backend's bounds hold for every point of the box. -/
theorem soundOn_doubled (b : ℚ) : (doubledBackend b).SoundOn (doubled b) where
  le_optimum := by
    intro box s a h hoptimal y hy
    obtain ⟨lo, hi, rfl, ⟨-, rfl⟩ | ⟨-, rfl⟩⟩ := answer_doubled h
    · obtain ⟨q, rfl, -, hq⟩ := exists_of_relaxedPoint_doubled hy.relaxedPoint
      rw [List.map_singleton, objectiveValue_doubled]
      exact hq
    · cases hoptimal
  infeasible := by
    intro box s a h hinfeasible y hy
    obtain ⟨lo, hi, rfl, ⟨-, rfl⟩ | ⟨hlt, -⟩⟩ := answer_doubled h
    · cases hinfeasible
    · obtain ⟨q, -, hlo, hq⟩ := exists_of_relaxedPoint_doubled hy.relaxedPoint
      exact absurd hlt (not_lt.mpr (hlo.trans hq))
  not_limited := by
    intro box s a h
    obtain ⟨lo, hi, rfl, ⟨-, rfl⟩ | ⟨-, rfl⟩⟩ := answer_doubled h <;> exact Status.noConfusion
  inside := by
    intro box s a h hoptimal
    obtain ⟨lo, hi, rfl, ⟨hle, rfl⟩ | ⟨-, rfl⟩⟩ := answer_doubled h
    · exact ⟨.cons hle .nil, .cons (min_le_left _ _) .nil⟩
    · cases hoptimal

/-- A search for the largest whole number whose double is within a limit. -/
def doubledContext (b : ℚ) : Context Unit ExtRat :=
  ⟨doubled b, Settings.standard.generalInteger, doubledBackend b, id⟩

theorem constructed_doubled (b : ℚ) : (doubled b).Constructed :=
  .ofRows (show Problem.ofRows [.fin 1] [("c0", [.fin 2])] [.fin b] = _ from rfl)

/-- One is a whole number whose double is at most three. -/
theorem integerPoint_doubled : (doubled 3).IntegerPoint (.root (doubled 3) false) [1] := by
  refine ⟨⟨.cons (by decide +kernel) .nil, .cons (by decide +kernel) .nil⟩, fun r hr => ?_,
    fun j hj => ?_⟩
  · rw [List.mem_singleton.mp hr]
    decide +kernel
  · obtain rfl : j = 0 := List.mem_singleton.mp hj
    exact ⟨1, rfl⟩

/-- The optimum under a limit of three, and that there is no point under a negative limit. -/
theorem bound_valid_doubled :
    (∃ out sol, solveWith (doubledContext 3) () = .ok out ∧ out.result = .ok sol ∧
      sol.status = .optimal ∧ sol.objective = 1 ∧
      ∀ y, (doubled 3).IntegerPoint (doubledContext 3).rootBox y →
        (doubled 3).objectiveValue (y.map .fin) ≤ sol.objective) ∧
    (∃ out sol, solveWith (doubledContext (-1)) () = .ok out ∧ out.result = .ok sol ∧
      sol.status = .infeasible ∧
      ∀ y, ¬ (doubled (-1)).IntegerPoint (doubledContext (-1)).rootBox y) := by
  constructor
  · have hsolve : solveWith (doubledContext 3) () = .ok (search (doubledContext 3) ()) := by
      with_unfolding_all rfl
    have hrun : (search (doubledContext 3) ()).result.toOption.map
        (fun sol => (sol.status, sol.objective)) = some (.optimal, 1) := by
      decide +kernel
    cases hok : (search (doubledContext 3) ()).result with
    | error e =>
      rw [hok] at hrun
      cases hrun
    | ok sol =>
      rw [hok] at hrun
      obtain ⟨hstatus, hobjective⟩ := Prod.mk.inj (Option.some.inj hrun)
      exact ⟨_, sol, hsolve, hok, hstatus, hobjective,
        (bound_valid hsolve hok rfl (soundOn_doubled 3)).2.1 hstatus⟩
  · have hsolve : solveWith (doubledContext (-1)) () = .ok (search (doubledContext (-1)) ()) := by
      with_unfolding_all rfl
    have hrun : (search (doubledContext (-1)) ()).result.toOption.map
        (fun sol => sol.status) = some .infeasible := by
      decide +kernel
    cases hok : (search (doubledContext (-1)) ()).result with
    | error e =>
      rw [hok] at hrun
      cases hrun
    | ok sol =>
      rw [hok] at hrun
      have hstatus : sol.status = .infeasible := Option.some.inj hrun
      exact ⟨_, sol, hsolve, hok, hstatus, (bound_valid hsolve hok rfl (soundOn_doubled (-1))).2.2
        hstatus (constructed_doubled (-1)).isFinite_objective⟩

end Search

end BranchBound
