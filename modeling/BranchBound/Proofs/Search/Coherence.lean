import BranchBound.Proofs.Search.Budget

/-!
# Solutions are coherent

A solution tells the same thing in several ways: whether there is a point is told by the objective,
by the count of updates and by the point itself, and how the search ended by the status, the bound
and the gap. They are computed apart from one another, and agree.

* `GapScalar`: what the gap asks of the scalars.
* `relativeGap_nonneg`, `relativeGap_self`, `relativeGap_neg_infinity`: the values of a gap.
* `Coherent`: how the parts of a solution agree with one another and with the last state.
* `solution_is_coherent`: they do, for every problem, settings and backend.
-/

namespace BranchBound

/-! ## Gaps -/

/-- Scalars in a linear order between two infinities, which are not finite. What is finite differs
from itself by nothing, and nothing divided by something is nothing. -/
class GapScalar (α : Type) [Scalar α] : Prop extends LinearScalar α where
  isFinite_neg_infinity : Scalar.isFinite (-Scalar.infinity : α) = false
  sub_self : ∀ a : α, Scalar.isFinite a = true → a - a = 0
  zero_div : ∀ d : α, 0 < d → 0 / d = 0
  tenth_pos : ∀ k, (0 : α) < Scalar.tenth k

instance : GapScalar ExtRat where
  isFinite_neg_infinity := rfl
  sub_self a ha := by
    rw [← ExtRat.fin_toRat ha, ExtRat.fin_sub, sub_self, ExtRat.zero_eq_fin]
  zero_div d hd := by
    cases d with
    | fin d => rw [ExtRat.zero_eq_fin, ExtRat.fin_div, zero_div]
    | negInf => exact hd.elim
    | posInf => decide +kernel
  tenth_pos k := by
    rw [ExtRat.tenth_eq_fin, ExtRat.zero_eq_fin, ExtRat.fin_lt_fin]
    positivity

section Gap

variable {α : Type} [Scalar α] [GapScalar α]

theorem relativeGap_nonneg (value bound : α) : 0 ≤ relativeGap value bound := by
  unfold relativeGap
  split
  · exact LinearScalar.le_infinity 0
  · rw [LinearScalar.maxNum_eq_max]
    exact le_max_right _ _

/-- A finite value has no gap to itself. -/
theorem relativeGap_self {value : α} (h : Scalar.isFinite value = true) :
    relativeGap value value = 0 := by
  have hpos : 0 < Scalar.maxNum (Scalar.abs value) (Scalar.tenth 10) := by
    rw [LinearScalar.maxNum_eq_max]
    exact lt_of_lt_of_le (GapScalar.tenth_pos 10) (le_max_right _ _)
  have hfinite : Scalar.isInfinite value = false := by simp [Scalar.isInfinite, h]
  unfold relativeGap
  rw [hfinite, Bool.or_self, if_neg Bool.false_ne_true, GapScalar.sub_self value h,
    GapScalar.zero_div _ hpos, LinearScalar.maxNum_eq_max, max_self]

theorem relativeGap_neg_infinity (bound : α) :
    relativeGap (-Scalar.infinity) bound = Scalar.infinity := by
  have hinfinite : Scalar.isInfinite (-Scalar.infinity : α) = true := by
    rw [Scalar.isInfinite, GapScalar.isFinite_neg_infinity, LinearScalar.not_undefined]
    rfl
  unfold relativeGap
  rw [hinfinite, Bool.true_or, if_pos rfl]

end Gap

namespace Search

open Relaxation

variable {σ α : Type} [Scalar α]

/-! ## Incumbents and bounds -/

section Standing

variable {s : State σ α} {ctx : Context σ α} {found : List (ℕ × Answer α)}

/-- There is a point, above the negative infinity and counted, or there is none and nothing was
counted. -/
theorem Champion.hasPoint_cases [ComparableScalar α] (h : Champion found s.standing) :
    (s.incumbent.hasPoint = true ∧ -Scalar.infinity < s.incumbent.objective ∧
        0 < s.incumbentUpdates) ∨
      s.incumbent = .none ∧ s.incumbentUpdates = 0 := by
  have hcounted : s.incumbentUpdates = s.standing.told.length := h.counted
  rcases h.best with ⟨hnone, htold, -⟩ | ⟨best, ⟨hcounts, -⟩, hincumbent, hlast⟩
  · refine .inr ⟨hnone, ?_⟩
    rw [hcounted, htold]
    rfl
  · have hpoint : s.incumbent = ⟨some best.2.x, best.2.objective⟩ := hincumbent
    refine .inl ⟨?_, ?_, ?_⟩
    · rw [hpoint]
      rfl
    · rw [hpoint]
      exact ComparableScalar.counts_iff.mp hcounts
    · rw [hcounted]
      exact List.length_pos_of_mem (List.mem_of_getLast? hlast)

/-- Without a point nothing is known. -/
theorem Champion.eq_none [ComparableScalar α] (h : Champion found s.standing)
    (hnot : s.incumbent.hasPoint = false) : s.incumbent = .none := by
  rcases h.hasPoint_cases with ⟨hpoint, -⟩ | ⟨hnone, -⟩
  · rw [hpoint] at hnot
    cases hnot
  · exact hnone

theorem Champion.hasPoint_iff_updates [ComparableScalar α] (h : Champion found s.standing) :
    s.incumbent.hasPoint = true ↔ 0 < s.incumbentUpdates := by
  rcases h.hasPoint_cases with ⟨hpoint, -, hcount⟩ | ⟨hnone, hcount⟩
  · exact ⟨fun _ => hcount, fun _ => hpoint⟩
  · rw [hnone, hcount]
    exact ⟨nofun, fun h => absurd h (Nat.lt_irrefl 0)⟩

/-- The objective tells whether there is a point. -/
theorem Champion.hasPoint_iff [LinearScalar α] (h : Champion found s.standing) :
    s.incumbent.hasPoint = true ↔ -Scalar.infinity < s.incumbent.objective := by
  rcases h.hasPoint_cases with ⟨hpoint, hvalue, -⟩ | ⟨hnone, -⟩
  · exact ⟨fun _ => hvalue, fun _ => hpoint⟩
  · rw [hnone]
    exact ⟨nofun, fun h => absurd h (lt_irrefl _)⟩

theorem objective_le_bestBound [LinearScalar α] (s : State σ α) :
    s.incumbent.objective ≤ s.bestBound := by
  rw [State.bestBound, LinearScalar.maxNum_eq_max]
  exact le_max_right _ _

/-- Where nothing is open, the incumbent is all that bounds. -/
theorem bestBound_of_exhausted [LinearScalar α] (h : s.frontier.entries = []) :
    s.bestBound = s.incumbent.objective := by
  rw [State.bestBound, Frontier.bestBound, h, LinearScalar.maxNum_eq_max]
  exact max_eq_right (LinearScalar.neg_infinity_le _)

/-- A search that stops at a limit leaves some node open. -/
theorem Halts.entries_ne_nil {status : SolveStatus} (h : Halts ctx s status)
    (hlimit : status = .nodeLimit ∨ status = .timeLimit) : s.frontier.entries ≠ [] := by
  cases h with
  | exhausted hpop hstatus =>
    unfold Search.exhausted at hstatus
    split at hstatus <;> rcases hlimit with rfl | rfl <;> cases hstatus
  | timeLimit hpop htime => exact fun hnil => hpop (Frontier.pop?_eq_none_iff.mpr hnil)
  | nodeLimit hpop htime hnodes => exact fun hnil => hpop (Frontier.pop?_eq_none_iff.mpr hnil)

/-- A search that does not stop at a limit leaves none, and the status tells whether there is a
point. -/
theorem Halts.of_finished {status : SolveStatus} (h : Halts ctx s status)
    (hfinished : status.isFinished = true) :
    s.frontier.entries = [] ∧ (status = .optimal ↔ s.incumbent.hasPoint = true) := by
  cases h with
  | exhausted hpop hstatus =>
    refine ⟨Frontier.pop?_eq_none_iff.mp hpop, ?_⟩
    rw [hstatus, Search.exhausted]
    split
    case isTrue hpoint => exact ⟨fun _ => hpoint, fun _ => rfl⟩
    case isFalse hpoint => exact ⟨nofun, fun h => absurd h hpoint⟩
  | timeLimit => cases hfinished
  | nodeLimit => cases hfinished

end Standing

/-! ## Solutions -/

/-- The parts of a solution agree with one another, and with the state at the end of its search. -/
structure Coherent (maxNodes : ℕ) (s : Core α) (sol : Solution α) : Prop where
  hasSolution_iff_updates : sol.hasSolution = true ↔ 0 < sol.stats.incumbentUpdates
  hasSolution_iff_point : sol.hasSolution = true ↔ s.incumbent.hasPoint = true
  /-- The point is that of the incumbent. -/
  point : ∀ x, s.incumbent.point = some x → sol.x = x
  no_point : sol.hasSolution = false → sol.x = [] ∧ sol.objective = -Scalar.infinity
  objective_le : sol.objective ≤ sol.bound
  gap_nonneg : 0 ≤ sol.gap
  optimal : sol.status = .optimal → sol.hasSolution = true ∧ sol.bound = sol.objective ∧
    (Scalar.isFinite sol.objective = true → sol.gap = 0)
  infeasible : sol.status = .infeasible → sol.hasSolution = false ∧
    sol.bound = -Scalar.infinity ∧ sol.gap = Scalar.infinity
  /-- At a limit some node is open, and it has been neither processed nor pruned. -/
  pending : sol.status = .nodeLimit ∨ sol.status = .timeLimit → s.frontier.entries ≠ [] ∧
    sol.stats.nodesProcessed + sol.stats.nodesPruned < sol.stats.nodesCreated
  nodeLimit : sol.status = .nodeLimit → sol.stats.nodesProcessed = maxNodes

variable [GapScalar α] {ctx : Context σ α} {s : State σ α} {status : SolveStatus}
  {found : List (ℕ × Answer α)}

/-- What a search stops with is coherent, as long as its counts are. -/
theorem coherent_of_halts (hhalts : Halts ctx s status) (hchampion : Champion found s.standing)
    (hpending : s.frontier.entries ≠ [] → s.processed + s.pruned < s.tree.size)
    (hnodes : status = .nodeLimit → s.processed = ctx.settings.maxNodes) :
    Coherent ctx.settings.maxNodes s.core (solution ctx status s) := by
  have hhas : (solution ctx status s).hasSolution = true ↔ s.incumbent.hasPoint = true :=
    decide_eq_true_iff.trans hchampion.hasPoint_iff.symm
  have hnot : (solution ctx status s).hasSolution = false ↔ s.incumbent.hasPoint = false := by
    rw [← Bool.not_eq_true, hhas, Bool.not_eq_true]
  refine
    { hasSolution_iff_updates := hhas.trans hchampion.hasPoint_iff_updates
      hasSolution_iff_point := hhas
      point := fun x hx => ?_
      no_point := fun hnone => ?_
      objective_le := objective_le_bestBound s
      gap_nonneg := relativeGap_nonneg _ _
      optimal := fun hstatus => ?_
      infeasible := fun hstatus => ?_
      pending := fun hlimit => ?_
      nodeLimit := hnodes }
  · show s.core.incumbent.point.getD [] = x
    rw [hx, Option.getD_some]
  · have hincumbent := hchampion.eq_none (hnot.mp hnone)
    refine ⟨?_, congrArg Incumbent.objective hincumbent⟩
    show s.incumbent.point.getD [] = []
    rw [hincumbent]
    rfl
  · obtain rfl : status = .optimal := hstatus
    obtain ⟨hentries, hoptimal⟩ := hhalts.of_finished rfl
    have hbound : s.bestBound = s.incumbent.objective := bestBound_of_exhausted hentries
    refine ⟨hhas.mpr (hoptimal.mp rfl), hbound, fun hfinite => ?_⟩
    show relativeGap s.incumbent.objective s.bestBound = 0
    rw [hbound]
    exact relativeGap_self hfinite
  · obtain rfl : status = .infeasible := hstatus
    obtain ⟨hentries, hoptimal⟩ := hhalts.of_finished rfl
    have hnone : s.incumbent.hasPoint = false := by
      rw [← Bool.not_eq_true, ← hoptimal]
      exact nofun
    have hobjective : s.incumbent.objective = -Scalar.infinity :=
      congrArg Incumbent.objective (hchampion.eq_none hnone)
    refine ⟨hnot.mpr hnone, ?_, ?_⟩
    · show s.bestBound = _
      rw [bestBound_of_exhausted hentries, hobjective]
    · show relativeGap s.incumbent.objective s.bestBound = _
      rw [hobjective, relativeGap_neg_infinity]
  · have hentries := hhalts.entries_ne_nil hlimit
    exact ⟨hentries, hpending hentries⟩

/-- Every solution is coherent: whether there is a point is told by the objective, the count of
updates and the point alike; the bound is at least the objective; and the status tells what the
bound and the gap are, and whether a node is still open. -/
theorem solution_is_coherent {backend : σ} {out : Outcome σ α} {sol : Solution α}
    (hout : solveWith ctx backend = .ok out) (hsol : out.result = .ok sol) :
    Coherent ctx.settings.maxNodes out.state.core sol := by
  obtain ⟨-, rfl⟩ := search_of_solveWith hout
  obtain ⟨s, hended⟩ := ended_of_search_ok hsol
  obtain ⟨hresult, journal, hstate⟩ := search_of_ended hended
  have hsame : sol = solution ctx sol.status s := Except.ok.inj (hsol.symm.trans hresult)
  have hchampion := champion_of_run ctx backend (stepBound ctx.settings)
  have horderly := orderly_of_run ctx backend (stepBound ctx.settings)
  rw [hended] at hchampion horderly
  have hpending : s.frontier.entries ≠ [] → s.processed + s.pruned < s.tree.size := by
    intro hopen
    have hlength : _ + s.frontier.entries.length = s.tree.size := horderly.placed.length_add
    have hcounted : _ = s.processed + s.pruned := horderly.counted
    have hpos := List.length_pos_iff.mpr hopen
    omega
  rw [hstate, core_withJournal, hsame]
  exact coherent_of_halts (halts_of_advance hended) hchampion hpending fun hlimit =>
    processed_eq_of_nodeLimit (hlimit ▸ hended)

/-- Doubling a variable up to three has the optimum one, without a gap. Where one node is allowed,
one is processed and another is pending. -/
theorem solution_is_coherent_doubled :
    (∃ out sol, solveWith (doubledContext 3) () = .ok out ∧ out.result = .ok sol ∧
      sol.hasSolution = true ∧ sol.bound = 1 ∧ sol.gap = 0) ∧
    ∃ out sol, solveWith ((doubledContext 3).within 1 id) () = .ok out ∧ out.result = .ok sol ∧
      out.state.frontier.entries ≠ [] ∧ sol.stats.nodesProcessed = 1 := by
  constructor
  · have hsolve : solveWith (doubledContext 3) () = .ok (search (doubledContext 3) ()) := by
      with_unfolding_all rfl
    have hrun : (search (doubledContext 3) ()).result.toOption.map
        (fun sol => (sol.status, sol.objective)) = some (.optimal, 1) := by
      decide +kernel
    obtain ⟨sol, hok, hread⟩ := exists_ok_of_toOption_map hrun
    obtain ⟨hstatus, hobjective⟩ := Prod.mk.inj hread
    obtain ⟨hhas, hbound, hgap⟩ := (solution_is_coherent hsolve hok).optimal hstatus
    rw [hobjective] at hbound hgap
    exact ⟨_, sol, hsolve, hok, hhas, hbound, hgap rfl⟩
  · have hsolve : solveWith ((doubledContext 3).within 1 id) ()
        = .ok (search ((doubledContext 3).within 1 id) ()) := by
      with_unfolding_all rfl
    have hrun : (search ((doubledContext 3).within 1 id) ()).result.toOption.map
        (fun sol => sol.status) = some .nodeLimit := by
      decide +kernel
    obtain ⟨sol, hok, hstatus⟩ := exists_ok_of_toOption_map hrun
    have hcoherent := solution_is_coherent hsolve hok
    exact ⟨_, sol, hsolve, hok, (hcoherent.pending (.inl hstatus)).1, hcoherent.nodeLimit hstatus⟩

end Search

end BranchBound
