import BranchBound.LinearProgram.DualSimplex
import BranchBound.Relaxation.Backend

/-!
# The simplex backend

Solves relaxations with the dual simplex. The problem maximizes and the linear program minimizes, so
objectives change sign on the way in and out. Values are rounded to seven places, so that noise from
pivoting does not disturb comparisons of bounds.
-/

namespace BranchBound.Relaxation

variable {α : Type} [Scalar α]

/-- Units of the seventh place after the point. -/
def roundScale : α := Scalar.ofNat 10000000

/-- Rounds a finite value to seven places after the point. -/
def round7 (v : α) : α :=
  if Scalar.isFinite v then Scalar.round (v * roundScale) / roundScale else v

/-- State of the simplex backend: its settings, and the variant last asked for. Every variant runs
the dual simplex, on which scoring requests rely. -/
structure SimplexState (α : Type) where
  settings : LinearProgram.Settings α
  mode : LpMode

namespace SimplexState

/-- A backend that was not asked for a variant. -/
def new (settings : LinearProgram.Settings α) : SimplexState α := ⟨settings, .dynamic⟩

/-- Settings of a request: a limit on iterations can only lower the backend's own. -/
def settingsFor (s : SimplexState α) : Option Nat → LinearProgram.Settings α
  | none => s.settings
  | some cap => s.settings.withMaxIterations (min cap s.settings.maxIterations)

end SimplexState

/-- A point with its objective, rounded, as an answer to the maximization. -/
def roundedAnswer (status : Status) (r : LinearProgram.Report α) : Answer α :=
  ⟨status, r.x.map round7, round7 (-r.objective), r.iterations⟩

/-- The answer a report of the linear program solver amounts to, and what is noted about it. -/
def interpret (cap : Option Nat) (r : LinearProgram.Report α) : Answer α × List (Note α) :=
  match r.status, cap with
  | .optimal, _ => (roundedAnswer .optimal r, [])
  | .maxIterations, some _ => (roundedAnswer .iterationLimit r, [])
  | .dualInfeasible, _ => (.infeasible r.iterations, [.unboundedRelaxation])
  | status, _ => (.infeasible r.iterations, [.relaxationEnded status])

/-- The backend that runs the dual simplex. -/
def simplex : Backend (SimplexState α) α where
  solve p box cap s :=
    match (p.relaxation box.lower box.upper).solve (s.settingsFor cap) with
    | .error e => (⟨.error (.lp e), []⟩, s)
    | .ok r =>
      let (answer, notes) := interpret cap r
      (⟨.ok answer, r.trace.map .lp ++ notes⟩, s)
  setMode mode s :=
    (if mode = .dualSimplex then [] else [.modeRequested mode], { s with mode })

end BranchBound.Relaxation
