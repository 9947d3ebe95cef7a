import BranchBound.LinearProgram.Tableau

/-!
# The dual simplex

Starting from the slack basis, pivots until the point of the tableau lies within all bounds, no
column can enter, a value is no longer finite, or the limit on pivots is reached. Costs keep their
signs along the way, so the objective of every tableau is a lower bound.

* `Iterate`: a tableau with the number of pivots that led to it.
* `Iterate.run`: the pivots that a remaining budget allows.
* `solve`: the whole solve of validated data.
-/

namespace BranchBound.LinearProgram

variable {α : Type} [Scalar α] {m n : Nat}

/-- Something a solve reports while it runs. -/
inductive Event (α : Type) where
  | crossedBounds (index : Nat) (lower upper : α)
  | pivot (iteration row : Nat) (below : Bool) (column : Nat) (ratio objective : α)
  | finished (status : Status) (iterations : Nat) (objective : α)

/-- Result of a solve. -/
structure Report (α : Type) where
  status : Status
  /-- Values of the variables; at the limit on pivots they may violate constraints. -/
  x : List α
  objective : α
  iterations : Nat
  trace : List (Event α)

/-- More pivots in a row without progress than this, and Bland's rule takes over. -/
def degenerateLimit : Nat := 50

/-- A tableau with the number of pivots made, and how many of the last ones made no progress. -/
structure Iterate (α : Type) (m n : Nat) where
  tableau : Tableau α m n
  iterations : Nat
  degenerate : Nat
  trace : List (Event α)

namespace Iterate

/-- Before the first pivot. -/
def start (f : StandardForm α m n) : Iterate α m n := ⟨.start f, 0, 0, []⟩

/-- Whether Bland's rule is in effect. -/
def bland (it : Iterate α m n) : Bool := degenerateLimit < it.degenerate

/-- After one pivot. -/
def advance (it : Iterate α m n) (f : StandardForm α m n) (verbose : Bool)
    (l : Tableau.Leaving m) (e : Tableau.Entering α m n) : Iterate α m n where
  tableau := it.tableau.pivot l e.column
  iterations := it.iterations + 1
  degenerate := if e.ratio ≤ Tableau.ratioTie then it.degenerate + 1 else 0
  trace :=
    if verbose then
      it.trace ++ [.pivot it.iterations l.row l.below e.column e.ratio
        (f.objective (it.tableau.values f))]
    else it.trace

/-- Pivots until a status is reached, at most as often as the budget says. -/
def run (f : StandardForm α m n) (s : Settings α) (budget : Nat) (it : Iterate α m n) :
    Status × Iterate α m n :=
  let x := it.tableau.values f
  if x.any (!Scalar.isFinite ·) then (.numericalError, it)
  else
    match it.tableau.leaving? f x s.feasibilityTol it.bland with
    | none => (.optimal, it)
    | some l =>
      match budget with
      | 0 => (.maxIterations, it)
      | budget + 1 =>
        match it.tableau.entering? f l s.pivotTol it.bland with
        | none => (.primalInfeasible, it)
        | some e => run f s budget (it.advance f s.verbose l e)

end Iterate

/-- Whether a point rests on the box that stands in for an infinite bound. -/
def hitsBox (lp : LinearProgram α) (f : StandardForm α lp.numRows lp.numVars)
    (x : Vector α (lp.numVars + lp.numRows)) (tol : α) : Bool :=
  (List.finRange lp.numVars).any fun j =>
    let j' := j.castAdd lp.numRows
    let lo := f.lower[j']
    let hi := f.upper[j']
    (lp.upper.getD j 0 == Scalar.infinity && decide (hi - tol * (1 + Scalar.abs hi) ≤ x[j']))
      || (lp.lower.getD j 0 == -Scalar.infinity
          && decide (x[j'] ≤ lo + tol * (1 + Scalar.abs lo)))

/-- Objective that goes with a status. -/
def reportedObjective (f : StandardForm α m n) (x : Vector α (n + m)) : Status → α
  | .optimal | .maxIterations => f.objective x
  | .dualInfeasible => -Scalar.infinity
  | .primalInfeasible | .numericalError => Scalar.infinity

/-- What is reported where the last iterate stopped: an optimum on the box means that the objective
is unbounded. -/
def conclude (lp : LinearProgram α) (s : Settings α)
    (f : StandardForm α lp.numRows lp.numVars) (status : Status)
    (it : Iterate α lp.numRows lp.numVars) : Report α :=
  let x := it.tableau.values f
  let status :=
    if status = .optimal ∧ hitsBox lp f x s.feasibilityTol then .dualInfeasible else status
  let objective := reportedObjective f x status
  { status
    x := x.toList.take lp.numVars
    objective
    iterations := it.iterations
    trace := it.trace ++ [.finished status it.iterations objective] }

/-- Solves a program whose data and settings are in order. -/
def solveValid (lp : LinearProgram α) (s : Settings α) : Report α :=
  match lp.crossedBound? with
  | some (j, lo, hi) =>
    { status := .primalInfeasible
      x := List.replicate lp.numVars 0
      objective := Scalar.infinity
      iterations := 0
      trace := [.crossedBounds j lo hi] }
  | none =>
    let f := standardForm lp s.bigBound
    let (status, it) := Iterate.run f s s.maxIterations (.start f)
    conclude lp s f status it

/-- Checks the data and the settings, then solves. Infeasibility, unboundedness and the limit on
pivots are statuses and not errors. -/
def solve (lp : LinearProgram α) (s : Settings α) : Except (Error α) (Report α) := do
  lp.validate.mapError .data
  s.validate.mapError .settings
  pure (solveValid lp s)

end BranchBound.LinearProgram
