import BranchBound.Scalar.Basic

/-!
# Answers to relaxations

What a backend says about the relaxation of a subproblem: an optimum, an upper bound where the limit
on iterations stopped it, or that the subproblem can be dropped.
-/

namespace BranchBound.Relaxation

/-- Outcome of solving a relaxation. -/
inductive Status where
  | optimal
  /-- No optimum: infeasible, unbounded or numerically failed. -/
  | infeasible
  /-- Stopped by the limit on iterations; the objective is an upper bound. -/
  | iterationLimit
deriving DecidableEq

/-- Name of a status. -/
def Status.text : Status → String
  | .optimal => "Optimal"
  | .infeasible => "Infeasible"
  | .iterationLimit => "IterationLimit"

/-- An answer of a backend. -/
structure Answer (α : Type) where
  status : Status
  x : List α
  objective : α
  iterations : Nat

namespace Answer

variable {α : Type}

/-- There is no optimum. -/
def infeasible [Scalar α] (iterations : Nat) : Answer α :=
  ⟨.infeasible, [], -Scalar.infinity, iterations⟩

/-- Whether the solve reached an optimum. -/
def isOptimal (a : Answer α) : Bool := a.status = .optimal

/-- Whether the objective bounds the subproblem. -/
def hasBound (a : Answer α) : Bool := a.status ≠ .infeasible

end Answer

end BranchBound.Relaxation
