import BranchBound.Scalar.Basic

/-!
# Solutions

What a search returns: how it ended, the best point with its objective, the bound that is left, and
counts of the work done.
-/

namespace BranchBound

/-- How a search ended. -/
inductive SolveStatus where
  /-- All nodes are closed, and there is a best point. -/
  | optimal
  /-- All nodes are closed, and there is no point. -/
  | infeasible
  | nodeLimit
  | timeLimit
deriving DecidableEq

namespace SolveStatus

/-- Whether all nodes were closed. -/
def isFinished : SolveStatus → Bool
  | .optimal | .infeasible => true
  | _ => false

/-- Whether a best point was proved optimal. -/
def isOptimal : SolveStatus → Bool
  | .optimal => true
  | _ => false

/-- Name of a status. -/
def text : SolveStatus → String
  | .optimal => "Optimal"
  | .infeasible => "Infeasible"
  | .nodeLimit => "NodeLimit"
  | .timeLimit => "TimeLimit"

end SolveStatus

/-- Counts of the work of a search. -/
structure Stats where
  nodesCreated : Nat
  /-- Nodes whose relaxation was asked for. -/
  nodesProcessed : Nat
  /-- Nodes closed by their inherited bound alone. -/
  nodesPruned : Nat
  /-- Relaxations solved to the end: those of nodes, and scoring solves that reached an optimum. -/
  lpSolves : Nat
  lpIterations : Nat
  /-- Scoring solves that reached an optimum. -/
  fullResolves : Nat
  /-- Scoring solves stopped by their limit. -/
  partialResolves : Nat
  maxDepth : Nat
  incumbentUpdates : Nat
  /-- Milliseconds. -/
  solveTime : Nat

namespace Stats

/-- Nothing done. -/
def zero : Stats := ⟨0, 0, 0, 0, 0, 0, 0, 0, 0, 0⟩

/-- Solves spent on bounds of nodes rather than on scores. -/
def boundLpSolves (s : Stats) : Nat := s.lpSolves - s.fullResolves

end Stats

/-- Result of a search. -/
structure Solution (α : Type) where
  status : SolveStatus
  /-- The best point; empty if there is none. -/
  x : List α
  objective : α
  /-- No point of the problem is better than this. -/
  bound : α
  gap : α
  stats : Stats

namespace Solution

variable {α : Type} [Scalar α]

/-- No point found and nothing done. -/
def empty : Solution α :=
  ⟨.infeasible, [], -Scalar.infinity, -Scalar.infinity, Scalar.infinity, .zero⟩

/-- Whether a point was found. -/
def hasSolution (s : Solution α) : Bool := -Scalar.infinity < s.objective

end Solution

end BranchBound
