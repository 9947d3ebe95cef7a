import BranchBound.Solution.Basic
import BranchBound.Strategy.Codec

/-!
# Statuses and counts as JSON
-/

namespace BranchBound

namespace SolveStatus

/-- A status by its name. -/
def toJson (s : SolveStatus) : Json := .string s.text

/-- A status from its name. -/
def ofJson? (j : Json) : Option SolveStatus :=
  match j.plainTag? with
  | some "Optimal" => some .optimal
  | some "Infeasible" => some .infeasible
  | some "NodeLimit" => some .nodeLimit
  | some "TimeLimit" => some .timeLimit
  | _ => none

theorem ofJson?_toJson (s : SolveStatus) : ofJson? s.toJson = some s := by
  cases s <;> rfl

end SolveStatus

namespace Stats

/-- Counts as an object. -/
def toJson (s : Stats) : Json :=
  .object
    [("nodes_created", .ofNat s.nodesCreated),
     ("nodes_processed", .ofNat s.nodesProcessed),
     ("nodes_pruned", .ofNat s.nodesPruned),
     ("lp_solves", .ofNat s.lpSolves),
     ("lp_iterations", .ofNat s.lpIterations),
     ("full_resolves", .ofNat s.fullResolves),
     ("partial_resolves", .ofNat s.partialResolves),
     ("max_depth", .ofNat s.maxDepth),
     ("incumbent_updates", .ofNat s.incumbentUpdates),
     ("solve_time_ms", .ofNat s.solveTime)]

/-- Counts from an object; every one is required, and other members are passed over. -/
def ofJson? (j : Json) : Option Stats := do
  some
    { nodesCreated := ← j.field? "nodes_created" Json.count?
      nodesProcessed := ← j.field? "nodes_processed" Json.count?
      nodesPruned := ← j.field? "nodes_pruned" Json.count?
      lpSolves := ← j.field? "lp_solves" Json.count?
      lpIterations := ← j.field? "lp_iterations" Json.count?
      fullResolves := ← j.field? "full_resolves" Json.count?
      partialResolves := ← j.field? "partial_resolves" Json.count?
      maxDepth := ← j.field? "max_depth" Json.count?
      incumbentUpdates := ← j.field? "incumbent_updates" Json.count?
      solveTime := ← j.field? "solve_time_ms" Json.count? }

end Stats

end BranchBound
