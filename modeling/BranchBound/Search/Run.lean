import BranchBound.Relaxation.Simplex
import BranchBound.Search.Visit

/-!
# Runs of a search

A search takes up open nodes one after the other until none is left or a limit is reached. One such
step is a function (`step`), a run is its iteration (`Phase.advance`), and `search` iterates often
enough for every run to end.

* `search`: a run from a backend's state, without checks.
* `solveWith`: checks the settings first.
* `solve`: the same with the simplex backend.
-/

namespace BranchBound.Search

open Relaxation

variable {σ α : Type} [Scalar α]

/-- A run between two nodes: still going, or ended with a status or an error. -/
inductive Phase (σ α : Type) where
  | running (state : State σ α)
  | ended (result : Except (SolveError α) SolveStatus) (state : State σ α)

/-- Status where no node is open. -/
def exhausted (s : State σ α) : SolveStatus :=
  if s.incumbent.hasPoint then .optimal else .infeasible

/-- Whether the time limit has passed. -/
def timeIsUp (ctx : Context σ α) (s : State σ α) : Bool :=
  ctx.settings.timeLimit.any fun limit => limit ≤ ctx.clock s.frontier.popped

/-- Takes up the next node, unless nothing is open or a limit is reached. -/
def step (ctx : Context σ α) (s : State σ α) : Phase σ α :=
  match s.frontier.pop? with
  | none => .ended (.ok (exhausted s)) s
  | some (entry, frontier) =>
    if timeIsUp ctx s then .ended (.ok .timeLimit) s
    else if ctx.settings.maxNodes ≤ s.processed then .ended (.ok .nodeLimit) s
    else
      match (visit ctx entry.node entry.bound).run.run { s with frontier } with
      | (.ok (), s) => .running s
      | (.error e, s) => .ended (.error e) s

/-- A number of steps; a run that has ended stays as it is. -/
def Phase.advance (ctx : Context σ α) : Nat → Phase σ α → Phase σ α
  | 0, phase => phase
  | n + 1, .running s => advance ctx n (step ctx s)
  | _ + 1, .ended result s => .ended result s

/-- A run that has ended stays as it is. -/
@[simp]
theorem Phase.advance_ended (ctx : Context σ α) (n : Nat)
    (result : Except (SolveError α) SolveStatus) (s : State σ α) :
    Phase.advance ctx n (.ended result s) = .ended result s := by
  cases n <;> rfl

/-- Steps can be taken in two parts. -/
theorem Phase.advance_add (ctx : Context σ α) (m n : Nat) (phase : Phase σ α) :
    phase.advance ctx (m + n) = (phase.advance ctx m).advance ctx n := by
  induction m generalizing phase with
  | zero => rw [Nat.zero_add]; rfl
  | succ m ih =>
    rw [Nat.succ_add]
    cases phase with
    | running s => exact ih (step ctx s)
    | ended result s => rw [advance_ended, advance_ended, advance_ended]

/-- Steps after which every run has ended. At most `maxNodes` nodes are solved, each leaves two open
ones at most, and every step but the last takes one of these or the root. -/
def stepBound (settings : Settings α) : Nat := 2 * settings.maxNodes + 2

/-- How a run stands; one that would still be going has used up its nodes. -/
def Phase.outcome : Phase σ α → Except (SolveError α) SolveStatus × State σ α
  | .running s => (.ok .nodeLimit, s)
  | .ended result s => (result, s)

/-- State before the first step. The backend is asked for its variant first. -/
def initial (ctx : Context σ α) (backend : σ) : State σ α :=
  let (notes, backend) := ctx.backend.setMode ctx.settings.lpMode backend
  let scoring := Scoring.new ctx.settings.rule ctx.problem.objective backend
  State.start
    { scoring with
      journal := notes.toArray
        ++ #[.started ctx.problem.numVars ctx.problem.integerVars.length ctx.problem.numRows,
             .strategy ctx.settings.rule ctx.settings.selection ctx.settings.enumerateAll] }

/-- Counts of the work done. -/
def stats (ctx : Context σ α) (s : State σ α) : Stats where
  nodesCreated := s.tree.size
  nodesProcessed := s.processed
  nodesPruned := s.pruned
  lpSolves := s.scoring.oracle.lpSolves
  lpIterations := s.scoring.oracle.iterations
  fullResolves := s.scoring.fullResolves
  partialResolves := s.scoring.partialResolves
  maxDepth := s.maxDepth
  incumbentUpdates := s.incumbentUpdates
  solveTime := ctx.clock s.frontier.popped

/-- The solution a state stands for. -/
def solution (ctx : Context σ α) (status : SolveStatus) (s : State σ α) : Solution α where
  status := status
  x := s.incumbent.point.getD []
  objective := s.incumbent.objective
  bound := s.bestBound
  gap := s.incumbent.gap s.bestBound
  stats := stats ctx s

/-- Closing notes of a run. -/
def closing (ctx : Context σ α) (s : Solution α) : List (Note α) :=
  [.finished s.stats.solveTime s.status s.objective,
   .totals s.stats.nodesCreated s.stats.nodesProcessed s.stats.lpSolves]
    ++ if ctx.settings.rule.usesResolves then
        [.resolves s.stats.fullResolves s.stats.partialResolves s.stats.boundLpSolves]
      else []

/-- What a run leaves behind: a solution or an error, and the last state. -/
structure Outcome (σ α : Type) where
  result : Except (SolveError α) (Solution α)
  state : State σ α

/-- Runs a search from a backend's state. -/
def search (ctx : Context σ α) (backend : σ) : Outcome σ α :=
  match ((Phase.running (initial ctx backend)).advance ctx (stepBound ctx.settings)).outcome with
  | (.error e, s) => ⟨.error e, s⟩
  | (.ok status, s) =>
    let solved := solution ctx status s
    ⟨.ok solved, (closing ctx solved).foldl State.note s⟩

/-- Runs a search if the settings are in order. -/
def solveWith (ctx : Context σ α) (backend : σ) : Except (ConfigFault α) (Outcome σ α) := do
  ctx.settings.validate
  pure (search ctx backend)

/-- Solves a problem with the simplex backend. -/
def solve (problem : Problem α) (settings : Settings α) (clock : Nat → Nat) :
    Except (ConfigFault α) (Outcome (SimplexState α) α) :=
  solveWith ⟨problem, settings, simplex, clock⟩ (.new settings.lp)

end BranchBound.Search
