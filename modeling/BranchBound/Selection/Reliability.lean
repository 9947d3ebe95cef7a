import BranchBound.Selection.Scoring

/-!
# Reliability branching

Candidates are walked by falling score, a blend of their predicted losses. One whose pseudocosts are
not yet reliable gets both children solved within a limit, and the measured losses replace the
predicted ones. The walk stops when a number of candidates in a row failed to raise the best score.
-/

namespace BranchBound.Scoring

open Relaxation

variable {σ α : Type} [Scalar α]

/-- Solves one child within a limit. The loss it shows, or nothing if the relaxation has no bound;
an optimum also counts as an observation. -/
def measureChild (B : Backend σ α) (p : Problem α) (node : NodePoint α) (cap : Nat)
    (branch : Branch α) : ScoringM σ α (Option α) := do
  let box ← inRange branch.var (branch.restrict? node.box)
  let answer ← ask (Oracle.resolve B p box cap)
  match answer.status with
  | .optimal =>
    modify fun s => { s with fullResolves := s.fullResolves + 1 }
    learn branch node.relax answer.objective
    pure (some (node.relax - answer.objective))
  | .iterationLimit =>
    modify fun s => { s with partialResolves := s.partialResolves + 1 }
    pure (some (node.relax - answer.objective))
  | .infeasible => pure none

/-- Score of a candidate from measured losses; a child without an optimum keeps its prediction. -/
def measure (B : Backend σ α) (p : Problem α) (node : NodePoint α) (r : Reliability α)
    (c : Candidate α) : ScoringM σ α α := do
  let (down, up) ← inRange c.var ((← get).table.gains? c.var c.value)
  let down := (← measureChild B p node r.iterationCap c.down).getD down
  let up := (← measureChild B p node r.iterationCap c.up).getD up
  pure (blend down up r.weight)

/-- Score of a walked candidate: its prediction where that is reliable, and a measurement if not. -/
def walkedScore (B : Backend σ α) (p : Problem α) (node : NodePoint α) (r : Reliability α)
    (c : Candidate α) : ScoringM σ α α := do
  if ← inRange c.var ((← get).table.isReliable? c.var r.minSamples) then pure c.score
  else measure B p node r c

/-- Walks candidates in order and returns the scores of those that were reached. `top` is the best
score so far, and `stale` counts the candidates since it was raised. -/
def walk (B : Backend σ α) (p : Problem α) (node : NodePoint α) (r : Reliability α) :
    List (Candidate α) → (top : α) → (stale : Nat) → ScoringM σ α (List (Nat × α))
  | [], _, _ => pure []
  | c :: rest, top, stale => do
    let score ← walkedScore B p node r c
    let (top, stale) := if top < score then (score, 0) else (top, stale + 1)
    if r.lookahead ≤ stale then
      note (.walkStopped stale)
      pure [(c.var, score)]
    else
      let scores ← walk B p node r rest top stale
      pure ((c.var, score) :: scores)

/-- The candidate with its walked score, if it was reached. -/
def rescored (scores : List (Nat × α)) (c : Candidate α) : Candidate α :=
  { c with score := (scores.lookup c.var).getD c.score }

/-- The first candidate with the largest score after the walk. -/
def selectReliability (B : Backend σ α) (p : Problem α) (node : NodePoint α) (r : Reliability α)
    (first : Nat × α) (rest : List (Nat × α)) : ScoringM σ α (Candidate α) := do
  let table := (← get).table
  let first ← inRange first.1 (Candidate.byBlend? table r.weight first)
  let rest ← rest.mapM fun f => inRange f.1 (Candidate.byBlend? table r.weight f)
  let order := Candidate.ranking (first :: rest)
  let top := (order.head?.getD first).score
  let scores ← walk B p node r order top 0
  pure (Candidate.best (rescored scores first) (rest.map (rescored scores)))

end BranchBound.Scoring
