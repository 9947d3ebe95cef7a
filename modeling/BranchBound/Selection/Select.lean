import BranchBound.Selection.Hybrid
import BranchBound.Selection.Reliability

/-!
# Choosing the branching variable

All rules choose among the fractional integer variables of a node's optimum, in the order of the
variables. Beyond a certain depth, hybrid branching gives way to pseudocost branching for good.
-/

namespace BranchBound.Scoring

open Relaxation

variable {σ α : Type} [Scalar α]

/-- Depth beyond which hybrid branching gives way: a fifth of the variables, and at least five. -/
def switchDepth (numVars : Nat) : Nat := max (numVars / 5) 5

/-- Gives up hybrid branching where the tree is too deep for it. -/
def switchRule (limit depth : Nat) : ScoringM σ α Unit := do
  match (← get).rule with
  | .hybrid =>
    if limit < depth then
      note (.ruleSwitched depth limit)
      modify fun s => { s with rule := .pseudocost }
  | _ => pure ()

/-- The candidate a rule chooses among one or more fractional variables. -/
def choose (B : Backend σ α) (p : Problem α) (node : NodePoint α) (rule : BranchingRule α)
    (first : Nat × α) (rest : List (Nat × α)) : ScoringM σ α (Candidate α) := do
  match rule with
  | .fixedOrder => pure (.byFractionality first)
  | .mostFractional => pure (.best (.byFractionality first) (rest.map .byFractionality))
  | .pseudocost =>
    let table := (← get).table
    let first ← inRange first.1 (Candidate.byPseudocost? table first)
    let rest ← rest.mapM fun f => inRange f.1 (Candidate.byPseudocost? table f)
    pure (.best first rest)
  | .reliability r => selectReliability B p node r first rest
  | .hybrid => selectHybrid B p node first rest

/-- Chooses a variable to branch on, or nothing if no integer variable is fractional. -/
def select (B : Backend σ α) (p : Problem α) (limit : Nat) (node : NodePoint α) :
    ScoringM σ α (Option (Candidate α)) := do
  match ← inRange node.x.length (p.fractional? node.x) with
  | [] => pure none
  | first :: rest =>
    switchRule limit node.depth
    some <$> choose B p node (← get).rule first rest

end BranchBound.Scoring
