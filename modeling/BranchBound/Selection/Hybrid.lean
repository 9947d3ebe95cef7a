import BranchBound.Selection.Scoring

/-!
# Hybrid branching

The better half of the candidates by pseudocost is solved once each, with the variable held between
its two whole neighbours, within twice the mean number of iterations so far. The candidate with the
largest loss wins; where none shows a loss, the best one by pseudocost does.
-/

namespace BranchBound.Scoring

open Relaxation

variable {σ α : Type} [Scalar α]

/-- A loss has to exceed the best one so far by more than this. -/
def progressTol : α := Scalar.tenth 8

/-- Limit on the iterations of a scoring solve: twice the mean, rounded up, and at least one. -/
def hybridCap (o : Oracle σ) (α : Type) [Scalar α] : Nat :=
  max (Scalar.toCount (Scalar.ceil (Scalar.ofNat 2 * o.average : α))) 1

/-- The box with a variable held between the whole numbers around its value. -/
def heldBox? (box : Box α) (c : Candidate α) : Option (Box α) := do
  (← box.tightenLower? c.var (Scalar.floor c.value)).tightenUpper? c.var (Scalar.ceil c.value)

/-- Solves candidates in order, keeping the one whose loss beats all before it. -/
def probe (B : Backend σ α) (p : Problem α) (node : NodePoint α) (cap : Nat) :
    List (Candidate α) → (top : α) → (chosen : Candidate α) → ScoringM σ α (Candidate α)
  | [], _, chosen => pure chosen
  | c :: rest, top, chosen => do
    let box ← inRange c.var (heldBox? node.box c)
    let answer ← ask (Oracle.resolve B p box cap)
    let loss := node.relax - answer.objective
    if answer.hasBound = true ∧ progressTol < loss - top then probe B p node cap rest loss c
    else probe B p node cap rest top chosen

/-- The candidate with the largest loss in the better half, or the best one by pseudocost. -/
def selectHybrid (B : Backend σ α) (p : Problem α) (node : NodePoint α) (first : Nat × α)
    (rest : List (Nat × α)) : ScoringM σ α (Candidate α) := do
  let s ← get
  let first ← inRange first.1 (Candidate.byPseudocost? s.table first)
  let rest ← rest.mapM fun f => inRange f.1 (Candidate.byPseudocost? s.table f)
  let order := Candidate.ranking (first :: rest)
  let half := order.take (max (order.length / 2) 1)
  probe B p node (hybridCap s.oracle α) half 0 (order.head?.getD first)

end BranchBound.Scoring
