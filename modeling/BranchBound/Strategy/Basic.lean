import BranchBound.Scalar.Text

/-!
# Strategies

How a search chooses the variable to branch on (`BranchingRule`), the next node to look at
(`NodeSelection`), and which simplex variant it asks for (`LpMode`).
-/

namespace BranchBound

variable {α : Type}

/-- Parameters of reliability branching. -/
structure Reliability (α : Type) where
  /-- Observations needed in both directions before a pseudocost is trusted. -/
  minSamples : Nat
  /-- Limit on pivots of a scoring solve. -/
  iterationCap : Nat
  /-- Weight of the larger gain in a score. -/
  weight : α
  /-- Candidates in a row that may fail to raise the best score. -/
  lookahead : Nat

/-- Four observations, three pivots, a weight of one sixth and a lookahead of five. -/
def Reliability.standard [Scalar α] : Reliability α where
  minSamples := 4
  iterationCap := 3
  weight := 1 / Scalar.ofNat 6
  lookahead := 5

/-- Rule that chooses the branching variable. -/
inductive BranchingRule (α : Type) where
  /-- The first fractional variable. -/
  | fixedOrder
  /-- The variable farthest from a whole number. -/
  | mostFractional
  /-- The best estimate from earlier branchings. -/
  | pseudocost
  /-- Scoring solves for variables whose estimates are not yet trusted. -/
  | reliability (params : Reliability α)
  /-- Scoring solves for the better half of the candidates, until the tree gets deep. -/
  | hybrid

namespace BranchingRule

/-- Whether the rule solves linear programs to score candidates. -/
def usesResolves : BranchingRule α → Bool
  | .reliability _ | .hybrid => true
  | _ => false

/-- Description of a rule. -/
def text [ScalarText α] : BranchingRule α → String
  | .fixedOrder => "Fixed order"
  | .mostFractional => "Most fractional variable"
  | .pseudocost => "Pseudocost branching"
  | .reliability r =>
    s!"Reliability branching (eta={r.minSamples}, gamma={r.iterationCap}, "
      ++ s!"mu={ScalarText.fixed 3 r.weight}, lambda={r.lookahead})"
  | .hybrid => "Hybrid strong/pseudocost branching"

end BranchingRule

/-- Order in which open nodes are taken up. -/
inductive NodeSelection where
  /-- The deepest node. -/
  | depthFirst
  /-- The node with the largest bound. -/
  | bestFirst
  /-- The node with the best bound after the predicted loss. -/
  | bestEstimate
deriving DecidableEq

/-- Description of an order. -/
def NodeSelection.text : NodeSelection → String
  | .depthFirst => "Depth first"
  | .bestFirst => "Best first"
  | .bestEstimate => "Best estimate"

/-- Simplex variant asked of a backend, which may choose otherwise. -/
inductive LpMode where
  | dynamic
  | primalSimplex
  | dualSimplex
deriving DecidableEq

/-- Description of a variant. -/
def LpMode.text : LpMode → String
  | .dynamic => "Dynamic"
  | .primalSimplex => "PrimalSimplex"
  | .dualSimplex => "DualSimplex"

end BranchBound
