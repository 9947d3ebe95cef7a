import BranchBound.Branch

/-!
# Search nodes

A node stores only the bound its own branch adds; its box is rebuilt from the path to the root.
-/

namespace BranchBound

/-- What became of a node. -/
inductive NodeStatus where
  /-- Open, or solved and branched. -/
  | candidate
  /-- Its relaxation has no optimum. -/
  | infeasible
  /-- Its relaxation has an integer optimum. -/
  | integer
  /-- Closed by its bound or its depth. -/
  | fathomed
deriving DecidableEq

/-- Name of a status. -/
def NodeStatus.text : NodeStatus → String
  | .candidate => "candidate"
  | .infeasible => "infeasible"
  | .integer => "integer"
  | .fathomed => "fathomed"

/-- A node of the search tree. -/
structure Node (α : Type) where
  id : Nat
  parent : Option Nat
  depth : Nat
  /-- The bound added by this node; none for the root. -/
  branch : Option (Branch α)
  /-- Value of its relaxation; until that is known, its parent's. -/
  bound : α
  status : NodeStatus
  infeasibility : Option (Infeasibility α)

namespace Node

variable {α : Type} [Scalar α]

/-- The node a search starts from. -/
def root : Node α := ⟨0, none, 0, none, Scalar.infinity, .candidate, none⟩

/-- A new child, which takes over its parent's bound. -/
def child (n : Node α) (id : Nat) (branch : Branch α) : Node α :=
  ⟨id, some n.id, n.depth + 1, some branch, n.bound, .candidate, none⟩

/-- Whether the node's bound cannot beat an incumbent. -/
def canPrune (n : Node α) (incumbent : α) : Bool := n.bound ≤ incumbent

end Node

end BranchBound
