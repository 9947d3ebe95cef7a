import BranchBound.Branch

/-!
# Pseudocosts

For every variable and direction, the mean loss of objective per unit of movement over the
branchings seen so far. Before the first one, the size of the variable's objective coefficient
stands in.

* `PseudocostTable.update?`: adds one observation.
* `PseudocostTable.gains?`: predicted losses of both children of a branching.

Asking for a variable that is not in the table fails.
-/

namespace BranchBound

variable {α : Type} [Scalar α]

/-- Running mean of one variable in one direction. -/
structure Pseudocost (α : Type) where
  estimate : α
  /-- Number of observations in the mean. -/
  count : Nat

namespace Pseudocost

/-- Stand-in before the first observation. -/
def seed (coefficient : α) : Pseudocost α := ⟨Scalar.abs coefficient, 0⟩

/-- The mean with one more observation. -/
def observe (p : Pseudocost α) (loss : α) : Pseudocost α :=
  let n : α := Scalar.ofNat p.count
  ⟨(p.estimate * n + loss) / (n + 1), p.count + 1⟩

end Pseudocost

/-- Pseudocosts of all variables in both directions. -/
structure PseudocostTable (α : Type) where
  down : List (Pseudocost α)
  up : List (Pseudocost α)

namespace PseudocostTable

/-- Both directions start from the objective coefficients. -/
def ofObjective (objective : List α) : PseudocostTable α :=
  ⟨objective.map .seed, objective.map .seed⟩

/-- The entries of one direction. -/
def side (t : PseudocostTable α) : Sense → List (Pseudocost α)
  | .down => t.down
  | .up => t.up

/-- Replaces an entry. -/
def set (t : PseudocostTable α) (sense : Sense) (var : Nat) (p : Pseudocost α) :
    PseudocostTable α :=
  match sense with
  | .down => { t with down := t.down.set var p }
  | .up => { t with up := t.up.set var p }

/-- Whether a branching tells anything: it moved the variable, and both objectives are finite. -/
def informative (b : Branch α) (parent child : α) : Bool :=
  !(decide (b.distance ≤ 0) || !Scalar.isFinite parent || !Scalar.isFinite child)

/-- The table with one more observation, and the entry that changed, if any did. -/
def update? (t : PseudocostTable α) (b : Branch α) (parent child : α) :
    Option (PseudocostTable α × Option (Pseudocost α)) :=
  if informative b parent child then
    (t.side b.sense)[b.var]?.map fun entry =>
      let entry := entry.observe ((parent - child) / b.distance)
      (t.set b.sense b.var entry, some entry)
  else some (t, none)

/-- Predicted losses of the down and the up child of branching a variable at a value. -/
def gains? (t : PseudocostTable α) (var : Nat) (value : α) : Option (α × α) := do
  let down ← t.down[var]?
  let up ← t.up[var]?
  some (down.estimate * (value - Scalar.floor value), up.estimate * (Scalar.ceil value - value))

/-- The smaller of the two predicted losses. -/
def score? (t : PseudocostTable α) (var : Nat) (value : α) : Option α :=
  (t.gains? var value).map fun (down, up) => Scalar.minNum down up

/-- Whether both directions have enough observations. -/
def isReliable? (t : PseudocostTable α) (var : Nat) (minSamples : Nat) : Option Bool := do
  let down ← t.down[var]?
  let up ← t.up[var]?
  some (minSamples ≤ min down.count up.count)

end PseudocostTable

end BranchBound
