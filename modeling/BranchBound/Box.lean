import BranchBound.Problem.Basic

/-!
# Boxes

The bounds of one subproblem. Bounds only ever get tighter: a looser one leaves the box as it is.
Tightening a variable that has no bound fails.
-/

namespace BranchBound

/-- Lower and upper bounds of every variable. -/
structure Box (α : Type) where
  lower : List α
  upper : List α

namespace Box

variable {α : Type} [Scalar α]

/-- The box of a whole problem. -/
def root (p : Problem α) (binaryVars : Bool) : Box α where
  lower := List.replicate p.numVars 0
  upper := p.types.map fun t => if binaryVars ∨ t = .binary then 1 else Scalar.infinity

/-- At most `value` for a variable. -/
def tightenUpper? (b : Box α) (var : Nat) (value : α) : Option (Box α) :=
  if var < b.upper.length then
    some { b with upper := b.upper.modify var fun u => Scalar.minNum u value }
  else none

/-- At least `value` for a variable. -/
def tightenLower? (b : Box α) (var : Nat) (value : α) : Option (Box α) :=
  if var < b.lower.length then
    some { b with lower := b.lower.modify var fun l => Scalar.maxNum l value }
  else none

/-- Whether every domain holds a value. -/
def consistent (b : Box α) : Bool := (b.lower.zip b.upper).all fun (l, u) => decide (l ≤ u)

/-- Whether two boxes have equal bounds. -/
def same (a b : Box α) : Bool := a.lower == b.lower && a.upper == b.upper

end Box

end BranchBound
