import BranchBound.Scalar.Basic

/-!
# The incumbent

The best integer point of a search so far, and how far a bound lies above it.
-/

namespace BranchBound

variable {α : Type} [Scalar α]

/-- Relative distance of a bound above a value; infinite if either is. -/
def relativeGap (value bound : α) : α :=
  if Scalar.isInfinite value || Scalar.isInfinite bound then Scalar.infinity
  else Scalar.maxNum ((bound - value) / Scalar.maxNum (Scalar.abs value) (Scalar.tenth 10)) 0

/-- The best integer point and its objective. -/
structure Incumbent (α : Type) where
  point : Option (List α)
  objective : α

namespace Incumbent

/-- No point yet. -/
def none : Incumbent α := ⟨.none, -Scalar.infinity⟩

/-- Whether there is a point. -/
def hasPoint (i : Incumbent α) : Bool := i.point.isSome

/-- Whether a point with this objective would be strictly better. -/
def improvedBy (i : Incumbent α) (objective : α) : Bool := i.objective < objective

/-- The incumbent after a point was offered. -/
def offer (i : Incumbent α) (x : List α) (objective : α) : Incumbent α :=
  if i.improvedBy objective then ⟨some x, objective⟩ else i

/-- The objective after an offer is the better of the two. -/
theorem objective_offer (i : Incumbent α) (x : List α) (objective : α) :
    (i.offer x objective).objective
      = if i.objective < objective then objective else i.objective := by
  simp only [offer, improvedBy, decide_eq_true_eq]
  split <;> rfl

/-- Gap to a bound. -/
def gap (i : Incumbent α) (bound : α) : α := relativeGap i.objective bound

end Incumbent

end BranchBound
