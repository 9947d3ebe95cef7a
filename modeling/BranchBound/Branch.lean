import BranchBound.Box

/-!
# Branches

The single bound a node adds to its parent's box: the variable goes down to the whole number below
its value, or up to the one above.
-/

namespace BranchBound

/-- Direction of a branch. -/
inductive Sense where
  | down
  | up
deriving DecidableEq

/-- The relation a branch imposes. -/
def Sense.text : Sense → String
  | .down => "<="
  | .up => ">="

/-- A bound on one variable. -/
structure Branch (α : Type) where
  var : Nat
  /-- Value of the variable before branching. -/
  value : α
  sense : Sense
  /-- The bound. -/
  rhs : α

namespace Branch

variable {α : Type} [Scalar α]

/-- At most the whole number below the value. -/
def down (var : Nat) (value : α) : Branch α := ⟨var, value, .down, Scalar.floor value⟩

/-- At least the whole number above the value. -/
def up (var : Nat) (value : α) : Branch α := ⟨var, value, .up, Scalar.ceil value⟩

/-- How far the bound moves the variable. -/
def distance (b : Branch α) : α := Scalar.abs (b.value - b.rhs)

/-- Adds the bound to a box. -/
def restrict? (b : Branch α) (box : Box α) : Option (Box α) :=
  match b.sense with
  | .down => box.tightenUpper? b.var b.rhs
  | .up => box.tightenLower? b.var b.rhs

/-- The inequality. -/
def text [ScalarText α] (b : Branch α) : String :=
  s!"x{b.var} {b.sense.text} {ScalarText.display b.rhs}"

end Branch

end BranchBound
