import BranchBound.LinearProgram.Matrix
import BranchBound.Scalar.Text

/-!
# Linear programs

A linear program in bounded form: minimize `cost · x` subject to `matrix x ≤ rhs` and
`lower ≤ x ≤ upper`, where bounds may be infinite. Maximization negates the cost.

* `LinearProgram`, `LinearProgram.validate`: the data, and the first thing wrong with it.
* `LinearProgram.Settings`: tolerances and limits of a solve.
* `LinearProgram.Status`, `LinearProgram.Error`: how a solve ends, and why it does not start.
-/

namespace BranchBound

/-- A linear program in bounded form. -/
structure LinearProgram (α : Type) where
  cost : List α
  matrix : SparseMatrix α
  rhs : List α
  lower : List α
  upper : List α

namespace LinearProgram

variable {α : Type}

/-- What can be wrong with the data of a linear program. -/
inductive DataFault (α : Type) where
  | rowCount (found expected : Nat)
  | columnCount (found expected : Nat)
  | lowerLength (found expected : Nat)
  | upperLength (found expected : Nat)
  | costNotFinite (index : Nat)
  | rhsNotFinite (index : Nat)
  | coefficientNotFinite
  | boundUndefined (index : Nat)
  | boundEmpty (index : Nat) (lower upper : α)

/-- Wording of a fault in the data. -/
def DataFault.message [ScalarText α] : DataFault α → String
  | .rowCount found expected => s!"A has {found} rows, expected {expected}"
  | .columnCount found expected => s!"A has {found} cols, expected {expected}"
  | .lowerLength found expected => s!"lb has length {found}, expected {expected}"
  | .upperLength found expected => s!"ub has length {found}, expected {expected}"
  | .costNotFinite j => s!"c[{j}] is not finite"
  | .rhsNotFinite i => s!"b[{i}] is not finite"
  | .coefficientNotFinite => "A contains a non-finite coefficient"
  | .boundUndefined j => s!"bounds of variable {j} are NaN"
  | .boundEmpty j lo hi =>
    s!"variable {j} has an empty infinite bound [{ScalarText.display lo}, {ScalarText.display hi}]"

section Data

variable [Scalar α]

/-- Number of variables. -/
def numVars (lp : LinearProgram α) : Nat := lp.cost.length

/-- Number of inequalities. -/
def numRows (lp : LinearProgram α) : Nat := lp.rhs.length

/-- A pair of bounds is usable unless one of them is undefined or no value lies on its side. -/
def checkBound (j : Nat) (lo hi : α) : Except (DataFault α) Unit :=
  if Scalar.isUndefined lo || Scalar.isUndefined hi then throw (.boundUndefined j)
  else if lo == Scalar.infinity || hi == -Scalar.infinity then throw (.boundEmpty j lo hi)
  else pure ()

/-- Checks dimensions first, then that the numbers are usable; the first fault is reported. -/
def validate (lp : LinearProgram α) : Except (DataFault α) Unit := do
  let n := lp.numVars
  let m := lp.numRows
  if lp.matrix.rows.length ≠ m then throw (.rowCount lp.matrix.rows.length m)
  if lp.matrix.columns ≠ n then throw (.columnCount lp.matrix.columns n)
  if lp.lower.length ≠ n then throw (.lowerLength lp.lower.length n)
  if lp.upper.length ≠ n then throw (.upperLength lp.upper.length n)
  if let some j := lp.cost.findIdx? (!Scalar.isFinite ·) then throw (.costNotFinite j)
  if let some i := lp.rhs.findIdx? (!Scalar.isFinite ·) then throw (.rhsNotFinite i)
  if lp.matrix.entries.any (fun e => !Scalar.isFinite e.2.2) then throw .coefficientNotFinite
  (lp.lower.zip lp.upper).zipIdx.forM fun ((lo, hi), j) => checkBound j lo hi

/-- The first variable whose lower bound exceeds its upper bound, with both bounds. -/
def crossedBound? (lp : LinearProgram α) : Option (Nat × α × α) :=
  ((lp.lower.zip lp.upper).zipIdx.find? fun ((lo, hi), _) => hi < lo).map
    fun ((lo, hi), j) => (j, lo, hi)

end Data

/-! ## Settings -/

/-- Tolerances and limits of a solve. -/
structure Settings (α : Type) where
  /-- Largest number of pivots. -/
  maxIterations : Nat
  /-- How far a value may lie outside a bound, relative to the bound. -/
  feasibilityTol : α
  /-- Entries of the leaving row up to this size cannot be pivots. -/
  pivotTol : α
  /-- Distance of the box that stands in for an infinite bound. -/
  bigBound : α
  /-- Whether every pivot is reported. -/
  verbose : Bool

/-- What can be wrong with the settings of a solve. -/
inductive SettingsFault (α : Type) where
  | feasibilityTol (value : α)
  | pivotTol (value : α)
  | bigBound (value : α)

/-- Wording of a fault in the settings. -/
def SettingsFault.message [ScalarText α] : SettingsFault α → String
  | .feasibilityTol v => "tol_feas must be positive, got " ++ ScalarText.display v
  | .pivotTol v => "tol_pivot must be positive, got " ++ ScalarText.display v
  | .bigBound v => "big_bound must be finite and positive, got " ++ ScalarText.display v

namespace Settings

variable [Scalar α]

/-- Fifty thousand pivots, tolerances of `10^(-9)` and a box of `10^7`. -/
def standard : Settings α where
  maxIterations := 50000
  feasibilityTol := Scalar.tenth 9
  pivotTol := Scalar.tenth 9
  bigBound := Scalar.ofNat 10000000
  verbose := false

/-- The same tolerances with another limit on pivots. -/
def withMaxIterations (s : Settings α) (n : Nat) : Settings α := { s with maxIterations := n }

/-- Tolerances are positive, and the box is positive and finite. -/
def validate (s : Settings α) : Except (SettingsFault α) Unit := do
  if ¬ 0 < s.feasibilityTol then throw (.feasibilityTol s.feasibilityTol)
  if ¬ 0 < s.pivotTol then throw (.pivotTol s.pivotTol)
  if ¬ (Scalar.isFinite s.bigBound ∧ 0 < s.bigBound) then throw (.bigBound s.bigBound)

end Settings

/-! ## Outcomes -/

/-- How a solve ends. -/
inductive Status where
  /-- An optimal basis was found. -/
  | optimal
  /-- No point satisfies the inequalities and bounds. -/
  | primalInfeasible
  /-- The objective is unbounded below. -/
  | dualInfeasible
  /-- The limit on pivots was reached; the objective is a lower bound. -/
  | maxIterations
  /-- Some value is no longer finite. -/
  | numericalError
deriving DecidableEq

/-- Name of a status. -/
def Status.text : Status → String
  | .optimal => "Optimal"
  | .primalInfeasible => "Primal Infeasible"
  | .dualInfeasible => "Dual Infeasible"
  | .maxIterations => "MaxIters"
  | .numericalError => "NumericalError"

/-- Why a solve does not start. -/
inductive Error (α : Type) where
  | data (fault : DataFault α)
  | settings (fault : SettingsFault α)

end LinearProgram

end BranchBound
