import BranchBound.Error

/-!
# Mixed-integer problems

Maximize `objective · x` subject to linear rows `activity ≤ rhs`, with `x ≥ 0` and some or all
variables integer. Domains are `[0, 1]` or `[0, ∞)`; a binary variable is always capped at one.

* `Problem.ofRows`, `Problem.ofDense`, `Problem.withTypes`: the constructors, with their checks.
* `Problem.relaxation`: the linear program under given bounds.
* `Problem.feasible`, `Problem.integerFeasible?`, `Problem.fractional?`: what a point satisfies.

Readings of a point at an integer variable fail where the point is too short.
-/

namespace BranchBound

/-- Domain of a variable. -/
inductive VarType where
  | continuous
  | integer
  /-- Zero or one. -/
  | binary
deriving DecidableEq

/-- A named inequality. -/
structure Row (α : Type) where
  name : String
  terms : Terms α
  rhs : α

/-- A mixed-integer problem. -/
structure Problem (α : Type) where
  /-- Coefficients of the objective, which is maximized. -/
  objective : List α
  rows : List (Row α)
  types : List VarType

/-- How far a point is from being integer: how many variables, and the sum of their distances. -/
structure Infeasibility (α : Type) where
  count : Nat
  sum : α

namespace Problem

variable {α : Type} [Scalar α]

/-! ## Construction -/

/-- Checks one row of coefficients against the number of variables. -/
def checkRow (n : Nat) (name : String) (coefficients : List α) : Except ProblemFault Unit := do
  if coefficients.length ≠ n then throw (.rowLength name coefficients.length n)
  if let some j := coefficients.findIdx? (!Scalar.isFinite ·) then
    throw (.coefficientNotFinite name j)

/-- A problem from named rows, all variables integer. The objective is checked first, then the rows
one by one, then the right-hand sides. -/
def ofRows (objective : List α) (rows : List (String × List α)) (rhs : List α) :
    Except ProblemFault (Problem α) := do
  let n := objective.length
  if let some j := objective.findIdx? (!Scalar.isFinite ·) then throw (.objectiveNotFinite j)
  rows.forM fun (name, coefficients) => checkRow n name coefficients
  if rhs.length ≠ rows.length then throw (.rhsLength rhs.length rows.length)
  if let some ((name, _), _) := (rows.zip rhs).find? fun (_, b) => !Scalar.isFinite b then
    throw (.rhsNotFinite name)
  pure
    { objective
      rows := (rows.zip rhs).map fun ((name, coefficients), b) =>
        { name, terms := Terms.ofDense coefficients, rhs := b }
      types := List.replicate n .integer }

/-- A problem from rows without names, which are called `c0`, `c1` and so on. -/
def ofDense (objective : List α) (rows : List (List α)) (rhs : List α) :
    Except ProblemFault (Problem α) :=
  ofRows objective (rows.zipIdx.map fun (row, i) => (s!"c{i}", row)) rhs

/-- The same problem with other types. -/
def withTypes (p : Problem α) (types : List VarType) : Except ProblemFault (Problem α) :=
  if types.length ≠ p.objective.length then
    throw (.typeCount types.length p.objective.length)
  else pure { p with types }

/-! ## Views -/

/-- Number of variables. -/
def numVars (p : Problem α) : Nat := p.objective.length

/-- Number of rows. -/
def numRows (p : Problem α) : Nat := p.rows.length

/-- Variables that must take whole values, in order. -/
def integerVars (p : Problem α) : List Nat :=
  (p.types.zipIdx.filter fun (t, _) => t ≠ .continuous).map (·.2)

/-- Whether a variable must take whole values; nothing for a variable that does not exist. -/
def isInteger? (p : Problem α) (var : Nat) : Option Bool :=
  p.types[var]?.map fun t => t ≠ .continuous

/-- The coefficients of all rows. -/
def matrix (p : Problem α) : SparseMatrix α := ⟨p.numVars, p.rows.map (·.terms)⟩

/-- Whether every domain ends at one. -/
def isBinaryDomain (p : Problem α) (binaryVars : Bool) : Bool :=
  binaryVars || p.types.all fun t => t = .binary

/-- The linear program that drops integrality, as a minimization under the given bounds. -/
def relaxation (p : Problem α) (lower upper : List α) : LinearProgram α where
  cost := p.objective.map fun c => -c
  matrix := p.matrix
  rhs := p.rows.map (·.rhs)
  lower := lower
  upper := upper

/-! ## Points -/

/-- Objective of a point. -/
def objectiveValue (p : Problem α) (x : List α) : α := Scalar.dot p.objective x

/-- Whether a point has the right length, is nonnegative and satisfies every row, all up to a
tolerance. -/
def feasible (p : Problem α) (x : List α) (tol : α) : Bool :=
  x.length = p.numVars && !(x.any fun v => decide (v < -tol))
    && p.rows.all fun r => decide (r.terms.activity x ≤ r.rhs + tol)

/-- Whether the values at the given variables are whole up to a tolerance. The first one that is not
decides, so later ones need not exist. -/
def wholeAt? (x : List α) (tol : α) : List Nat → Option Bool
  | [] => some true
  | i :: rest =>
    match x[i]? with
    | none => none
    | some v =>
      if Scalar.abs (Scalar.round v - v) ≤ tol then wholeAt? x tol rest else some false

/-- Whether all integer variables are whole up to a tolerance. -/
def integerFeasible? (p : Problem α) (x : List α) (tol : α) : Option Bool :=
  wholeAt? x tol p.integerVars

/-- A variable nearer to a whole number than this is no candidate for branching. -/
def fractionalTol : α := Scalar.tenth 8

/-- Integer variables with their values, in order. -/
def integerValues? (p : Problem α) (x : List α) : Option (List (Nat × α)) :=
  p.integerVars.mapM fun i => x[i]?.map fun v => (i, v)

/-- The fractional integer variables with their values, in order. -/
def fractional? (p : Problem α) (x : List α) : Option (List (Nat × α)) :=
  (p.integerValues? x).map fun vs =>
    vs.filter fun (_, v) => decide (fractionalTol < Scalar.fractionality v)

/-- How far a point is from being integer. -/
def infeasibility? (p : Problem α) (x : List α) : Option (Infeasibility α) :=
  (p.fractional? x).map fun vs =>
    { count := vs.length
      sum := vs.foldl (fun acc (_, v) => acc + Scalar.fractionality v) 0 }

end Problem

end BranchBound
