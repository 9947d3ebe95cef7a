import BranchBound.LinearProgram.Basic

/-!
# Simplex tableaus

A bounded linear program with `m` inequalities in `n` variables becomes a system of `m` equations in
`n + m` columns by adding one slack per row; infinite bounds of the variables become a finite box.
A tableau is that system solved for one basic column per row.

* `StandardForm`: the equations with costs and bounds of all columns.
* `Tableau`: an equivalent system, its basis, its reduced costs, and where every column rests.
* `Tableau.values`: the point a tableau stands for.
* `Tableau.leaving?`, `Tableau.entering?`, `Tableau.pivot`: one step of the dual simplex.

Rows and columns are bounded indices, so no access can miss.
-/

namespace BranchBound.LinearProgram

variable {α : Type} [Scalar α] {m n : Nat}

/-- Equations with costs and bounds over `n` variables followed by `m` slacks. -/
structure StandardForm (α : Type) (m n : Nat) where
  rows : Vector (Vector α (n + m)) m
  rhs : Vector α m
  cost : Vector α (n + m)
  lower : Vector α (n + m)
  upper : Vector α (n + m)

/-- A finite box in place of infinite bounds: a missing bound lies `big` beyond the other one or
beyond zero, whichever is farther. -/
def boxedBounds (lo hi big : α) : α × α :=
  match Scalar.isFinite lo, Scalar.isFinite hi with
  | true, true => (lo, hi)
  | true, false => (lo, Scalar.maxNum lo 0 + big)
  | false, true => (Scalar.minNum hi 0 - big, hi)
  | false, false => (-big, big)

/-- The finite bounds of variable `j`. -/
def boxedVar (lp : LinearProgram α) (big : α) (j : Nat) : α × α :=
  boxedBounds (lp.lower.getD j 0) (lp.upper.getD j 0) big

/-- The standard form of a linear program, with `big` as the size of the box. -/
def standardForm (lp : LinearProgram α) (big : α) : StandardForm α lp.numRows lp.numVars where
  rows := .ofFn fun i => .ofFn fun j =>
    if j < lp.numVars then Terms.coefficient (lp.matrix.rows.getD i []) j
    else if (j : Nat) = lp.numVars + i then 1
    else 0
  rhs := .ofFn fun i => lp.rhs.getD i 0
  cost := .ofFn fun j => if j < lp.numVars then lp.cost.getD j 0 else 0
  lower := .ofFn fun j => if j < lp.numVars then (boxedVar lp big j).1 else 0
  upper := .ofFn fun j => if j < lp.numVars then (boxedVar lp big j).2 else Scalar.infinity

/-- Where a column rests. -/
inductive Place where
  | basic
  | atLower
  | atUpper
deriving DecidableEq

/-- A system equivalent to the standard form, solved for its basic columns. -/
structure Tableau (α : Type) (m n : Nat) where
  rows : Vector (Vector α (n + m)) m
  /-- Right-hand sides. -/
  beta : Vector α m
  /-- Reduced costs. -/
  reduced : Vector α (n + m)
  /-- The basic column of every row. -/
  basis : Vector (Fin (n + m)) m
  place : Vector Place (n + m)

namespace Tableau

/-- The slacks are basic, and every variable rests at the bound its cost favours. -/
def start (f : StandardForm α m n) : Tableau α m n where
  rows := f.rows
  beta := f.rhs
  reduced := f.cost
  basis := .ofFn (Fin.natAdd n)
  place := .ofFn fun j =>
    if j < n then (if 0 ≤ f.cost[j] then .atLower else .atUpper) else .basic

/-- The basic column of a row. -/
def basicColumn (t : Tableau α m n) (r : Fin m) : Fin (n + m) := t.basis[r]

/-! ## The point of a tableau -/

/-- Value of a column that is not basic. -/
def restingValue (f : StandardForm α m n) (t : Tableau α m n) (j : Fin (n + m)) : α :=
  match t.place[j] with
  | .atLower => f.lower[j]
  | .atUpper => f.upper[j]
  | .basic => 0

/-- Value of the basic column of a row: what the resting columns leave of its right-hand side. -/
def basicValue (f : StandardForm α m n) (t : Tableau α m n) (r : Fin m) : α :=
  (List.finRange (n + m)).foldl
    (fun v j =>
      let a := t.rows[r][j]
      if a != 0 && t.place[j] != .basic then v - a * t.restingValue f j else v)
    t.beta[r]

/-- Value of every column. -/
def values (f : StandardForm α m n) (t : Tableau α m n) : Vector α (n + m) :=
  (List.finRange m).foldl (fun x r => x.set (t.basicColumn r).val (t.basicValue f r))
    (.ofFn (t.restingValue f))

/-! ## Leaving row -/

/-- A row whose basic column has to leave the basis. -/
structure Leaving (m : Nat) where
  row : Fin m
  /-- The column lies below its lower bound; otherwise above its upper bound. -/
  below : Bool

/-- How far a column lies outside its bounds and on which side, if it is beyond the tolerance. -/
def violation? (f : StandardForm α m n) (x : Vector α (n + m)) (tol : α) (p : Fin (n + m)) :
    Option (α × Bool) :=
  let lo := f.lower[p]
  let hi := f.upper[p]
  if x[p] < lo - tol * (1 + Scalar.abs lo) then some (lo - x[p], true)
  else if hi + tol * (1 + Scalar.abs hi) < x[p] then some (x[p] - hi, false)
  else none

/-- The better of the best row so far and row `r`: the larger violation, or under Bland's rule the
lower basic column. The earlier row keeps its place in a tie. -/
def betterLeaving (f : StandardForm α m n) (t : Tableau α m n) (x : Vector α (n + m)) (tol : α)
    (bland : Bool) (best : Option (Leaving m × α)) (r : Fin m) : Option (Leaving m × α) :=
  match violation? f x tol (t.basicColumn r), best with
  | none, _ => best
  | some (size, below), none => some (⟨r, below⟩, size)
  | some (size, below), some (current, currentSize) =>
    let better : Bool :=
      if bland then t.basicColumn r < t.basicColumn current.row else currentSize < size
    if better then some (⟨r, below⟩, size) else best

/-- The row that leaves, or nothing if every basic column lies within its bounds. -/
def leaving? (f : StandardForm α m n) (t : Tableau α m n) (x : Vector α (n + m)) (tol : α)
    (bland : Bool) : Option (Leaving m) :=
  ((List.finRange m).foldl (t.betterLeaving f x tol bland) none).map (·.1)

/-! ## Entering column -/

/-- Ratios closer than this are tied. -/
def ratioTie : α := Scalar.tenth 12

/-- Whether moving a resting column off its bound brings the leaving column back: the sign of its
entry `a` must fit the side it rests on and the side that is violated. -/
def signEligible (place : Place) (below : Bool) (a : α) : Bool :=
  match place, below with
  | .basic, _ => false
  | .atLower, true => a < 0
  | .atUpper, true => 0 < a
  | .atLower, false => 0 < a
  | .atUpper, false => a < 0

/-- Whether a column may enter: its entry is large enough, it is not fixed, and its sign fits. -/
def eligible (f : StandardForm α m n) (t : Tableau α m n) (l : Leaving m) (tol : α)
    (j : Fin (n + m)) : Bool :=
  let a := t.rows[l.row][j]
  !(Scalar.abs a ≤ tol || f.upper[j] ≤ f.lower[j]) && signEligible t.place[j] l.below a

/-- Reduced cost of a column per unit of its entry in the leaving row. -/
def ratio (t : Tableau α m n) (l : Leaving m) (j : Fin (n + m)) : α :=
  Scalar.abs t.reduced[j] / Scalar.abs t.rows[l.row][j]

/-- A candidate for entering, with its ratio and the size of its entry. -/
structure Entering (α : Type) (m n : Nat) where
  column : Fin (n + m)
  ratio : α
  size : α

/-- The better of the best candidate so far and column `j`: a smaller ratio, or, except under
Bland's rule, a larger entry at a tied ratio. -/
def betterEntering (f : StandardForm α m n) (t : Tableau α m n) (l : Leaving m) (tol : α)
    (bland : Bool) (best : Option (Entering α m n)) (j : Fin (n + m)) :
    Option (Entering α m n) :=
  if t.eligible f l tol j then
    let candidate : Entering α m n := ⟨j, t.ratio l j, Scalar.abs t.rows[l.row][j]⟩
    match best with
    | none => some candidate
    | some current =>
      if candidate.ratio < current.ratio - ratioTie ∨
          (bland = false ∧ Scalar.abs (candidate.ratio - current.ratio) ≤ ratioTie ∧
            current.size < candidate.size) then
        some candidate
      else best
  else best

/-- The column that enters, or nothing if no column is eligible. -/
def entering? (f : StandardForm α m n) (t : Tableau α m n) (l : Leaving m) (tol : α)
    (bland : Bool) : Option (Entering α m n) :=
  (List.finRange (n + m)).foldl (t.betterEntering f l tol bland) none

/-! ## Pivot -/

/-- Solves the leaving row for column `q` and eliminates `q` from all other rows and from the
reduced costs; the column that was basic rests at the bound it violated. -/
def pivot (t : Tableau α m n) (l : Leaving m) (q : Fin (n + m)) : Tableau α m n :=
  let entry := t.rows[l.row][q]
  let pivotRow := t.rows[l.row].map (· / entry)
  let pivotBeta := t.beta[l.row] / entry
  { rows := .ofFn fun i =>
      if i = l.row then pivotRow
      else if t.rows[i][q] == 0 then t.rows[i]
      else t.rows[i].zipWith (fun v p => v - t.rows[i][q] * p) pivotRow
    beta := .ofFn fun i =>
      if i = l.row then pivotBeta
      else if t.rows[i][q] == 0 then t.beta[i]
      else t.beta[i] - t.rows[i][q] * pivotBeta
    reduced := (t.reduced.zipWith (fun v p => v - t.reduced[q] * p) pivotRow).set q.val 0
    basis := t.basis.set l.row.val q
    place :=
      let rest : Place := if l.below then .atLower else .atUpper
      (t.place.set (t.basicColumn l.row).val rest).set q.val .basic }

end Tableau

/-- Cost of a point over all columns. -/
def StandardForm.objective (f : StandardForm α m n) (x : Vector α (n + m)) : α :=
  Scalar.dot f.cost.toList x.toList

end BranchBound.LinearProgram
