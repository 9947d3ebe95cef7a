import BranchBound.Scalar.Basic

/-!
# Sparse matrices

A matrix keeps, for every row, the columns that have a coefficient, in increasing order. A
coefficient given twice for one place counts with the sum of its values.

* `Terms`: one row; `Terms.insert`, `Terms.ofDense`.
* `Terms.coefficient`, `Terms.activity`: what a row says about a column and about a point.
* `SparseMatrix`: the rows with the number of columns.
-/

namespace BranchBound

variable {α : Type} [Scalar α]

/-- A linear form: columns with their coefficients. -/
abbrev Terms (α : Type) := List (Nat × α)

namespace Terms

/-- Adds a coefficient to a column, keeping the columns in order. -/
def insert (column : Nat) (value : α) : Terms α → Terms α
  | [] => [(column, value)]
  | (k, w) :: rest =>
    if column = k then (k, w + value) :: rest
    else if column < k then (column, value) :: (k, w) :: rest
    else (k, w) :: insert column value rest

/-- The nonzero entries of a dense row. -/
def ofDense (row : List α) : Terms α :=
  (row.zipIdx.filter fun (v, _) => v != 0).map fun (v, j) => (j, v)

/-- Coefficient of a column. -/
def coefficient (terms : Terms α) (column : Nat) : α :=
  (terms.filter (·.1 = column)).foldl (fun acc e => acc + e.2) 0

/-- Value of the form at a point. -/
def activity (terms : Terms α) (x : List α) : α :=
  terms.foldl (fun acc e => acc + e.2 * x.getD e.1 0) 0

end Terms

/-- A matrix by its rows. -/
structure SparseMatrix (α : Type) where
  columns : Nat
  rows : List (Terms α)

namespace SparseMatrix

/-- The zero matrix. -/
def empty (rows columns : Nat) : SparseMatrix α := ⟨columns, List.replicate rows []⟩

/-- Adds a value at a place; nothing for a place outside the matrix. -/
def insert? (a : SparseMatrix α) (i j : Nat) (value : α) : Option (SparseMatrix α) :=
  if i < a.rows.length ∧ j < a.columns then
    some { a with rows := a.rows.modify i (Terms.insert j value) }
  else none

/-- The matrix with the given entries, added up in order. -/
def ofEntries? (rows columns : Nat) (entries : List (Nat × Nat × α)) : Option (SparseMatrix α) :=
  entries.foldlM (fun a (i, j, v) => a.insert? i j v) (empty rows columns)

/-- The matrix with the given dense rows, whose zeros are not stored. -/
def ofDense? (columns : Nat) (rows : List (List α)) : Option (SparseMatrix α) :=
  ofEntries? rows.length columns
    (rows.zipIdx.flatMap fun (row, i) => (Terms.ofDense row).map fun (j, v) => (i, j, v))

/-- The stored entries, row by row. -/
def entries (a : SparseMatrix α) : List (Nat × Nat × α) :=
  a.rows.zipIdx.flatMap fun (terms, i) => terms.map fun (j, v) => (i, j, v)

end SparseMatrix

end BranchBound
