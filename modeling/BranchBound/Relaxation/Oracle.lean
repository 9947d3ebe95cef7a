import BranchBound.Relaxation.Backend

/-!
# The oracle

Asks a backend and keeps count. The relaxation of a node always counts as a solve; a scoring request
counts only if it reaches an optimum. Iterations are counted over all requests. A reply with a point
of the wrong length is an error, and an error counts for nothing.
-/

namespace BranchBound.Relaxation

variable {σ α : Type} [Scalar α]

/-- A backend's state with counts. -/
structure Oracle (σ : Type) where
  backend : σ
  /-- Solves counted for statistics. -/
  lpSolves : Nat
  /-- Answered requests of any kind. -/
  calls : Nat
  iterations : Nat

namespace Oracle

/-- Nothing asked yet. -/
def new (backend : σ) : Oracle σ := ⟨backend, 0, 0, 0⟩

/-- Whether an answer that gives a bound also gives a value to every variable. -/
def wellFormed (p : Problem α) (a : Answer α) : Bool :=
  !a.hasBound || a.x.length = p.numVars

/-- One request. -/
def call (B : Backend σ α) (p : Problem α) (box : Box α) (cap : Option Nat) (o : Oracle σ) :
    Reply α × Oracle σ :=
  let (reply, backend) := B.solve p box cap o.backend
  match reply.outcome with
  | .error e => (⟨.error e, reply.notes⟩, { o with backend })
  | .ok a =>
    if wellFormed p a then
      (⟨.ok a, reply.notes ++ [.call (o.calls + 1) a.status a.objective a.iterations cap]⟩,
       { o with backend, calls := o.calls + 1, iterations := o.iterations + a.iterations })
    else (⟨.error (.answerLength a.x.length p.numVars), reply.notes⟩, { o with backend })

/-- Counts a solve where the outcome is one. -/
def countIf (counts : Answer α → Bool) (reply : Reply α) (o : Oracle σ) : Oracle σ :=
  match reply.outcome with
  | .ok a => if counts a then { o with lpSolves := o.lpSolves + 1 } else o
  | .error _ => o

/-- Solves the relaxation of a node to the end. -/
def solveNode (B : Backend σ α) (p : Problem α) (box : Box α) (o : Oracle σ) :
    Reply α × Oracle σ :=
  let (reply, o) := call B p box none o
  (reply, countIf (fun _ => true) reply o)

/-- Solves a relaxation for a score, within a limit of at least one iteration. -/
def resolve (B : Backend σ α) (p : Problem α) (box : Box α) (cap : Nat) (o : Oracle σ) :
    Reply α × Oracle σ :=
  let (reply, o) := call B p box (some (max cap 1)) o
  (reply, countIf (·.isOptimal) reply o)

/-- Mean number of iterations of a request; zero before the first. -/
def average (o : Oracle σ) : α :=
  if o.calls = 0 then 0 else Scalar.ofNat o.iterations / Scalar.ofNat o.calls

end Oracle

end BranchBound.Relaxation
