import BranchBound.Relaxation.Oracle
import BranchBound.Selection.Candidate

/-!
# Scoring

The part of a search that choosing a branching variable reads and refines: the rule in effect, the
oracle, the pseudocosts, and counts of scoring solves. A computation that fails leaves it as it was
at the failure.

* `Scoring`, `ScoringM`: the state and computations on it.
* `ask`, `learn`, `note`: the ways it changes.
-/

namespace BranchBound

open Relaxation

/-- What the choice of a branching variable reads and refines. -/
structure Scoring (σ α : Type) where
  /-- The rule in effect. -/
  rule : BranchingRule α
  oracle : Oracle σ
  table : PseudocostTable α
  /-- Scoring solves that reached an optimum. -/
  fullResolves : Nat
  /-- Scoring solves stopped by their limit. -/
  partialResolves : Nat
  journal : Array (Note α)

/-- A computation that may fail, and keeps the state of the failure. -/
abbrev ScoringM (σ α : Type) := ExceptT (SolveError α) (StateM (Scoring σ α))

namespace Scoring

variable {σ α : Type} [Scalar α]

/-- Before anything was asked. -/
def new (rule : BranchingRule α) (objective : List α) (backend : σ) : Scoring σ α :=
  ⟨rule, .new backend, .ofObjective objective, 0, 0, #[]⟩

/-- Notes something down. -/
def note (n : Note α) : ScoringM σ α Unit :=
  modify fun s => { s with journal := s.journal.push n }

/-- The value, or a failure at an index that does not exist. -/
def inRange {β : Type} (index : Nat) : Option β → ScoringM σ α β
  | some b => pure b
  | none => throw (.outOfRange index)

/-- Puts a request to the oracle. -/
def ask (request : Oracle σ → Reply α × Oracle σ) : ScoringM σ α (Answer α) := do
  let s ← get
  let (reply, oracle) := request s.oracle
  set { s with oracle, journal := s.journal ++ reply.notes.toArray }
  match reply.outcome with
  | .ok answer => pure answer
  | .error e => throw e

/-- Adds an observation to the pseudocosts. -/
def learn (branch : Branch α) (parent child : α) : ScoringM σ α Unit := do
  let s ← get
  let (table, changed) ← inRange branch.var (s.table.update? branch parent child)
  set { s with table }
  match changed with
  | some entry => note (.sample branch entry)
  | none => pure ()

end Scoring

/-- What is known about the node that is branched. -/
structure NodePoint (α : Type) where
  /-- The box its relaxation was solved in. -/
  box : Box α
  /-- Optimum of its relaxation. -/
  x : List α
  /-- Value of its relaxation. -/
  relax : α
  depth : Nat

end BranchBound
