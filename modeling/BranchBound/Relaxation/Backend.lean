import BranchBound.Error
import BranchBound.Journal
import BranchBound.Box

/-!
# Backends

A backend solves the relaxation of a problem in a box. It is a state machine: every request gives a
reply and the next state, so a backend may remember what it was asked.

A limit on iterations makes a request a scoring request, whose answer may stop early with an upper
bound.
-/

namespace BranchBound.Relaxation

/-- An answer or an error, with what was noted on the way. -/
structure Reply (α : Type) where
  outcome : Except (SolveError α) (Answer α)
  notes : List (Note α)

/-- A solver of relaxations with states `σ`. -/
structure Backend (σ α : Type) where
  /-- Solves the relaxation in a box, within a limit on iterations if one is given. -/
  solve : Problem α → Box α → Option Nat → σ → Reply α × σ
  /-- Asks for a simplex variant. -/
  setMode : LpMode → σ → List (Note α) × σ

end BranchBound.Relaxation
