import BranchBound.Relaxation.Backend

/-!
# The scripted backend

Replies with given answers in order, the last one over and over, and records what it was asked. It
makes a search reproducible without a linear program solver.
-/

namespace BranchBound.Relaxation

variable {α : Type}

/-- Answers still to be given, and the requests so far. -/
structure Script (α : Type) where
  replies : List (Except (SolveError α) (Answer α))
  calls : List (Box α × Option Nat)
  modes : List LpMode

namespace Script

/-- A script that was not asked anything. -/
def new (replies : List (Except (SolveError α) (Answer α))) : Script α := ⟨replies, [], []⟩

/-- The next reply and those after it; a single one stays. -/
def next [Scalar α] :
    List (Except (SolveError α) (Answer α)) →
      Except (SolveError α) (Answer α) × List (Except (SolveError α) (Answer α))
  | [] => (.ok (.infeasible 0), [])
  | [r] => (r, [r])
  | r :: rest => (r, rest)

end Script

/-- The backend that follows a script. -/
def scripted [Scalar α] : Backend (Script α) α where
  solve _ box cap s :=
    let (reply, rest) := Script.next s.replies
    (⟨reply, []⟩, { s with replies := rest, calls := s.calls ++ [(box, cap)] })
  setMode mode s := ([], { s with modes := s.modes ++ [mode] })

end BranchBound.Relaxation
