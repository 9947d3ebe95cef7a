import BranchBound.LinearProgram.Basic

/-!
# Errors

Everything that can stop a search or keep it from starting, as causes. The wording is in one place:
a kind gives the opening words, a cause the rest.

* `ProblemFault`, `ConfigFault`: what is wrong with a problem or with settings.
* `SolveError`: any cause, with `SolveError.kind` and `SolveError.message`.
-/

namespace BranchBound

variable {α : Type}

/-- Wording of an error of the linear program solver. -/
def LinearProgram.Error.message [ScalarText α] : LinearProgram.Error α → String
  | .data f => "Invalid LP: " ++ f.message
  | .settings f => "Invalid LP settings: " ++ f.message

/-- What can be wrong with the data of a problem. -/
inductive ProblemFault where
  | objectiveNotFinite (index : Nat)
  | rowLength (name : String) (found expected : Nat)
  | coefficientNotFinite (name : String) (index : Nat)
  | rhsLength (found expected : Nat)
  | rhsNotFinite (name : String)
  | typeCount (found expected : Nat)

/-- Wording of a fault in a problem. -/
def ProblemFault.message : ProblemFault → String
  | .objectiveNotFinite j => s!"objective coefficient {j} is not finite"
  | .rowLength name found expected =>
    s!"constraint '{name}' has {found} coefficients but there are {expected} variables"
  | .coefficientNotFinite name j =>
    s!"constraint '{name}' has a non-finite coefficient for variable {j}"
  | .rhsLength found expected => s!"rhs has length {found}, expected {expected}"
  | .rhsNotFinite name => s!"rhs of constraint '{name}' is not finite"
  | .typeCount found expected => s!"{found} variable types given for {expected} variables"

/-- What can be wrong with the settings of a search. -/
inductive ConfigFault (α : Type) where
  | unknownRule (name : String)
  | unknownSelection (name : String)
  | unknownLpMode (name : String)
  | integralityTol (value : α)
  | logInterval
  | iterationCap
  | scoreWeight (value : α)
  | lookahead
  | lp (fault : LinearProgram.SettingsFault α)

/-- Wording of a fault in the settings. -/
def ConfigFault.message [ScalarText α] : ConfigFault α → String
  | .unknownRule name => s!"unknown branching strategy '{name}'"
  | .unknownSelection name => s!"unknown search strategy '{name}'"
  | .unknownLpMode name => s!"unknown LP mode '{name}'"
  | .integralityTol v => "int_feas_tol must lie in (0, 0.5), got " ++ ScalarText.display v
  | .logInterval => "log_freq must be positive"
  | .iterationCap => "reliability iteration cap must be at least 1"
  | .scoreWeight v => "reliability score weight must lie in [0, 1], got " ++ ScalarText.display v
  | .lookahead => "reliability lookahead must be at least 1"
  | .lp f => f.message

/-- Kinds of errors. -/
inductive ErrorKind where
  | problem
  | config
  | relaxation
  | internal
  | lpData
  | lpSettings
  /-- A request that names something that does not exist. -/
  | misuse
deriving DecidableEq

/-- Opening words of the errors of a kind. -/
def ErrorKind.opening : ErrorKind → String
  | .problem => "Invalid problem: "
  | .config => "Invalid configuration: "
  | .relaxation => "Master solve failed: "
  | .internal => "Internal error: "
  | .lpData => "LP engine error: Invalid LP: "
  | .lpSettings => "LP engine error: Invalid LP settings: "
  | .misuse => "Out of range: "

/-- Why a search stops without a solution, or does not start. -/
inductive SolveError (α : Type) where
  | problem (fault : ProblemFault)
  | config (fault : ConfigFault α)
  /-- A backend answered with a point of the wrong length. -/
  | answerLength (found expected : Nat)
  /-- A node that is neither integer nor closed has nothing to branch on. -/
  | noCandidate (node : Nat)
  | lp (error : LinearProgram.Error α)
  /-- An error a backend declares in its own words. -/
  | backend (kind : ErrorKind) (text : String)
  /-- A variable or node that does not exist. -/
  | outOfRange (index : Nat)
  /-- Progress is to be reported every zero nodes. -/
  | zeroLogInterval

namespace SolveError

/-- Kind of an error. -/
def kind : SolveError α → ErrorKind
  | .problem _ => .problem
  | .config _ => .config
  | .answerLength .. => .relaxation
  | .noCandidate _ => .internal
  | .lp (.data _) => .lpData
  | .lp (.settings _) => .lpSettings
  | .backend kind _ => kind
  | .outOfRange _ => .misuse
  | .zeroLogInterval => .misuse

/-- What an error says after the opening words of its kind. -/
def detail [ScalarText α] : SolveError α → String
  | .problem f => f.message
  | .config f => f.message
  | .answerLength found expected => s!"backend returned {found} values for {expected} variables"
  | .noCandidate node => s!"node {node} has no fractional integer variable"
  | .lp (.data f) => f.message
  | .lp (.settings f) => f.message
  | .backend _ text => text
  | .outOfRange i => s!"index {i}"
  | .zeroLogInterval => "log interval 0"

/-- Full wording of an error. -/
def message [ScalarText α] (e : SolveError α) : String := e.kind.opening ++ e.detail

end SolveError

end BranchBound
