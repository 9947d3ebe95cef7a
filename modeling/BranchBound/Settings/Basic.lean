import BranchBound.Strategy.Names

/-!
# Settings of a search

When a search stops, which strategies it uses, and what it reports.

* `Settings.standard`, `Settings.reporting`, `Settings.ofNames`: starting points.
* `Settings.validate`: the first thing wrong with the settings.
-/

namespace BranchBound

variable {α : Type}

/-- Settings of a search. -/
structure Settings (α : Type) where
  /-- Largest number of nodes to process. -/
  maxNodes : Nat
  /-- Time limit in milliseconds, if there is one. -/
  timeLimit : Option Nat
  /-- How far a value may lie from a whole number and still count as one. -/
  integralityTol : α
  /-- Depth at which a fractional node is closed. Without one, binary domains use the number of
  variables and others have no limit. -/
  depthLimit : Option Nat
  rule : BranchingRule α
  selection : NodeSelection
  /-- Look at every node, whatever its bound. -/
  enumerateAll : Bool
  /-- Restrict every variable to `[0, 1]`. -/
  binaryVars : Bool
  lpMode : LpMode
  lp : LinearProgram.Settings α
  /-- Report progress. -/
  verbose : Bool
  /-- Nodes between two reports. -/
  logInterval : Nat

namespace Settings

variable [Scalar α]

/-- A million nodes, a tolerance of one in a thousand, depth first on the most fractional variable
of binary ones, without reports. -/
def standard : Settings α where
  maxNodes := 1000000
  timeLimit := none
  integralityTol := Scalar.tenth 3
  depthLimit := none
  rule := .mostFractional
  selection := .depthFirst
  enumerateAll := false
  binaryVars := true
  lpMode := .dynamic
  lp := .standard
  verbose := false
  logInterval := 100

/-- Standard settings with a report after every node. -/
def reporting : Settings α := { standard with verbose := true, logInterval := 1 }

/-- Standard settings with strategies given by name. -/
def ofNames (rule selection : String) : Except (ConfigFault α) (Settings α) := do
  let rule ← BranchingRule.parse rule
  let selection ← NodeSelection.parse selection
  pure { standard with rule, selection }

/-- Another branching rule. -/
def withRule (s : Settings α) (rule : BranchingRule α) : Settings α := { s with rule }

/-- Another order of nodes. -/
def withSelection (s : Settings α) (selection : NodeSelection) : Settings α :=
  { s with selection }

/-- A time limit in seconds, kept in whole milliseconds. -/
def withTimeLimit (s : Settings α) (seconds : α) : Settings α :=
  { s with timeLimit := some (Scalar.toCount (seconds * Scalar.ofNat 1000)) }

/-- Another limit on nodes. -/
def withMaxNodes (s : Settings α) (n : Nat) : Settings α := { s with maxNodes := n }

/-- Variables range over all nonnegative values. -/
def generalInteger (s : Settings α) : Settings α := { s with binaryVars := false }

/-- Every node is looked at. -/
def completeEnumeration (s : Settings α) : Settings α := { s with enumerateAll := true }

/-- Parameters of reliability branching allow at least one pivot and one candidate, and weigh gains
by a share of one. -/
def validateRule : BranchingRule α → Except (ConfigFault α) Unit
  | .reliability r => do
    if r.iterationCap = 0 then throw .iterationCap
    if ¬ (0 ≤ r.weight ∧ r.weight ≤ 1) then throw (.scoreWeight r.weight)
    if r.lookahead = 0 then throw .lookahead
  | _ => pure ()

/-- Checks the tolerance, the reporting interval, the rule and the solver's settings, in this
order. -/
def validate (s : Settings α) : Except (ConfigFault α) Unit := do
  if ¬ (0 < s.integralityTol ∧ s.integralityTol < 1 / Scalar.ofNat 2) then
    throw (.integralityTol s.integralityTol)
  if s.logInterval = 0 then throw .logInterval
  validateRule s.rule
  s.lp.validate.mapError .lp

end Settings

end BranchBound
