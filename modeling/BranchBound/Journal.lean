import BranchBound.LinearProgram.DualSimplex
import BranchBound.Pseudocost
import BranchBound.Relaxation.Answer
import BranchBound.Solution.Basic
import BranchBound.Strategy.Basic
import BranchBound.Tree.Node

/-!
# The journal

What a search notes down while it works. A `Note` holds the facts; its level and its wording are
given apart, so nothing the search decides depends on text.
-/

namespace BranchBound

variable {α : Type}

/-- How important a note is, most important first. -/
inductive Level where
  | warn
  | info
  | debug
  | trace
deriving DecidableEq

/-- Place of a level; the most important one is first. -/
def Level.rank : Level → Nat
  | .warn => 1
  | .info => 2
  | .debug => 3
  | .trace => 4

/-- Name of a level. -/
def Level.text : Level → String
  | .warn => "warn"
  | .info => "info"
  | .debug => "debug"
  | .trace => "trace"

/-- State of a search in a progress report. -/
structure Progress (α : Type) where
  processed : Nat
  pending : Nat
  bound : α
  incumbent : α
  gap : α
  lpSolves : Nat
  /-- Milliseconds. -/
  elapsed : Nat

/-- Something noted down. -/
inductive Note (α : Type) where
  | lp (event : LinearProgram.Event α)
  | unboundedRelaxation
  | relaxationEnded (status : LinearProgram.Status)
  | modeRequested (mode : LpMode)
  | call (number : Nat) (status : Relaxation.Status) (objective : α) (iterations : Nat)
      (cap : Option Nat)
  | sample (branch : Branch α) (entry : Pseudocost α)
  | walkStopped (stale : Nat)
  | ruleSwitched (depth limit : Nat)
  | started (vars integers rows : Nat)
  | strategy (rule : BranchingRule α) (selection : NodeSelection) (enumerateAll : Bool)
  | pruned (node : Nat) (inherited incumbent : α)
  | infeasibleNode (node depth : Nat)
  | fathomedByBound (node : Nat) (bound incumbent : α)
  | fathomedByDepth (node depth : Nat)
  | fathomedEarly (node : Nat)
  | classified (node depth : Nat) (status : NodeStatus) (bound incumbent : α)
  | newIncumbent (node : Nat) (objective : α)
  | branching (var : Nat) (value score : α)
  | progress (report : Progress α)
  | finished (elapsed : Nat) (status : SolveStatus) (objective : α)
  | totals (created processed lpSolves : Nat)
  | resolves (full stopped bound : Nat)

/-- How durations in milliseconds are written. -/
structure DurationText where
  millis : Nat → String
  seconds : Nat → String

namespace Note

/-- Importance of a note. -/
def level : Note α → Level
  | .unboundedRelaxation | .fathomedEarly _ => .warn
  | .ruleSwitched .. | .started .. | .strategy .. | .newIncumbent .. | .progress _ | .finished ..
  | .totals .. | .resolves .. => .info
  | .relaxationEnded _ | .modeRequested _ | .pruned .. | .infeasibleNode .. | .fathomedByBound ..
  | .fathomedByDepth .. | .classified .. | .branching .. => .debug
  | .lp _ | .call .. | .sample .. | .walkStopped _ => .trace

/-- A number at the right end of a field. -/
def padded (width n : Nat) : String :=
  let text := toString n
  "".pushn ' ' (width - text.length) ++ text

/-- Wording of an event of the linear program solver. -/
def lpText [ScalarText α] : LinearProgram.Event α → String
  | .crossedBounds j lo hi =>
    s!"variable {j} has crossed bounds [{ScalarText.display lo}, {ScalarText.display hi}]"
  | .pivot iteration row below column ratio objective =>
    let side := if below then "lower" else "upper"
    s!"iter {padded 4 iteration}: row {row} leaves ({side}), col {column} enters, "
      ++ s!"ratio {ScalarText.scientific 3 ratio}, obj {ScalarText.scientific 6 objective}"
  | .finished status iterations objective =>
    s!"LP finished: {status.text} after {iterations} iterations, "
      ++ s!"obj {ScalarText.scientific 6 objective}"

/-- Wording of a limit on iterations. -/
def capText : Option Nat → String
  | none => "None"
  | some n => s!"Some({n})"

/-- Wording of a progress report. -/
def progressText [Scalar α] [ScalarText α] (time : DurationText) (r : Progress α) : String :=
  let percent := ScalarText.fixed 2 (r.gap * Scalar.ofNat 100)
  s!"Nodes: {r.processed} ({r.pending} open) | Bound: {ScalarText.scientific 6 r.bound} | "
    ++ s!"Incumbent: {ScalarText.scientific 6 r.incumbent} | Gap: {percent}% | "
    ++ s!"LPs: {r.lpSolves} | Time: {time.seconds r.elapsed}s"

/-- Wording of a note. -/
def text [Scalar α] [ScalarText α] (time : DurationText) : Note α → String
  | .lp event => lpText event
  | .unboundedRelaxation => "LP relaxation is unbounded; treating node as infeasible"
  | .relaxationEnded status => s!"LP relaxation ended with status {status.text}"
  | .modeRequested mode =>
    s!"{mode.text} requested; the simplex backend runs the dual simplex"
  | .call number status objective iterations cap =>
    s!"LP call {number}: {status.text}, obj {ScalarText.fixed 7 objective}, "
      ++ s!"{iterations} iterations (cap {capText cap})"
  | .sample branch entry =>
    s!"pseudocost x{branch.var} {branch.sense.text}: {ScalarText.fixed 6 entry.estimate} "
      ++ s!"after {entry.count} samples"
  | .walkStopped stale => s!"reliability walk stopped after {stale} stale candidates"
  | .ruleSwitched depth limit =>
    s!"Depth {depth} exceeds {limit}: switching from hybrid to pseudocost branching"
  | .started vars integers rows =>
    s!"Starting branch and bound: {vars} vars ({integers} integer), {rows} constraints"
  | .strategy rule selection enumerateAll =>
    s!"Branching: {rule.text}; search: {selection.text}"
      ++ (if enumerateAll then "; complete enumeration" else "")
  | .pruned node inherited incumbent =>
    s!"Node {node} pruned before solving "
      ++ s!"({ScalarText.display inherited} <= {ScalarText.display incumbent})"
  | .infeasibleNode node depth => s!"Node {node} (depth {depth}): infeasible"
  | .fathomedByBound node bound incumbent =>
    s!"Node {node} fathomed by bound "
      ++ s!"({ScalarText.display bound} <= {ScalarText.display incumbent})"
  | .fathomedByDepth node depth => s!"Node {node} fathomed at depth {depth}"
  | .fathomedEarly node =>
    s!"Node {node} fathomed before the first incumbent; "
      ++ "the model may be infeasible or malformed"
  | .classified node depth status bound incumbent =>
    s!"Node {node} (depth {depth}): {status.text}, bound {ScalarText.display bound}, "
      ++ s!"LB {ScalarText.display incumbent}"
  | .newIncumbent node objective =>
    s!"New incumbent at node {node}: objective {ScalarText.display objective}"
  | .branching var value score =>
    s!"Branching on x{var} = {ScalarText.display value} (score {ScalarText.fixed 6 score})"
  | .progress report => progressText time report
  | .finished elapsed status objective =>
    s!"Branch and bound finished in {time.millis elapsed}ms: {status.text}, "
      ++ s!"objective {ScalarText.display objective}"
  | .totals created processed lpSolves =>
    s!"{created} nodes created, {processed} processed, {lpSolves} LPs solved"
  | .resolves full stopped bound =>
    s!"Scoring resolves: {full} full, {stopped} partial; {bound} LPs solved for bounds"

end Note

end BranchBound
