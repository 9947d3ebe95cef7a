import BranchBound.Frontier
import BranchBound.Incumbent
import BranchBound.Selection.Select
import BranchBound.Settings.Basic
import BranchBound.Tree.Basic

/-!
# State of a search

Everything a search builds up: the tree, the open nodes, the incumbent, what scoring has learned,
the events so far and a few counts. Each change the search makes is one function here.

* `Event`: a step of the search, told to whoever draws the tree.
* `Context`: what stays fixed during a search.
* `State`: what changes.
-/

namespace BranchBound.Search

open Relaxation

/-- A step of the search. -/
inductive Event (α : Type) where
  | created (id : Nat) (parent : Option Nat) (depth : Nat) (branch : Option (Branch α))
  /-- A node was classified; an infeasible one repeats its parent's bound and infeasibility. -/
  | updated (id : Nat) (status : NodeStatus) (bound : α)
      (infeasibility : Option (Infeasibility α))
  | incumbent (id : Nat) (objective : α)

/-- What stays fixed during a search. -/
structure Context (σ α : Type) where
  problem : Problem α
  settings : Settings α
  backend : Backend σ α
  /-- Milliseconds since the start after a number of nodes was taken up. -/
  clock : Nat → Nat

/-- What changes during a search. -/
structure State (σ α : Type) where
  tree : Tree α
  frontier : Frontier α
  incumbent : Incumbent α
  scoring : Scoring σ α
  events : Array (Event α)
  /-- Nodes whose relaxation was asked for. -/
  processed : Nat
  /-- Nodes closed by their inherited bound alone. -/
  pruned : Nat
  /-- Depth of the deepest node processed. -/
  maxDepth : Nat
  incumbentUpdates : Nat

variable {σ α : Type} [Scalar α]

namespace Context

/-- The box of the root. -/
def rootBox (ctx : Context σ α) : Box α := .root ctx.problem ctx.settings.binaryVars

/-- Depth at which a fractional node is closed, if there is one. -/
def depthLimit (ctx : Context σ α) : Option Nat :=
  match ctx.settings.depthLimit with
  | some limit => some limit
  | none =>
    if ctx.problem.isBinaryDomain ctx.settings.binaryVars then some ctx.problem.numVars
    else none

/-- Whether a fractional node at this depth is closed. -/
def tooDeep (ctx : Context σ α) (depth : Nat) : Bool :=
  ctx.depthLimit.any fun limit => limit ≤ depth

/-- Whether a bound closes a node, given the incumbent. -/
def closedBy (ctx : Context σ α) (incumbent bound : α) : Bool :=
  !ctx.settings.enumerateAll && decide (bound ≤ incumbent)

/-- What becomes of a node with an optimum. -/
def classify (ctx : Context σ α) (integer : Bool) (depth : Nat) (incumbent relax : α) :
    NodeStatus :=
  if integer then .integer
  else if ctx.closedBy incumbent relax then .fathomed
  else if ctx.tooDeep depth then .fathomed
  else .candidate

end Context

namespace State

/-- Notes something down. -/
def note (s : State σ α) (n : Note α) : State σ α :=
  { s with scoring := { s.scoring with journal := s.scoring.journal.push n } }

/-- Tells about a step. -/
def emit (s : State σ α) (e : Event α) : State σ α := { s with events := s.events.push e }

/-- The root alone is open. -/
def start (scoring : Scoring σ α) : State σ α where
  tree := Tree.empty.addRoot
  frontier := Frontier.empty.push 0 (-Scalar.infinity) Scalar.infinity
  incumbent := .none
  scoring := scoring
  events := #[.created 0 none 0 none]
  processed := 0
  pruned := 0
  maxDepth := 0
  incumbentUpdates := 0

/-- Best bound on the optimum: that of the open nodes or the incumbent. -/
def bestBound (s : State σ α) : α := Scalar.maxNum s.frontier.bestBound s.incumbent.objective

/-- Closes a node by its inherited bound alone. -/
def prune (s : State σ α) (id : Nat) (inherited : α) : State σ α :=
  ({ s with
      pruned := s.pruned + 1
      tree := s.tree.modify id fun node => { node with status := .fathomed } }
    |>.note (.pruned id inherited s.incumbent.objective)
    |>.emit (.updated id .fathomed inherited none))

/-- Counts a node whose relaxation is about to be asked for. -/
def enter (s : State σ α) (depth : Nat) : State σ α :=
  { s with processed := s.processed + 1, maxDepth := max s.maxDepth depth }

/-- Closes a node without an optimum, which repeats its parent's infeasibility. -/
def closeInfeasible (s : State σ α) (id : Nat) (node : Node α) : State σ α :=
  let infeasibility := (node.parent.bind s.tree.get?).bind (·.infeasibility)
  ({ s with
      tree := s.tree.modify id fun n => { n with status := .infeasible, infeasibility } }
    |>.note (.infeasibleNode id node.depth)
    |>.emit (.updated id .infeasible node.bound infeasibility))

/-- Records the optimum of a node and what became of it. -/
def record (s : State σ α) (id depth : Nat) (status : NodeStatus) (relax : α)
    (infeasibility : Option (Infeasibility α)) : State σ α :=
  ({ s with
      tree := s.tree.modify id fun n => { n with bound := relax, status, infeasibility } }
    |>.note (.classified id depth status relax s.incumbent.objective)
    |>.emit (.updated id status relax infeasibility))

/-- Offers an integer point as the incumbent. -/
def offer (s : State σ α) (id : Nat) (x : List α) (objective : α) : State σ α :=
  if s.incumbent.improvedBy objective then
    ({ s with
        incumbent := s.incumbent.offer x objective
        incumbentUpdates := s.incumbentUpdates + 1 }
      |>.note (.newIncumbent id objective)
      |>.emit (.incumbent id objective))
  else s

/-- Adds an open child. -/
def addChild? (s : State σ α) (parent depth : Nat) (branch : Branch α) (priority bound : α) :
    Option (State σ α) :=
  (s.tree.addChild? parent branch).map fun tree =>
    { s with tree, frontier := s.frontier.push s.tree.size priority bound }
      |>.emit (.created s.tree.size (some parent) (depth + 1) (some branch))

end State

end BranchBound.Search
