import BranchBound.Search.State

/-!
# Visiting a node

What a search does with the node it takes up: close it by its bound, or solve its relaxation,
classify it, offer its point as the incumbent, and branch. A visit that fails leaves the state as it
was at the failure.
-/

namespace BranchBound.Search

open Relaxation

variable {σ α : Type} [Scalar α]

/-- A computation on the state of a search that keeps the state of a failure. -/
abbrev SearchM (σ α : Type) := ExceptT (SolveError α) (StateM (State σ α))

/-- Runs a computation on the scoring part of the state. -/
def onScoring {β : Type} (act : ScoringM σ α β) : SearchM σ α β := do
  let s ← get
  let (result, scoring) := act.run.run s.scoring
  set { s with scoring }
  match result with
  | .ok b => pure b
  | .error e => throw e

/-- The value, or a failure at an index that does not exist. -/
def inRange {β : Type} (index : Nat) : Option β → SearchM σ α β
  | some b => pure b
  | none => throw (.outOfRange index)

/-- Notes something down. -/
def note (n : Note α) : SearchM σ α Unit := modify (·.note n)

/-- Reports progress every so many nodes, where reports are wanted. -/
def reportProgress (ctx : Context σ α) : SearchM σ α Unit := do
  if ctx.settings.verbose then
    let s ← get
    if s.processed ≠ 0 then
      if ctx.settings.logInterval = 0 then throw .zeroLogInterval
      if s.processed % ctx.settings.logInterval = 0 then
        note (.progress
          { processed := s.processed
            pending := s.frontier.size
            bound := s.bestBound
            incumbent := s.incumbent.objective
            gap := s.incumbent.gap s.bestBound
            lpSolves := s.scoring.oracle.lpSolves
            elapsed := ctx.clock s.frontier.popped })

/-- Priorities of the two children of a node: by depth, by bound, or by bound after the predicted
loss. -/
def childPriorities? (selection : NodeSelection) (table : PseudocostTable α) (depth : Nat)
    (bound : α) (c : Candidate α) : Option (α × α) :=
  match selection with
  | .depthFirst =>
    let key := -(Scalar.ofNat depth : α) - 1
    some (key, key)
  | .bestFirst => some (-bound, -bound)
  | .bestEstimate =>
    (table.gains? c.var c.value).map fun (down, up) => (-bound + down, -bound + up)

/-- Chooses a variable and adds both children, the one below first. -/
def branch (ctx : Context σ α) (id : Nat) (node : NodePoint α) (bound : α) :
    SearchM σ α Unit := do
  let limit := Scoring.switchDepth ctx.problem.numVars
  match ← onScoring (Scoring.select ctx.backend ctx.problem limit node) with
  | none => throw (.noCandidate id)
  | some c =>
    note (.branching c.var c.value c.score)
    let s ← get
    let (down, up) ← inRange c.var
      (childPriorities? ctx.settings.selection s.scoring.table node.depth bound c)
    let s ← inRange id (s.addChild? id node.depth c.down down bound)
    let s ← inRange id (s.addChild? id node.depth c.up up bound)
    set s

/-- Notes why a node with an optimum is closed, if it is. -/
def noteFathomed (ctx : Context σ α) (id depth : Nat) (status : NodeStatus) (relax : α) :
    SearchM σ α Unit := do
  if status = .fathomed then
    let s ← get
    if ctx.closedBy s.incumbent.objective relax then
      note (.fathomedByBound id relax s.incumbent.objective)
    else note (.fathomedByDepth id depth)
    unless s.incumbent.hasPoint do note (.fathomedEarly id)

/-- Bound the children of a node inherit. Where every node is looked at, it lies below the
incumbent, so that the order does not follow the relaxations. -/
def childBound (ctx : Context σ α) (incumbent relax : α) : α :=
  if ctx.settings.enumerateAll then incumbent - 1 else relax

/-- Goes on from the optimum of a node. -/
def settle (ctx : Context σ α) (id : Nat) (node : Node α) (box : Box α) (answer : Answer α) :
    SearchM σ α Unit := do
  let relax := answer.objective
  if let some branch := node.branch then onScoring (Scoring.learn branch node.bound relax)
  let integer ← inRange answer.x.length
    (ctx.problem.integerFeasible? answer.x ctx.settings.integralityTol)
  let status := ctx.classify integer node.depth (← get).incumbent.objective relax
  noteFathomed ctx id node.depth status relax
  let infeasibility ←
    if integer then pure none
    else some <$> inRange answer.x.length (ctx.problem.infeasibility? answer.x)
  modify (·.record id node.depth status relax infeasibility)
  if integer then modify (·.offer id answer.x relax)
  if status = .candidate then
    branch ctx id ⟨box, answer.x, relax, node.depth⟩
      (childBound ctx (← get).incumbent.objective relax)

/-- Solves the relaxation of a node and goes on from its answer. -/
def expand (ctx : Context σ α) (id : Nat) (node : Node α) : SearchM σ α Unit := do
  modify (·.enter node.depth)
  let box ← inRange id ((← get).tree.box? id ctx.rootBox)
  let answer ← onScoring (Scoring.ask (Oracle.solveNode ctx.backend ctx.problem box))
  if answer.isOptimal then settle ctx id node box answer
  else modify (·.closeInfeasible id node)
  reportProgress ctx

/-- Deals with a node taken from the frontier. -/
def visit (ctx : Context σ α) (id : Nat) (inherited : α) : SearchM σ α Unit := do
  let s ← get
  let node ← inRange id (s.tree.get? id)
  if ctx.closedBy s.incumbent.objective node.bound then modify (·.prune id inherited)
  else expand ctx id node

end BranchBound.Search
