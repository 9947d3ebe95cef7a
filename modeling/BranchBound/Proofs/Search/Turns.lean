import BranchBound.Proofs.Search.Failures
import BranchBound.Proofs.Search.Links

/-!
# Turns

A run takes up one node after the other, and the visit of the last one may fail. All that the turn
of a node can do, whether its visit succeeds or not, is said in one relation, so that what every
turn keeps is true at all times of a run, errors included.

* `Ledger`, `State.ledger`: a state without what scoring knows.
* `Turn`: what becomes of the ledger when a node is taken up.
* `Grows`, `Turn.grows`: what becomes of the tree and the open nodes.
* `turn_of_visits`, `turn_of_breaks`: visits are turns, whether they succeed or fail.
* `takenUp`: the nodes that a run takes up, in order.
* `holds_of_turns`: what every turn keeps is true at all times.
* `exists_last_of_error`: the last state between two nodes before an error.
-/

namespace BranchBound

namespace Search

open Relaxation

variable {σ α : Type} [Scalar α]

/-! ## Ledgers -/

/-- A state without what scoring knows: the core, the events so far, and counts. -/
structure Ledger (α : Type) extends Core α where
  events : List (Event α)
  processed : ℕ
  pruned : ℕ
  maxDepth : ℕ

/-- The part of a state that a turn changes in known ways. -/
def State.ledger {α : Type} (s : State σ α) : Ledger α :=
  ⟨s.core, s.events.toList, s.processed, s.pruned, s.maxDepth⟩

namespace Ledger

/-- A node whose relaxation is asked for is counted. -/
def enter {α : Type} (s : Ledger α) (depth : ℕ) : Ledger α :=
  { s with processed := s.processed + 1, maxDepth := max s.maxDepth depth }

/-- A node gets a status, and an event tells about it. -/
def tell {α : Type} (s : Ledger α) (id : ℕ) (status : NodeStatus) (bound : α)
    (infeasibility : Option (Infeasibility α)) : Ledger α :=
  { s with
    tree := s.tree.modify id fun n => { n with bound, status, infeasibility }
    events := s.events ++ [.updated id status bound infeasibility] }

/-- A node is closed by the bound it inherited. -/
def prune {α : Type} (s : Ledger α) (id : ℕ) (inherited : α) : Ledger α :=
  { s with
    pruned := s.pruned + 1
    tree := s.tree.modify id fun n => { n with status := .fathomed }
    events := s.events ++ [.updated id .fathomed inherited none] }

/-- A point is offered as the incumbent. -/
def offer (s : Ledger α) (id : ℕ) (x : List α) (objective : α) : Ledger α :=
  if s.incumbent.improvedBy objective then
    { s with
      incumbent := s.incumbent.offer x objective
      events := s.events ++ [.incumbent id objective] }
  else s

/-- Two children of a node are open. -/
def split {α : Type} (s : Ledger α) (id depth : ℕ) (down up : Branch α) (tree : Tree α)
    (priority priority' bound : α) : Ledger α :=
  { s with
    tree
    frontier := (s.frontier.push s.tree.size priority bound).push (s.tree.size + 1) priority' bound
    events := s.events ++
      [.created s.tree.size (some id) (depth + 1) (some down),
        .created (s.tree.size + 1) (some id) (depth + 1) (some up)] }

end Ledger

/-- What becomes of a ledger when a node is taken up, the node itself being no longer open. -/
inductive Turn (ctx : Context σ α) (e : Entry α) (s : Ledger α) : Ledger α → Prop
  /-- The visit failed before anything was known about the node. -/
  | unsolved {node : Node α} (hnode : s.tree.get? e.node = some node) :
      Turn ctx e s (s.enter node.depth)
  /-- The node is closed by the bound it inherited. -/
  | pruned {node : Node α} (hnode : s.tree.get? e.node = some node)
      (hclosed : ctx.closedBy s.incumbent.objective node.bound = true) :
      Turn ctx e s (s.prune e.node e.bound)
  /-- The node has no optimum. -/
  | infeasible {node : Node α} (hnode : s.tree.get? e.node = some node)
      (infeasibility : Option (Infeasibility α)) :
      Turn ctx e s ((s.enter node.depth).tell e.node .infeasible node.bound infeasibility)
  /-- The optimum of the node is integer. -/
  | integer {node : Node α} (hnode : s.tree.get? e.node = some node) (x : List α) (relax : α) :
      Turn ctx e s
        (((s.enter node.depth).tell e.node .integer relax none).offer e.node x relax)
  /-- The optimum of the node is fractional, and the node gets no children: it is closed, or the
  visit failed at the choice of a variable. -/
  | childless {node : Node α} (hnode : s.tree.get? e.node = some node) (status : NodeStatus)
      (relax : α) (infeasibility : Infeasibility α) :
      Turn ctx e s ((s.enter node.depth).tell e.node status relax (some infeasibility))
  /-- The node gets two children. -/
  | branched {node : Node α} (hnode : s.tree.get? e.node = some node) {relax down up : α}
      {infeasibility : Infeasibility α} {c : Candidate α} {table : PseudocostTable α}
      {tree tree' : Tree α}
      (hpriorities : childPriorities? ctx.settings.selection table node.depth
        (childBound ctx s.incumbent.objective relax) c = some (down, up))
      (hdown : ((s.enter node.depth).tell e.node .candidate relax
        (some infeasibility)).tree.addChild? e.node c.down = some tree)
      (hup : tree.addChild? e.node c.up = some tree') :
      Turn ctx e s
        (((s.enter node.depth).tell e.node .candidate relax (some infeasibility)).split e.node
          node.depth c.down c.up tree' down up (childBound ctx s.incumbent.objective relax))

/-! ## Turns and the tree -/

/-- What a turn does to the tree and the open nodes: the node taken up changes in its place, and it
may get two children. -/
inductive Grows (ctx : Context σ α) (e : Entry α) (s t : Ledger α) : Prop
  | stays {g : Node α → Node α} (hg : KeepsPlace g) (htree : t.tree = s.tree.modify e.node g)
      (hfrontier : t.frontier = s.frontier)
  | splits {g : Node α → Node α} {node : Node α} {c : Candidate α} {table : PseudocostTable α}
      {tree : Tree α} {down up bound : α} (hg : KeepsPlace g)
      (hnode : (s.tree.modify e.node g).get? e.node = some node)
      (hpriorities : childPriorities? ctx.settings.selection table node.depth bound c
        = some (down, up))
      (hdown : (s.tree.modify e.node g).addChild? e.node c.down = some tree)
      (hup : tree.addChild? e.node c.up = some t.tree)
      (hfrontier : t.frontier
        = (s.frontier.push s.tree.size down bound).push (s.tree.size + 1) up bound)
      (hdepth : node.depth ≤ t.maxDepth)

section Grows

variable {ctx : Context σ α} {e : Entry α} {s t : Ledger α}

omit [Scalar α] in
theorem keepsPlace_record (bound : α) (status : NodeStatus)
    (infeasibility : Option (Infeasibility α)) :
    KeepsPlace fun n => { n with bound, status, infeasibility } :=
  fun _ => ⟨rfl, rfl, rfl, rfl⟩

omit [Scalar α] in
theorem modify_self (tree : Tree α) (id : ℕ) : tree.modify id (fun n => n) = tree := by
  have hget : ∀ k, (tree.modify id fun n => n).get? k = tree.get? k := by
    intro k
    rw [Tree.get?_modify]
    split
    · exact Option.map_id'
    · rfl
  exact congrArg Tree.mk (Array.ext_getElem? hget)

/-- Offering a point changes neither the tree nor the open nodes. -/
theorem place_offer (s : Ledger α) (id : ℕ) (x : List α) (objective : α) :
    (s.offer id x objective).tree = s.tree ∧ (s.offer id x objective).frontier = s.frontier ∧
      (s.offer id x objective).processed = s.processed ∧
      (s.offer id x objective).pruned = s.pruned ∧
      (s.offer id x objective).maxDepth = s.maxDepth := by
  unfold Ledger.offer
  split <;> exact ⟨rfl, rfl, rfl, rfl, rfl⟩

/-- The tree after a turn, and what is open in it. -/
theorem Turn.grows (h : Turn ctx e s t) : Grows ctx e s t := by
  cases h with
  | unsolved hnode => exact .stays (fun _ => ⟨rfl, rfl, rfl, rfl⟩) (modify_self _ _).symm rfl
  | pruned hnode hclosed =>
    exact .stays (g := fun n => { n with status := .fathomed }) (fun _ => ⟨rfl, rfl, rfl, rfl⟩) rfl
      rfl
  | infeasible hnode infeasibility => exact .stays (keepsPlace_record _ _ _) rfl rfl
  | integer hnode x relax =>
    obtain ⟨htree, hfrontier, -⟩ := place_offer ((s.enter _).tell e.node .integer relax none)
      e.node x relax
    exact .stays (keepsPlace_record relax .integer none) htree hfrontier
  | childless hnode status relax infeasibility =>
    exact .stays (keepsPlace_record relax status (some infeasibility)) rfl rfl
  | @branched node hnode relax down up infeasibility c table tree tree' hpriorities hdown hup =>
    have hget := get?_recorded s.toCore e.node relax .candidate (some infeasibility) hnode
    refine .splits (keepsPlace_record relax .candidate (some infeasibility)) hget hpriorities hdown
      hup ?_ (le_max_right _ _)
    · have hsize : ((s.enter node.depth).tell e.node .candidate relax
          (some infeasibility)).tree.size = s.tree.size := Tree.size_modify _ _ _
      show Frontier.push (Frontier.push _ (Tree.size _) _ _) (Tree.size _ + 1) _ _ = _
      rw [hsize]
      rfl

/-- A turn counts one node, as processed or as pruned. -/
theorem Turn.counted (h : Turn ctx e s t) :
    (t.processed = s.processed + 1 ∧ t.pruned = s.pruned) ∨
      (t.processed = s.processed ∧ t.pruned = s.pruned + 1) := by
  cases h with
  | pruned hnode hclosed => exact .inr ⟨rfl, rfl⟩
  | integer hnode x relax =>
    obtain ⟨-, -, hprocessed, hpruned, -⟩ := place_offer ((s.enter _).tell e.node .integer relax
      none) e.node x relax
    exact .inl ⟨hprocessed, hpruned⟩
  | _ => exact .inl ⟨rfl, rfl⟩

/-- The deepest depth only grows. -/
theorem Turn.maxDepth_le (h : Turn ctx e s t) : s.maxDepth ≤ t.maxDepth := by
  cases h with
  | pruned hnode hclosed => exact le_refl _
  | @integer node hnode x relax =>
    obtain ⟨-, -, -, -, hdepth⟩ := place_offer ((s.enter node.depth).tell e.node .integer relax
      none) e.node x relax
    rw [hdepth]
    exact le_max_left _ _
  | _ => exact le_max_left _ _

end Grows

/-! ## Visits are turns -/

section Turn

variable {ctx : Context σ α} {s t : State σ α} {e : Entry α} {err : SolveError α}

omit [Scalar α] in
/-- What a change does to a node is all that matters of it. -/
theorem modify_congr {tree : Tree α} {id : ℕ} {node : Node α} {f g : Node α → Node α}
    (hnode : tree.get? id = some node) (h : f node = g node) :
    tree.modify id f = tree.modify id g := by
  have hget : ∀ k, (tree.modify id f).get? k = (tree.modify id g).get? k := by
    intro k
    rw [Tree.get?_modify, Tree.get?_modify]
    split
    · rename_i hk
      rw [← hk, hnode, Option.map_some, Option.map_some, h]
    · rfl
  exact congrArg Tree.mk (Array.ext_getElem? hget)

theorem ledger_offer (s : State σ α) (id : ℕ) (x : List α) (objective : α) :
    (s.offer id x objective).ledger = s.ledger.offer id x objective := by
  unfold State.offer Ledger.offer
  show State.ledger (if s.incumbent.improvedBy objective then _ else s)
    = if s.incumbent.improvedBy objective then _ else _
  split
  · simp [State.ledger, State.emit, State.note, State.core]
  · rfl

omit [Scalar α] in
/-- Recording the optimum of a node is all that a ledger sees of it. -/
theorem ledger_record (s : State σ α) (scoring : Scoring σ α) (node : Node α) (id : ℕ)
    (status : NodeStatus) (relax : α) (infeasibility : Option (Infeasibility α)) :
    ((s.solved node scoring).record id node.depth status relax infeasibility).ledger
      = (s.ledger.enter node.depth).tell id status relax infeasibility := by
  simp [State.ledger, State.core, State.record, State.emit, State.note, State.solved, State.enter,
    Ledger.tell, Ledger.enter]

omit [Scalar α] in
/-- Two children are added to the tree, the open nodes and the events. -/
theorem ledger_of_addChild? {base first last : State σ α} {id depth : ℕ} {b c : Branch α}
    {priority priority' bound : α}
    (hdown : base.addChild? id depth b priority bound = some first)
    (hup : first.addChild? id depth c priority' bound = some last) :
    ∃ tree, base.ledger.tree.addChild? id b = some tree ∧
      ∃ tree', tree.addChild? id c = some tree' ∧
        last.ledger = base.ledger.split id depth b c tree' priority priority' bound := by
  obtain ⟨tree, htree, rfl⟩ := Option.map_eq_some_iff.mp hdown
  obtain ⟨tree', htree', rfl⟩ := Option.map_eq_some_iff.mp hup
  refine ⟨tree, htree, tree', htree', ?_⟩
  simp [State.ledger, State.core, State.emit, Ledger.split, Tree.size_addChild? htree]

omit [Scalar α] in
theorem ledger_prune (s : State σ α) (id : ℕ) (inherited : α) :
    (s.prune id inherited).ledger = s.ledger.prune id inherited := by
  simp [State.ledger, State.core, State.prune, State.emit, State.note, Ledger.prune]

omit [Scalar α] in
/-- A node that is closed as infeasible keeps its bound. -/
theorem ledger_closeInfeasible {id : ℕ} {node : Node α} (hnode : s.tree.get? id = some node)
    (scoring : Scoring σ α) :
    ((s.solved node scoring).closeInfeasible id node).ledger
      = (s.ledger.enter node.depth).tell id .infeasible node.bound
        ((node.parent.bind s.tree.get?).bind (·.infeasibility)) := by
  have htree : s.tree.modify id (fun n => { n with
        status := .infeasible
        infeasibility := (node.parent.bind s.tree.get?).bind (·.infeasibility) })
      = s.tree.modify id (fun n => { n with
        bound := node.bound
        status := .infeasible
        infeasibility := (node.parent.bind s.tree.get?).bind (·.infeasibility) }) :=
    modify_congr hnode rfl
  simp only [State.ledger, State.core, State.closeInfeasible, State.emit, State.note, State.solved,
    State.enter, Ledger.tell, Ledger.enter, Array.toList_push, htree]

/-- A visit that succeeds is a turn. -/
theorem turn_of_visits (h : Visits ctx e.node e.bound s t) : Turn ctx e s.ledger t.ledger := by
  cases h with
  | pruned hnode hclosed =>
    rw [ledger_prune]
    exact .pruned hnode hclosed
  | infeasible hasked hnot journal =>
    show Turn ctx e s.ledger (State.ledger (State.closeInfeasible _ _ _))
    rw [ledger_closeInfeasible hasked.get?]
    exact .infeasible hasked.get? _
  | integer hasked hoptimal hlearns hinteger journal =>
    show Turn ctx e s.ledger (State.ledger (State.offer _ _ _ _))
    rw [ledger_offer, ledger_record]
    exact .integer hasked.get? _ _
  | fathomed hasked hoptimal hlearns hinteger hclosed hinfeasibility journal =>
    show Turn ctx e s.ledger (State.ledger (State.record _ _ _ _ _ _))
    rw [ledger_record]
    exact .childless hasked.get? _ _ _
  | @branched node box a scoring learned chosen c down up first last hasked hoptimal hlearns
      hinteger hopen hdepth infeasibility hinfeasibility noted hselect hpriorities hdown hup
      journal =>
    obtain ⟨tree, htree, tree', htree', hledger⟩ := ledger_of_addChild? hdown hup
    show Turn ctx e s.ledger last.ledger
    rw [hledger, ledger_record]
    rw [ledger_record] at htree
    exact .branched hasked.get? hpriorities htree htree'

/-- So is one that fails, since the node exists. -/
theorem turn_of_breaks {node : Node α} (hnode : s.tree.get? e.node = some node)
    (h : Breaks ctx e.node e.bound s err t) : Turn ctx e s.ledger t.ledger := by
  cases h with
  | missing hmissing => cases hnode.symm.trans hmissing
  | unsolved hnode err scoring => exact .unsolved hnode
  | @unbranched node box a scoring learned hasked hoptimal hlearns infeasibility err last =>
    show Turn ctx e s.ledger (State.ledger (State.record (s.solved node learned) _ _ _ _ _))
    rw [ledger_record]
    exact .childless hasked.get? _ _ _
  | unreported hvisits => exact turn_of_visits hvisits

end Turn

/-! ## Runs -/

/-- The nodes taken up in a number of steps, in order; the visit of the last one may have failed. -/
def takenUp (ctx : Context σ α) : ℕ → State σ α → List (Entry α)
  | 0, _ => []
  | n + 1, s =>
    match s.frontier.pop?, step ctx s with
    | some (e, _), .running t => e :: takenUp ctx n t
    | some (e, _), .ended (.error _) _ => [e]
    | _, _ => []

/-- The state a run is in, or has ended in. -/
def Phase.state {α : Type} : Phase σ α → State σ α
  | .running s => s
  | .ended _ s => s

section Runs

variable {ctx : Context σ α} {s t : State σ α} {e : Entry α} {rest : Frontier α}
  {err : SolveError α}

/-- A run that ends with an error took up a node, whose visit failed. -/
theorem fails_of_step_ended (h : step ctx s = .ended (.error err) t) :
    ∃ e rest, s.frontier.pop? = some (e, rest) ∧
      Fails (visit ctx e.node e.bound) { s with frontier := rest } err t := by
  unfold step at h
  split at h
  · cases h
  · rename_i e rest hpop
    split at h
    · cases h
    · split at h
      · cases h
      · split at h
        · cases h
        · rename_i hrun
          cases h
          exact ⟨e, rest, hpop, hrun⟩

/-- A step that goes on takes up one entry, and the later steps take up the others. -/
theorem takenUp_of_running (hstep : step ctx s = .running t)
    (hpop : s.frontier.pop? = some (e, rest)) (n : ℕ) :
    takenUp ctx (n + 1) s = e :: takenUp ctx n t := by
  rw [takenUp, hpop, hstep]

/-- A step that fails has taken up its entry. -/
theorem takenUp_of_failed (hstep : step ctx s = .ended (.error err) t)
    (hpop : s.frontier.pop? = some (e, rest)) (n : ℕ) : takenUp ctx (n + 1) s = [e] := by
  rw [takenUp, hpop, hstep]

theorem takenUp_of_stopped {status : SolveStatus} (hstep : step ctx s = .ended (.ok status) t)
    (n : ℕ) : takenUp ctx (n + 1) s = [] := by
  rw [takenUp, hstep]
  cases s.frontier.pop? <;> rfl

/-- What every turn keeps is true at all times of a run. -/
theorem holds_of_turns {P : List (Entry α) → Ledger α → Prop}
    (hexists : ∀ {taken} {s : Ledger α} {e rest}, P taken s → s.frontier.pop? = some (e, rest) →
      ∃ node, s.tree.get? e.node = some node)
    (hturn : ∀ {taken} {s t : Ledger α} {e rest}, P taken s → s.frontier.pop? = some (e, rest) →
      Turn ctx e { s with frontier := rest } t → P (taken ++ [e]) t)
    (n : ℕ) {taken : List (Entry α)} (hs : P taken s.ledger) :
    P (taken ++ takenUp ctx n s) ((Phase.running s).advance ctx n).state.ledger := by
  -- the run is followed from its first step on, so what was taken up before has to vary
  induction n generalizing taken s with
  | zero =>
    rw [takenUp, List.append_nil]
    exact hs
  | succ n ih =>
    rw [Phase.advance]
    cases hstep : step ctx s with
    | running t =>
      obtain ⟨e, rest, htake⟩ := takes_of_step_running hstep
      have hvisits := visits_of_runs_visit htake.visit
      have ht : P (taken ++ [e]) t.ledger := hturn hs htake.pop? (turn_of_visits hvisits)
      rw [takenUp_of_running hstep htake.pop?, List.append_cons]
      exact ih ht
    | ended result t =>
      rw [Phase.advance_ended]
      cases result with
      | ok status =>
        -- a run that stops has taken nothing out
        obtain ⟨rfl, -⟩ := stopped_of_step_ended hstep
        rw [takenUp_of_stopped hstep, List.append_nil]
        exact hs
      | error err =>
        -- the node whose visit failed counts as taken up
        obtain ⟨e, rest, hpop, hfails⟩ := fails_of_step_ended hstep
        obtain ⟨node, hnode⟩ := hexists hs hpop
        have hbreaks := breaks_of_fails_visit hfails
        rw [takenUp_of_failed hstep hpop]
        exact hturn hs hpop (turn_of_breaks (s := { s with frontier := rest }) hnode hbreaks)

/-- Where a run ends with an error, there is a last state between two nodes, and the visit of the
node taken up there failed. -/
theorem exists_last_of_error {n : ℕ}
    (h : (Phase.running s).advance ctx n = .ended (.error err) t) :
    ∃ m u e rest, (Phase.running s).advance ctx m = .running u ∧
      u.frontier.pop? = some (e, rest) ∧
      Fails (visit ctx e.node e.bound) { u with frontier := rest } err t ∧
      takenUp ctx n s = takenUp ctx m s ++ [e] := by
  induction n generalizing s with
  | zero => cases h
  | succ n ih =>
    rw [Phase.advance] at h
    cases hstep : step ctx s with
    | running u =>
      rw [hstep] at h
      obtain ⟨e, rest, htake⟩ := takes_of_step_running hstep
      obtain ⟨m, v, d, rest', hv, hpop, hfails, htaken⟩ := ih h
      refine ⟨m + 1, v, d, rest', ?_, hpop, hfails, ?_⟩
      · rw [Phase.advance, hstep]
        exact hv
      · rw [takenUp_of_running hstep htake.pop?, takenUp_of_running hstep htake.pop?, htaken,
          List.cons_append]
    | ended result u =>
      rw [hstep, Phase.advance_ended] at h
      cases h
      obtain ⟨e, rest, hpop, hfails⟩ := fails_of_step_ended hstep
      exact ⟨0, s, e, rest, rfl, hpop, hfails, takenUp_of_failed hstep hpop n⟩

/-! ### Whole searches -/

variable {backend : σ}

omit [Scalar α] in
theorem ledger_foldl_note (notes : List (Note α)) (s : State σ α) :
    (notes.foldl State.note s).ledger = s.ledger := by
  induction notes generalizing s with
  | nil => rfl
  | cons n notes ih => exact ih (s.note n)

/-- The closing notes leave the ledger as it is. -/
theorem ledger_search (ctx : Context σ α) (backend : σ) :
    (search ctx backend).state.ledger
      = ((Phase.running (initial ctx backend)).advance ctx
          (stepBound ctx.settings)).state.ledger := by
  unfold search
  cases (Phase.running (initial ctx backend)).advance ctx (stepBound ctx.settings) with
  | running s => exact ledger_foldl_note _ s
  | ended result s =>
    cases result with
    | error e => rfl
    | ok status => exact ledger_foldl_note _ s

/-- An error of a search ended its run. -/
theorem ended_of_search_error (h : (search ctx backend).result = .error err) :
    (Phase.running (initial ctx backend)).advance ctx (stepBound ctx.settings)
      = .ended (.error err) (search ctx backend).state := by
  unfold search at h ⊢
  cases hphase : (Phase.running (initial ctx backend)).advance ctx (stepBound ctx.settings) with
  | running s =>
    rw [hphase] at h
    cases h
  | ended result s =>
    rw [hphase] at h
    cases result with
    | error e =>
      cases h
      rfl
    | ok status => cases h

end Runs

end Search

end BranchBound
