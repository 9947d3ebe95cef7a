import BranchBound.Proofs.Scalar.Comparable
import BranchBound.Proofs.Search.History
import BranchBound.Relaxation.Script

/-!
# Incumbents improve, and pruning is sound

The incumbent of a search is at all times the first of the best integer points found so far, where
values that are undefined or the negative infinity are passed over; each event about an incumbent
tells a strictly better value than the one before. So a node that was closed by its bound alone is
bounded by the final objective, and a node that was branched on was worth it when it was taken up.
Nothing is asked of the scalars but that they compare as floating point does.

* `Round.status?`, `Round.answer?`: what became of the node of a round, and what the backend said.
* `found`: the integer nodes taken up, with their optima.
* `Standing`, `Contest`: what the search tells about its incumbent, and what a round does to it.
* `FirstBest`, `Champion`: the incumbent is the first of the best.
* `Prudent`: why nodes were branched on or closed.
* `incumbents_improve_and_pruning_is_sound`: both, at all times of every search.
-/

namespace BranchBound

namespace Search

open Relaxation ComparableScalar

variable {σ α : Type}

/-- The node and the objective of an incumbent that an event tells about. -/
def Event.incumbent? : Event α → Option (ℕ × α)
  | .incumbent id objective => some (id, objective)
  | _ => none

/-- Status of the node taken up, after its visit. -/
def Round.status? (r : Round σ α) : Option NodeStatus :=
  (r.after.tree.get? r.entry.node).map Node.status

variable [Scalar α]

/-- The answer to the relaxation of the node taken up, as the backend gives it at that time. -/
def Round.answer? (ctx : Context σ α) (r : Round σ α) : Option (Answer α) := do
  let box ← r.before.tree.box? r.entry.node ctx.rootBox
  (Oracle.solveNode ctx.backend ctx.problem box r.before.scoring.oracle).1.outcome.toOption

/-- The optimum of the node taken up, if the node turned out to be integer. -/
def Round.found? (ctx : Context σ α) (r : Round σ α) : Option (ℕ × Answer α) :=
  if r.status? = some .integer then (r.answer? ctx).map (Prod.mk r.entry.node) else none

/-- The integer nodes among those taken up with their optima, in order. -/
def found (ctx : Context σ α) (done : List (Round σ α)) : List (ℕ × Answer α) :=
  done.filterMap (Round.found? ctx)

/-! ## Standings -/

/-- What a search tells about its incumbent: the point, the count of updates, and the events. -/
structure Standing (α : Type) where
  incumbent : Incumbent α
  updates : ℕ
  told : List (ℕ × α)

/-- The standing in a state. -/
def State.standing {α : Type} (s : State σ α) : Standing α :=
  ⟨s.incumbent, s.incumbentUpdates, s.events.toList.filterMap Event.incumbent?⟩

/-- The standing after the optimum of an integer node was offered. -/
def Standing.offer (s : Standing α) (id : ℕ) (a : Answer α) : Standing α :=
  if s.incumbent.objective < a.objective then
    ⟨⟨some a.x, a.objective⟩, s.updates + 1, s.told ++ [(id, a.objective)]⟩
  else s

section Standing

variable {s t : State σ α}

omit [Scalar α] in
theorem standing_emit (s : State σ α) {event : Event α} (h : event.incumbent? = none) :
    (s.emit event).standing = s.standing := by
  have htold : (s.emit event).standing.told = s.standing.told := by
    show (s.events.push event).toList.filterMap _ = _
    rw [Array.toList_push]
    exact filterMap_snoc_none h
  exact congrArg (Standing.mk s.incumbent s.incumbentUpdates) htold

omit [Scalar α] in
theorem standing_closeInfeasible (s : State σ α) (id : ℕ) (node : Node α)
    (scoring : Scoring σ α) :
    ((s.solved node scoring).closeInfeasible id node).standing = s.standing :=
  standing_emit _ rfl

omit [Scalar α] in
theorem standing_record (s : State σ α) (id : ℕ) (node : Node α) (scoring : Scoring σ α)
    (status : NodeStatus) (relax : α) (infeasibility : Option (Infeasibility α)) :
    ((s.solved node scoring).record id node.depth status relax infeasibility).standing
      = s.standing :=
  standing_emit _ rfl

omit [Scalar α] in
theorem standing_addChild? {parent depth : ℕ} {b : Branch α} {priority bound : α}
    (h : s.addChild? parent depth b priority bound = some t) : t.standing = s.standing := by
  obtain ⟨tree, -, rfl⟩ := Option.map_eq_some_iff.mp h
  exact standing_emit _ rfl

/-- Offering a point to the search changes the standing as offering it to the standing does. -/
theorem standing_offer (s : State σ α) (id : ℕ) (a : Answer α) :
    (s.offer id a.x a.objective).standing = s.standing.offer id a := by
  simp only [State.offer, Standing.offer, Incumbent.offer, Incumbent.improvedBy, decide_eq_true_eq]
  show State.standing (if s.incumbent.objective < a.objective then _ else s)
    = if s.incumbent.objective < a.objective then _ else _
  split
  · simp [State.standing, State.emit, State.note, Event.incumbent?]
  · rfl

end Standing

/-! ## What becomes of a node -/

/-- What a round does to its node, to the counts of solves and to the standing. -/
inductive Fate (ctx : Context σ α) (r : Round σ α) : Prop
  /-- The visit failed before the node was closed or branched on. -/
  | unsettled (hstatus : r.status? = some .candidate)
      (hsize : r.after.tree.size = r.before.tree.size)
      (hsame : r.after.standing = r.before.standing)
  /-- The node was closed by the bound it inherited. -/
  | pruned {node : Node α} (hnode : r.before.tree.get? r.entry.node = some node)
      (hclosed : ctx.closedBy r.before.incumbent.objective node.bound = true)
      (hstatus : r.status? = some .fathomed) (hsize : r.after.tree.size = r.before.tree.size)
      (hsame : r.after.standing = r.before.standing)
  /-- The node has no optimum. -/
  | infeasible {a : Answer α} (hanswer : r.answer? ctx = some a)
      (hstatus : r.status? = some .infeasible)
      (hsolves : r.after.scoring.oracle.lpSolves = r.before.scoring.oracle.lpSolves + 1)
      (hsize : r.after.tree.size = r.before.tree.size)
      (hsame : r.after.standing = r.before.standing)
  /-- The optimum of the node is integer. -/
  | integer {a : Answer α} (hanswer : r.answer? ctx = some a) (hoptimal : a.isOptimal = true)
      (hstatus : r.status? = some .integer)
      (hsolves : r.after.scoring.oracle.lpSolves = r.before.scoring.oracle.lpSolves + 1)
      (hsize : r.after.tree.size = r.before.tree.size)
      (hoffer : r.after.standing = r.before.standing.offer r.entry.node a)
  /-- The optimum of the node is fractional, and its value or its depth closes it. -/
  | fathomed {node : Node α} {a : Answer α} (hnode : r.before.tree.get? r.entry.node = some node)
      (hanswer : r.answer? ctx = some a) (hoptimal : a.isOptimal = true)
      (hclosed : ctx.closedBy r.before.incumbent.objective a.objective = true ∨
        ctx.tooDeep node.depth = true)
      (hstatus : r.status? = some .fathomed)
      (hsolves : r.after.scoring.oracle.lpSolves = r.before.scoring.oracle.lpSolves + 1)
      (hsize : r.after.tree.size = r.before.tree.size)
      (hsame : r.after.standing = r.before.standing)
  /-- The node got two children. -/
  | branched {node : Node α} {a : Answer α} (hnode : r.before.tree.get? r.entry.node = some node)
      (hbound : ctx.closedBy r.before.incumbent.objective node.bound = false)
      (hanswer : r.answer? ctx = some a)
      (hopen : ctx.closedBy r.before.incumbent.objective a.objective = false)
      (hstatus : r.status? = some .candidate) (hsame : r.after.standing = r.before.standing)

section Fate

variable {ctx : Context σ α} {s t : State σ α} {e : Entry α} {node : Node α}

/-- The answer of a round is the one its visit asked for. -/
theorem Asked.answer? {box : Box α} {a : Answer α} {scoring : Scoring σ α}
    (h : Asked ctx e.node s node box a scoring) (t : State σ α) :
    Round.answer? ctx ⟨e, s, t⟩ = some a := by
  have houtcome := Scoring.outcome_of_runs_ask h.ask
  unfold Round.answer?
  simp [h.box?, houtcome, Except.toOption]

omit [Scalar α] in
/-- An answered request for the relaxation of a node counts as a solve. -/
theorem lpSolves_solveNode {B : Backend σ α} {p : Problem α} {box : Box α} {o : Oracle σ}
    {a : Answer α} (h : (Oracle.solveNode B p box o).1.outcome = .ok a) :
    (Oracle.solveNode B p box o).2.lpSolves = o.lpSolves + 1 := by
  unfold Oracle.solveNode Oracle.call Oracle.countIf at h ⊢
  dsimp only at h ⊢
  split at h
  · cases h
  · rename_i b houtcome
    cases hwell : Oracle.wellFormed p b with
    | true => simp
    | false => simp [hwell] at h

/-- It is counted once. -/
theorem Asked.lpSolves_eq {box : Box α} {a : Answer α} {scoring : Scoring σ α}
    (h : Asked ctx e.node s node box a scoring) :
    scoring.oracle.lpSolves = s.scoring.oracle.lpSolves + 1 := by
  rw [Scoring.eq_of_runs_ask h.ask]
  exact lpSolves_solveNode (Scoring.outcome_of_runs_ask h.ask)

theorem Learns.oracle_eq {relax : α} {before after : Scoring σ α}
    (h : Learns node relax before after) : after.oracle = before.oracle := by
  unfold Learns at h
  split at h
  · rw [h]
  · rw [Scoring.eq_of_runs_learn h]

omit [Scalar α] in
theorem status_modify {tree : Tree α} {id : ℕ} (hnode : tree.get? id = some node)
    (g : Node α → Node α) : ((tree.modify id g).get? id).map Node.status = some (g node).status := by
  rw [Tree.get?_modify, if_pos rfl, hnode]
  rfl

/-- A visit that succeeds gives its round one of these fates. -/
theorem fate_of_visits (h : Visits ctx e.node e.bound s t) : Fate ctx ⟨e, s, t⟩ := by
  cases h with
  | pruned hnode hclosed =>
    exact .pruned hnode hclosed (status_modify hnode _) (Tree.size_modify _ _ _)
      (standing_emit _ rfl)
  | infeasible hasked hnot journal =>
    exact .infeasible (hasked.answer? _) (status_modify hasked.get? _) hasked.lpSolves_eq
      (Tree.size_modify _ _ _) (standing_closeInfeasible s e.node _ _)
  | @integer node box a scoring learned hasked hoptimal hlearns hinteger journal =>
    have hcore := core_offer ((s.solved node learned).record e.node node.depth .integer a.objective
      none) e.node a.x a.objective
    have htree : State.tree (State.offer _ _ _ _) = s.tree.modify e.node _ :=
      congrArg Core.tree hcore
    refine .integer (hasked.answer? _) hoptimal ?_ ?_ ?_ ?_
    · show ((State.tree (State.offer _ _ _ _)).get? _).map _ = _
      rw [htree]
      exact status_modify hasked.get? _
    · show (State.scoring (State.offer _ _ _ _)).oracle.lpSolves = _
      rw [← hasked.lpSolves_eq, ← hlearns.oracle_eq]
      unfold State.offer
      split <;> rfl
    · show (State.tree (State.offer _ _ _ _)).size = _
      rw [htree, Tree.size_modify]
    · show (State.offer _ _ _ _).standing = _
      rw [standing_offer, standing_record]
  | @fathomed node box a scoring learned hasked hoptimal hlearns hinteger hclosed infeasibility
      hinfeasibility journal =>
    refine .fathomed hasked.get? (hasked.answer? _) hoptimal hclosed (status_modify hasked.get? _)
      ?_ (Tree.size_modify _ _ _) (standing_record s e.node node learned _ _ _)
    rw [← hasked.lpSolves_eq, ← hlearns.oracle_eq]
    rfl
  | @branched node box a scoring learned chosen c down up first last hasked hoptimal hlearns
      hinteger hopen hdepth infeasibility hinfeasibility noted hselect hpriorities hdown hup
      journal =>
    obtain ⟨tree, htree, tree', htree', hledger⟩ := ledger_of_addChild? hdown hup
    have hlast : last.tree = tree' := congrArg (fun ledger => ledger.tree) hledger
    have hrecorded := get?_recorded s.core e.node a.objective .candidate (some infeasibility)
      hasked.get?
    refine .branched hasked.get? hasked.not_closed (hasked.answer? _) hopen ?_ ?_
    · show (last.tree.get? e.node).map _ = _
      rw [hlast, Tree.get?_children_of_lt hrecorded htree htree' (Tree.get?_lt_size hrecorded)]
      exact status_modify hasked.get? _
    · show last.standing = _
      rw [standing_addChild? hup, standing_addChild? hdown]
      exact standing_record s e.node node chosen _ _ _

/-- Every round ends in one of six ways for its node. -/
theorem fate_of_dealt (h : Dealt ctx e s t) (hfresh : s.tree.Fresh e.node) :
    Fate ctx ⟨e, s, t⟩ := by
  obtain ⟨⟨node, hnode, hstatus⟩, -⟩ := hfresh
  cases h with
  | visits hvisits => exact fate_of_visits hvisits
  | breaks hbreaks =>
    cases hbreaks with
    | missing hmissing => cases hnode.symm.trans hmissing
    | unsolved hnode' err scoring =>
      refine .unsettled ?_ rfl rfl
      show (s.tree.get? e.node).map Node.status = _
      rw [hnode, Option.map_some, hstatus]
    | @unbranched asked box a scoring learned hasked hoptimal hlearns infeasibility err last =>
      exact .unsettled (status_modify hnode _) (Tree.size_modify _ _ _)
        (standing_record s e.node asked learned _ _ _)
    | unreported hvisits => exact fate_of_visits hvisits

end Fate

/-! ## The first of the best -/

/-- One of the nodes found is the first of the best: those before it are worse, and those after it
no better. Nodes whose value does not count are passed over. -/
def FirstBest (found : List (ℕ × Answer α)) (best : ℕ × Answer α) : Prop :=
  Counts best.2.objective ∧ ∃ earlier later, found = earlier ++ best :: later ∧
    (∀ c ∈ earlier, Counts c.2.objective → c.2.objective < best.2.objective) ∧
    ∀ c ∈ later, Counts c.2.objective → c.2.objective ≤ best.2.objective

/-- The events tell better and better incumbents and are counted, and the incumbent is the first of
the best nodes found, which the last event told; there is none as long as no node found counts. -/
structure Champion (found : List (ℕ × Answer α)) (s : Standing α) : Prop where
  increasing : (s.told.map Prod.snd).Pairwise (· < ·)
  counted : s.updates = s.told.length
  best : (s.incumbent = .none ∧ s.told = [] ∧ ∀ c ∈ found, ¬ Counts c.2.objective) ∨
    ∃ best, FirstBest found best ∧ s.incumbent = ⟨some best.2.x, best.2.objective⟩ ∧
      s.told.getLast? = some (best.1, best.2.objective)

section Champion

variable [ComparableScalar α] {found : List (ℕ × Answer α)} {best : ℕ × Answer α}
  {s : Standing α} {id : ℕ} {a : Answer α}

/-- No answer among those found beats the best. -/
theorem FirstBest.le_of_counts (h : FirstBest found best) {c : ℕ × Answer α} (hc : c ∈ found)
    (hcounts : Counts c.2.objective) : c.2.objective ≤ best.2.objective := by
  obtain ⟨hbest, earlier, later, rfl, hearlier, hlater⟩ := h
  rcases List.mem_append.mp hc with hc | hc
  · exact le_of_lt (hearlier c hc hcounts)
  · rcases List.mem_cons.mp hc with rfl | hc
    · exact le_refl_of_lt (counts_iff.mp hbest)
    · exact hlater c hc hcounts

/-- A node that is not better comes too late. -/
theorem FirstBest.keep (h : FirstBest found best)
    (hworse : ¬ best.2.objective < a.objective) : FirstBest (found ++ [(id, a)]) best := by
  obtain ⟨hbest, earlier, later, rfl, hearlier, hlater⟩ := h
  refine ⟨hbest, earlier, later ++ [(id, a)], by simp, hearlier, ?_⟩
  intro c hc hcounts
  rcases List.mem_append.mp hc with hc | hc
  · exact hlater c hc hcounts
  · cases List.mem_singleton.mp hc
    exact le_of_not_lt hbest.1 hcounts.1 hworse

omit [ComparableScalar α] in
/-- A node that is better than all before it is the first of the best. -/
theorem firstBest_snoc (hcounts : Counts a.objective)
    (hbetter : ∀ c ∈ found, Counts c.2.objective → c.2.objective < a.objective) :
    FirstBest (found ++ [(id, a)]) (id, a) :=
  ⟨hcounts, found, [], rfl, hbetter, fun _ hc => absurd hc List.not_mem_nil⟩

/-- An answer that is not better leaves the champion and what was told. -/
theorem Champion.lose (h : Champion found s) (hworse : ¬ s.incumbent.objective < a.objective) :
    Champion (found ++ [(id, a)]) s where
  increasing := h.increasing
  counted := h.counted
  best := by
    rcases h.best with ⟨hnone, htold, hfound⟩ | ⟨best, hbest, hincumbent, hlast⟩
    · refine .inl ⟨hnone, htold, ?_⟩
      intro c hc
      rcases List.mem_append.mp hc with hc | hc
      · exact hfound c hc
      · cases List.mem_singleton.mp hc
        rw [hnone] at hworse
        exact mt counts_iff.mp hworse
    · rw [hincumbent] at hworse
      exact .inr ⟨best, hbest.keep hworse, hincumbent, hlast⟩

/-- A better answer is the new champion, is counted and is told. -/
theorem Champion.win (h : Champion found s) (hbetter : s.incumbent.objective < a.objective) :
    Champion (found ++ [(id, a)])
      ⟨⟨some a.x, a.objective⟩, s.updates + 1, s.told ++ [(id, a.objective)]⟩ where
  increasing := by
    rw [List.map_append, List.pairwise_append]
    refine ⟨h.increasing, List.pairwise_singleton _ _, ?_⟩
    intro v hv w hw
    cases List.mem_singleton.mp hw
    -- the last value told is that of the incumbent, and those before it are smaller
    rcases h.best with ⟨-, htold, -⟩ | ⟨best, -, hincumbent, hlast⟩
    · rw [htold] at hv
      cases hv
    · obtain ⟨before, hsplit⟩ := List.getLast?_eq_some_iff.mp hlast
      rw [hincumbent] at hbetter
      have hincreasing := h.increasing
      rw [hsplit, List.map_append, List.pairwise_append] at hincreasing
      rw [hsplit, List.map_append, List.mem_append] at hv
      rcases hv with hv | hv
      · have hless := hincreasing.2.2 v hv _ List.mem_cons_self
        exact lt_of_le_of_lt (le_of_lt hless) hbetter
      · cases List.mem_singleton.mp hv
        exact hbetter
  counted := by
    rw [List.length_append, h.counted]
    rfl
  best := by
    refine .inr ⟨(id, a), firstBest_snoc (counts_of_lt hbetter) ?_, rfl, List.getLast?_concat⟩
    intro c hc hcounts
    rcases h.best with ⟨-, -, hfound⟩ | ⟨best, hbest, hincumbent, -⟩
    · exact absurd hcounts (hfound c hc)
    · rw [hincumbent] at hbetter
      exact lt_of_le_of_lt (hbest.le_of_counts hc hcounts) hbetter

/-- Either way the incumbent stays the champion. -/
theorem Champion.offer (h : Champion found s) (id : ℕ) (a : Answer α) :
    Champion (found ++ [(id, a)]) (s.offer id a) := by
  unfold Standing.offer
  split
  case isTrue hbetter => exact h.win hbetter
  case isFalse hworse => exact h.lose hworse

/-- The incumbent's objective is defined. -/
theorem Champion.objective_le_self (h : Champion found s) :
    s.incumbent.objective ≤ s.incumbent.objective := by
  rcases h.best with ⟨hnone, -, -⟩ | ⟨best, ⟨hcounts, -⟩, hincumbent, -⟩
  · rw [hnone]
    exact neg_infinity_le _ defined_neg_infinity
  · rw [hincumbent]
    exact le_refl_of_lt (counts_iff.mp hcounts)

/-- What is at most the incumbent's objective stays so. -/
theorem Standing.le_offer {v : α} (h : v ≤ s.incumbent.objective) (id : ℕ) (a : Answer α) :
    v ≤ (s.offer id a).incumbent.objective := by
  unfold Standing.offer
  split
  case isTrue hbetter => exact le_trans _ _ _ h (le_of_lt hbetter)
  case isFalse hworse => exact h

end Champion

/-! ## Why nodes are branched on or closed -/

/-- Why the nodes of a tree were branched on or closed, told of the rounds so far. -/
structure Prudent (ctx : Context σ α) (done : List (Round σ α)) (s : Ledger α) : Prop where
  /-- No node is taken up twice. -/
  once : (done.map fun r => r.entry.node).Nodup
  /-- An integer node has an optimum. -/
  optimum : ∀ r ∈ done, r.status? = some .integer →
    ∃ a, r.answer? ctx = some a ∧ a.isOptimal = true
  /-- A node with children was worth branching on: neither the bound it inherited nor its optimum
  was within the incumbent. -/
  branched : ctx.settings.enumerateAll = false → ∀ id, s.tree.children id ≠ [] →
    ∃ r ∈ done, r.entry.node = id ∧ ¬ r.entry.bound ≤ r.before.incumbent.objective ∧
      ∃ a, r.answer? ctx = some a ∧ ¬ a.objective ≤ r.before.incumbent.objective
  /-- A closed node whose relaxation was not solved is bounded by the incumbent. -/
  closed : ctx.settings.enumerateAll = false → ∀ id node, s.tree.get? id = some node →
    node.status ≠ .candidate → ∃ r ∈ done, r.entry.node = id ∧
      (r.after.scoring.oracle.lpSolves = r.before.scoring.oracle.lpSolves →
        r.entry.bound ≤ s.incumbent.objective)
  /-- Where every node is looked at, a node is fathomed for its depth alone. -/
  enumerated : ctx.settings.enumerateAll = true → s.pruned = 0 ∧
    ∀ id node, s.tree.get? id = some node → node.status = .fathomed →
      ctx.tooDeep node.depth = true ∧
        ∃ r ∈ done, r.entry.node = id ∧ ∃ a, r.answer? ctx = some a ∧ a.isOptimal = true

section Prudent

variable {ctx : Context σ α} {done : List (Round σ α)} {s t : State σ α} {e : Entry α}
  {rest : Frontier α} {r : Round σ α}

/-- Unless every node is looked at, a bound closes a node exactly where it is within the
incumbent. -/
theorem closedBy_iff (hpruning : ctx.settings.enumerateAll = false) {incumbent bound : α} :
    ctx.closedBy incumbent bound = true ↔ bound ≤ incumbent := by
  simp [Context.closedBy, hpruning]

/-- With full enumeration no bound closes a node. -/
theorem closedBy_of_enumerateAll (hall : ctx.settings.enumerateAll = true) (incumbent bound : α) :
    ctx.closedBy incumbent bound = false := by
  simp [Context.closedBy, hall]

/-- A visit leaves the incumbent, or offers it one answer. -/
theorem Fate.incumbent_eq_or (h : Fate ctx r) : r.after.incumbent = r.before.incumbent ∨
    ∃ a, r.after.incumbent = (r.before.standing.offer r.entry.node a).incumbent := by
  cases h with
  | integer hanswer hoptimal hstatus hsolves hsize hoffer =>
    exact .inr ⟨_, congrArg Standing.incumbent hoffer⟩
  | unsettled hstatus hsize hsame => exact .inl (congrArg Standing.incumbent hsame)
  | pruned hnode hclosed hstatus hsize hsame => exact .inl (congrArg Standing.incumbent hsame)
  | infeasible hanswer hstatus hsolves hsize hsame =>
    exact .inl (congrArg Standing.incumbent hsame)
  | fathomed hnode hanswer hoptimal hclosed hstatus hsolves hsize hsame =>
    exact .inl (congrArg Standing.incumbent hsame)
  | branched hnode hbound hanswer hopen hstatus hsame =>
    exact .inl (congrArg Standing.incumbent hsame)

/-- What is within the incumbent stays so. -/
theorem Fate.le_incumbent [ComparableScalar α] (h : Fate ctx r) {v : α}
    (hv : v ≤ r.before.incumbent.objective) : v ≤ r.after.incumbent.objective := by
  rcases h.incumbent_eq_or with hsame | ⟨a, hoffer⟩
  · rw [hsame]
    exact hv
  · rw [hoffer]
    exact Standing.le_offer hv _ a

/-- A round in which the tree grows is one in which a node gets children. -/
theorem Fate.of_size_lt (h : Fate ctx r) (hsize : r.before.tree.size < r.after.tree.size) :
    ∃ node a, r.before.tree.get? r.entry.node = some node ∧
      ctx.closedBy r.before.incumbent.objective node.bound = false ∧ r.answer? ctx = some a ∧
      ctx.closedBy r.before.incumbent.objective a.objective = false := by
  cases h with
  | branched hnode hbound hanswer hopen hstatus hsame =>
    exact ⟨_, _, hnode, hbound, hanswer, hopen⟩
  | unsettled hstatus hsame => omega
  | pruned hnode hclosed hstatus hsame => omega
  | infeasible hanswer hstatus hsolves hsame => omega
  | integer hanswer hoptimal hstatus hsolves hsame => omega
  | fathomed hnode hanswer hoptimal hclosed hstatus hsolves hsame => omega

/-- A node that is closed without a solve is bounded by the incumbent. -/
theorem Fate.bound_le (h : Fate ctx r) (hpruning : ctx.settings.enumerateAll = false)
    (hbound : ∀ node, r.before.tree.get? r.entry.node = some node → node.bound = r.entry.bound)
    (hclosed : r.status? ≠ some .candidate)
    (hsolves : r.after.scoring.oracle.lpSolves = r.before.scoring.oracle.lpSolves) :
    r.entry.bound ≤ r.before.incumbent.objective := by
  cases h with
  | pruned hnode hbounded hstatus hsize hsame =>
    rw [← hbound _ hnode]
    exact (closedBy_iff hpruning).mp hbounded
  | unsettled hstatus hsize hsame => exact absurd hstatus hclosed
  | branched hnode hopen hanswer hrelax hstatus hsame => exact absurd hstatus hclosed
  | infeasible hanswer hstatus hmore => omega
  | integer hanswer hoptimal hstatus hmore => omega
  | fathomed hnode hanswer hoptimal hreason hstatus hmore => omega

/-- Where every node is looked at, a node is fathomed for its depth. -/
theorem Fate.tooDeep (h : Fate ctx r) (hall : ctx.settings.enumerateAll = true)
    (hfathomed : r.status? = some .fathomed) :
    ∃ node a, r.before.tree.get? r.entry.node = some node ∧ ctx.tooDeep node.depth = true ∧
      r.answer? ctx = some a ∧ a.isOptimal = true := by
  cases h with
  | fathomed hnode hanswer hoptimal hreason hstatus hsolves hsize hsame =>
    rw [closedBy_of_enumerateAll hall] at hreason
    exact ⟨_, _, hnode, hreason.resolve_left Bool.false_ne_true, hanswer, hoptimal⟩
  | pruned hnode hbounded hstatus hsize hsame =>
    rw [closedBy_of_enumerateAll hall] at hbounded
    cases hbounded
  | unsettled hstatus => cases hstatus.symm.trans hfathomed
  | infeasible hanswer hstatus => cases hstatus.symm.trans hfathomed
  | integer hanswer hoptimal hstatus => cases hstatus.symm.trans hfathomed
  | branched hnode hbound hanswer hopen hstatus => cases hstatus.symm.trans hfathomed

/-- A node that is found whole had an optimum. -/
theorem Fate.optimum (h : Fate ctx r) (hinteger : r.status? = some .integer) :
    ∃ a, r.answer? ctx = some a ∧ a.isOptimal = true := by
  cases h with
  | integer hanswer hoptimal hstatus hsolves hsize hoffer => exact ⟨_, hanswer, hoptimal⟩
  | unsettled hstatus => cases hstatus.symm.trans hinteger
  | pruned hnode hclosed hstatus => cases hstatus.symm.trans hinteger
  | infeasible hanswer hstatus => cases hstatus.symm.trans hinteger
  | fathomed hnode hanswer hoptimal hclosed hstatus => cases hstatus.symm.trans hinteger
  | branched hnode hbound hanswer hopen hstatus => cases hstatus.symm.trans hinteger

/-- A round in which no integer node is found leaves the standing as it is. -/
theorem Champion.idle (h : Champion (found ctx done) r.before.standing)
    (hstatus : r.status? ≠ some .integer) (hsame : r.after.standing = r.before.standing) :
    Champion (found ctx (done ++ [r])) r.after.standing := by
  have hfound : found ctx (done ++ [r]) = found ctx done := by
    apply filterMap_snoc_none
    unfold Round.found?
    rw [if_neg hstatus]
  rw [hfound, hsame]
  exact h

/-- Every round keeps the incumbent the first of the best. -/
theorem Champion.round [ComparableScalar α] (h : Champion (found ctx done) r.before.standing)
    (hfate : Fate ctx r) : Champion (found ctx (done ++ [r])) r.after.standing := by
  have hne : ∀ {status : NodeStatus}, r.status? = some status → status ≠ .integer →
      r.status? ≠ some .integer := by
    intro status hstatus hne hinteger
    rw [hstatus] at hinteger
    exact hne (Option.some.inj hinteger)
  cases hfate with
  | @integer a hanswer hoptimal hstatus hsolves hsize hoffer =>
    have hfound : found ctx (done ++ [r]) = found ctx done ++ [(r.entry.node, a)] := by
      unfold found
      rw [List.filterMap_append]
      congr 1
      simp [Round.found?, hstatus, hanswer]
    rw [hfound, hoffer]
    exact h.offer r.entry.node a
  | unsettled hstatus hsize hsame => exact h.idle (hne hstatus NodeStatus.noConfusion) hsame
  | pruned hnode hclosed hstatus hsize hsame =>
    exact h.idle (hne hstatus NodeStatus.noConfusion) hsame
  | infeasible hanswer hstatus hsolves hsize hsame =>
    exact h.idle (hne hstatus NodeStatus.noConfusion) hsame
  | fathomed hnode hanswer hoptimal hclosed hstatus hsolves hsize hsame =>
    exact h.idle (hne hstatus NodeStatus.noConfusion) hsame
  | branched hnode hbound hanswer hopen hstatus hsame =>
    exact h.idle (hne hstatus NodeStatus.noConfusion) hsame

/-- A round keeps prudence: what it prunes, it prunes against the incumbent of the moment. -/
theorem Prudent.round [ComparableScalar α] (h : Prudent ctx done s.ledger)
    (hnarrated : Narrated ctx (done.map Round.entry) s.ledger) (htakes : TakesUp ctx e rest s t) :
    Prudent ctx (done ++ [⟨e, { s with frontier := rest }, t⟩]) t.ledger := by
  have hplaced : Placed _ s.tree s.frontier := hnarrated.orderly.placed
  have hfresh := (hplaced.pop htakes.pop?).2
  have hleaf := hfresh.2
  obtain ⟨node, hnode, -⟩ := hfresh.1
  obtain ⟨he, -⟩ := Frontier.pop?_eq_some htakes.pop?
  have hturn := htakes.dealt.turn (s := { s with frontier := rest }) hnode
  have hgrows := hturn.grows
  have hfate := fate_of_dealt (s := { s with frontier := rest }) htakes.dealt hfresh
  have hnew : (⟨e, { s with frontier := rest }, t⟩ : Round σ α)
      ∈ done ++ [⟨e, { s with frontier := rest }, t⟩] :=
    List.mem_append_right _ (List.mem_singleton.mpr rfl)
  constructor
  case once =>
    rw [List.map_append]
    have hnot := hplaced.not_mem_taken he
    rw [List.map_map] at hnot
    apply List.Nodup.append h.once (List.nodup_singleton _)
    intro id hid hlast
    cases List.mem_singleton.mp hlast
    exact hnot hid
  case optimum =>
    intro r hr hinteger
    rcases List.mem_append.mp hr with hr | hr
    · exact h.optimum r hr hinteger
    · cases List.mem_singleton.mp hr
      exact hfate.optimum hinteger
  case branched =>
    intro hpruning id hchildren
    by_cases hid : id = e.node
    · subst hid
      obtain ⟨node', a, hnode', hbound, hanswer, hopen⟩ :=
        hfate.of_size_lt (hgrows.size_lt hleaf hchildren)
      have heq := hnarrated.bound_eq hpruning e he node' hnode'
      rw [← Bool.not_eq_true, closedBy_iff hpruning] at hbound hopen
      rw [heq] at hbound
      exact ⟨_, hnew, rfl, hbound, a, hanswer, hopen⟩
    · have hsame := hgrows.children_of_ne hplaced.linked hid
      obtain ⟨r, hr, hreason⟩ := h.branched hpruning id fun hnil => hchildren (hsame.trans hnil)
      exact ⟨r, List.mem_append_left _ hr, hreason⟩
  case closed =>
    intro hpruning id closed hclosed hstatus
    by_cases hid : id = e.node
    · subst hid
      refine ⟨_, hnew, rfl, ?_⟩
      intro hsolves
      apply hfate.le_incumbent
      have hget : t.tree.get? e.node = some closed := hclosed
      refine hfate.bound_le hpruning (hnarrated.bound_eq hpruning e he) ?_ hsolves
      show (t.tree.get? e.node).map Node.status ≠ _
      rw [hget]
      exact fun heq => hstatus (Option.some.inj heq)
    · have hbefore := (hgrows.get?_of_ne hid hclosed).resolve_right hstatus
      obtain ⟨r, hr, hnode, hbound⟩ := h.closed hpruning id closed hbefore hstatus
      refine ⟨r, List.mem_append_left _ hr, hnode, ?_⟩
      intro hsolves
      exact hfate.le_incumbent (hbound hsolves)
  case enumerated =>
    intro hall
    obtain ⟨hpruned, hfathomed⟩ := h.enumerated hall
    refine ⟨(hturn.pruned_eq hall).trans hpruned, ?_⟩
    intro id closed hclosed hstatus
    by_cases hid : id = e.node
    · subst hid
      have hget : t.tree.get? e.node = some closed := hclosed
      have hstatus' : (t.tree.get? e.node).map Node.status = some .fathomed := by
        rw [hget, Option.map_some, hstatus]
      obtain ⟨before, a, hbefore, hdeep, hanswer, hoptimal⟩ := hfate.tooDeep hall hstatus'
      rw [hgrows.depth_eq hbefore hclosed]
      exact ⟨hdeep, _, hnew, rfl, a, hanswer, hoptimal⟩
    · have hbefore := (hgrows.get?_of_ne hid hclosed).resolve_right fun hcandidate => by
        rw [hcandidate] at hstatus
        cases hstatus
      obtain ⟨hdeep, r, hr, hreason⟩ := hfathomed id closed hbefore hstatus
      exact ⟨hdeep, r, List.mem_append_left _ hr, hreason⟩

end Prudent

/-! ## Every search -/

theorem champion_initial (ctx : Context σ α) (backend : σ) :
    Champion (found ctx []) (initial ctx backend).standing where
  increasing := List.Pairwise.nil
  counted := rfl
  best := .inl ⟨rfl, rfl, fun _ hc => absurd hc List.not_mem_nil⟩

theorem prudent_initial (ctx : Context σ α) (backend : σ) :
    Prudent ctx [] (initial ctx backend).ledger := by
  -- the root alone is there, and nothing was done with it
  have hroot : ∀ {id : ℕ} {node : Node α},
      (initial ctx backend).tree.get? id = some node → node = Node.root := by
    intro id node hnode
    have hlt : id < 1 := Tree.get?_lt_size hnode
    obtain rfl : id = 0 := by omega
    exact (Option.some.inj hnode).symm
  constructor
  case once => exact List.nodup_nil
  case optimum => exact fun r hr => absurd hr List.not_mem_nil
  case branched =>
    intro _ id hchildren
    obtain ⟨k, hk⟩ := List.exists_mem_of_ne_nil _ hchildren
    obtain ⟨node, hnode, hparent⟩ := Tree.mem_children_iff.mp hk
    rw [hroot hnode] at hparent
    cases hparent
  case closed =>
    intro _ id node hnode hstatus
    rw [hroot hnode] at hstatus
    exact absurd rfl hstatus
  case enumerated =>
    refine fun _ => ⟨rfl, ?_⟩
    intro id node hnode hstatus
    rw [hroot hnode] at hstatus
    cases hstatus

omit [Scalar α] in
theorem standing_foldl_note (notes : List (Note α)) (s : State σ α) :
    (notes.foldl State.note s).standing = s.standing := by
  induction notes generalizing s with
  | nil => rfl
  | cons n notes ih => exact ih (s.note n)

/-- The closing notes leave the standing as it is. -/
theorem standing_search (ctx : Context σ α) (backend : σ) :
    (search ctx backend).state.standing
      = ((Phase.running (initial ctx backend)).advance ctx
          (stepBound ctx.settings)).state.standing := by
  unfold search
  cases (Phase.running (initial ctx backend)).advance ctx (stepBound ctx.settings) with
  | running s => exact standing_foldl_note _ s
  | ended result s =>
    cases result with
    | error e => rfl
    | ok status => exact standing_foldl_note _ s

/-- The incumbent is the champion after every number of steps. -/
theorem champion_of_run [ComparableScalar α] (ctx : Context σ α) (backend : σ) (n : ℕ) :
    Champion (found ctx (rounds ctx n (initial ctx backend)))
      ((Phase.running (initial ctx backend)).advance ctx n).state.standing := by
  refine (holds_of_search (P := fun done s => Champion (found ctx done) s.standing) ?_
    (champion_initial ctx backend) n).2
  intro done s t e rest hnarrated hchampion htakes
  obtain ⟨-, hfresh⟩ := hnarrated.orderly.placed.pop htakes.pop?
  have hfate := fate_of_dealt (s := { s with frontier := rest }) htakes.dealt hfresh
  exact Champion.round (r := ⟨e, { s with frontier := rest }, t⟩) hchampion hfate

/-- So is pruning prudent. -/
theorem prudent_of_run [ComparableScalar α] (ctx : Context σ α) (backend : σ) (n : ℕ) :
    Prudent ctx (rounds ctx n (initial ctx backend))
      ((Phase.running (initial ctx backend)).advance ctx n).state.ledger :=
  (holds_of_search (P := fun done s => Prudent ctx done s.ledger)
    (fun hnarrated hprudent htakes => hprudent.round hnarrated htakes)
    (prudent_initial ctx backend) n).2

/-- The incumbent and the pruning of every search, between any two nodes and at its end, whether it
ends well or fails. The events about incumbents tell strictly better and better values, and are
counted; the incumbent is the first of the best integer nodes so far, and the last event told it. A
node was branched on only if neither the bound it inherited nor its optimum was within the incumbent
of that time; one that was closed without a solve is bounded by the incumbent, at the end by the
objective of the solution; and where every node is looked at, none is closed by a bound. -/
theorem incumbents_improve_and_pruning_is_sound [ComparableScalar α] (ctx : Context σ α)
    (backend : σ) :
    (∀ n, Champion (found ctx (rounds ctx n (initial ctx backend)))
        ((Phase.running (initial ctx backend)).advance ctx n).state.standing ∧
      Prudent ctx (rounds ctx n (initial ctx backend))
        ((Phase.running (initial ctx backend)).advance ctx n).state.ledger) ∧
    Champion (found ctx (rounds ctx (stepBound ctx.settings) (initial ctx backend)))
      (search ctx backend).state.standing ∧
    Prudent ctx (rounds ctx (stepBound ctx.settings) (initial ctx backend))
      (search ctx backend).state.ledger ∧
    ∀ sol, (search ctx backend).result = .ok sol →
      sol.x = (search ctx backend).state.incumbent.point.getD [] ∧
      sol.objective = (search ctx backend).state.incumbent.objective ∧
      sol.stats.incumbentUpdates = (search ctx backend).state.incumbentUpdates := by
  refine ⟨fun n => ⟨champion_of_run ctx backend n, prudent_of_run ctx backend n⟩, ?_, ?_, ?_⟩
  · rw [standing_search]
    exact champion_of_run ctx backend _
  · rw [ledger_search]
    exact prudent_of_run ctx backend _
  · intro sol hok
    obtain ⟨s, -, hsol, hstate⟩ := outcome_of_search hok
    have hstanding := congrArg State.standing hstate
    rw [standing_foldl_note] at hstanding
    have hincumbent : (search ctx backend).state.incumbent = s.incumbent :=
      congrArg Standing.incumbent hstanding
    have hupdates : (search ctx backend).state.incumbentUpdates = s.incumbentUpdates :=
      congrArg Standing.updates hstanding
    rw [hincumbent, hupdates, hsol]
    exact ⟨rfl, rfl, rfl⟩

/-- A search over doubles without integer variables, so that every optimum counts as integer. -/
def scriptedContext : Context (Script Float) Float :=
  ⟨⟨[1], [], [.continuous]⟩, Settings.standard.generalInteger, scripted, id⟩

/-- A backend whose only answer has no value. -/
def undefinedScript : Script Float := .new [.ok ⟨.optimal, [1], 0 / 0, 1⟩]

/-- An optimum without a value is found but never told as an incumbent; and in the search for the
largest whole number whose double is at most three, one is told at the first child of the root. -/
theorem incumbents_improve_examples :
    ((found scriptedContext (rounds scriptedContext (stepBound scriptedContext.settings)
        (initial scriptedContext undefinedScript))).map fun c => (c.1, c.2.objective.isNaN))
        = [(0, true)] ∧
      (search scriptedContext undefinedScript).state.standing.told.length = 0 ∧
      Champion (found scriptedContext (rounds scriptedContext (stepBound scriptedContext.settings)
        (initial scriptedContext undefinedScript)))
        (search scriptedContext undefinedScript).state.standing ∧
      (search (doubledContext 3) ()).state.standing.told = [(1, .fin 1)] ∧
      Champion (found (doubledContext 3) (rounds (doubledContext 3)
        (stepBound (doubledContext 3).settings) (initial (doubledContext 3) ())))
        (search (doubledContext 3) ()).state.standing ∧
      Prudent (doubledContext 3) (rounds (doubledContext 3) (stepBound (doubledContext 3).settings)
        (initial (doubledContext 3) ())) (search (doubledContext 3) ()).state.ledger := by
  obtain ⟨-, hundefined, -⟩ :=
    incumbents_improve_and_pruning_is_sound scriptedContext undefinedScript
  obtain ⟨-, hchampion, hprudent, -⟩ :=
    incumbents_improve_and_pruning_is_sound (doubledContext 3) ()
  exact ⟨by decide +kernel, by decide +kernel, hundefined, by decide +kernel, hchampion, hprudent⟩

end Search

end BranchBound
