import BranchBound.Proofs.Search.AskedChildren
import BranchBound.Proofs.Search.History

/-!
# What a round asks for and observes

Of each round of a search whose requests are written down, the requests can be read off: they are
what was written down between its two states. The first one is for the relaxation of the node taken
up, and all others were put for the choice of a variable.

* `Round.exchanges`, `Round.optimum?`: the requests of a round, and the optimum of its node.
* `Round.Asks`: what the requests are for.
* `Round.own?`, `Round.resolved`: the losses that can be read off them.
* `Round.Observes`: the pseudocosts change by these losses, and by nothing else.
* `Round.Splits`: what is known of a new node.
* `observes_of_visits`: all of this is true of a visit that succeeds.
-/

namespace BranchBound

open Relaxation

variable {σ α : Type}

namespace Search

open Scoring

/-! ## Rounds -/

namespace Round

variable (r : Round (σ × List (Exchange α)) α)

/-- The requests of a round with what came of them, in order. -/
def exchanges : List (Exchange α) :=
  r.after.scoring.log.drop r.before.scoring.log.length

/-- The optimum of the node taken up, whose relaxation is asked for first. -/
def optimum? : Option (Answer α) :=
  r.exchanges.head?.bind Exchange.optimum?

/-- What the branch to the node taken up lost. -/
def own? : Option (Loss α) := do
  let node ← r.before.tree.get? r.entry.node
  return ⟨← node.branch, node.bound, (← r.optimum?).objective⟩

variable [Scalar α]

/-- The pseudocosts by which a variable is chosen. -/
def table : PseudocostTable α :=
  r.own?.toList.foldl PseudocostTable.observe r.before.scoring.table

/-- What the children lost that were solved for a score. -/
def resolved (p : Problem α) (rule : BranchingRule α) : List (Loss α) :=
  match r.optimum? with
  | none => []
  | some a => Scoring.resolved p rule r.table a.x a.objective r.exchanges.tail

/-- What was asked for: first the relaxation of the node, and then, by reliability branching, those
of the children that it wants, up to some place. -/
structure Asks (ctx : Context σ α) : Prop where
  node : ∀ e ∈ r.exchanges.head?, e.cap = none ∧
    r.before.tree.box? r.entry.node ctx.rootBox = some e.box
  children : ∀ e ∈ r.exchanges.head?, ∀ a ∈ r.optimum?, ∀ rel,
    ctx.settings.rule = .reliability rel →
    ∃ bs, bs <+: wanted ctx.problem rel r.table a.x ∧
      List.Forall₂ (fun b d => b.restrict? e.box = some d.box) bs r.exchanges.tail

/-- What was observed: the loss of the branch to the node, and those of the children that were
solved for a score. -/
structure Observes (ctx : Context σ α) : Prop where
  table : r.after.scoring.table = (r.own?.toList
    ++ r.resolved ctx.problem ctx.settings.rule).foldl PseudocostTable.observe
      r.before.scoring.table
  full : r.after.scoring.fullResolves = r.before.scoring.fullResolves
    + (r.resolved ctx.problem ctx.settings.rule).length

/-- A new node hangs below the one taken up, takes over its value, and its branch moves its
variable. -/
def Splits : Prop :=
  ∀ k child, r.before.tree.get? k = none → r.after.tree.get? k = some child →
    ∃ node a b, r.before.tree.get? r.entry.node = some node ∧ r.optimum? = some a ∧
      child.parent = some node.id ∧ child.bound = a.objective ∧ child.branch = some b ∧
      ¬ b.distance ≤ 0

variable {r} {es : List (Exchange α)} {box : Box α} {a : Answer α}

omit [Scalar α] in
theorem exchanges_eq (h : r.after.scoring.log = r.before.scoring.log ++ es) : r.exchanges = es := by
  unfold exchanges
  rw [h, List.drop_left]

omit [Scalar α] in
theorem optimum?_eq (h : r.exchanges = ⟨box, none, .ok a⟩ :: es) :
    r.optimum? = if a.isOptimal then some a else none := by
  unfold optimum?
  rw [h]
  exact Exchange.optimum?_ok box none a

/-- Where a node has no optimum, nothing is observed. -/
theorem observes_of_none (hoptimum : r.optimum? = none)
    (htable : r.after.scoring.table = r.before.scoring.table)
    (hfull : r.after.scoring.fullResolves = r.before.scoring.fullResolves)
    (ctx : Context σ α) : r.Observes ctx := by
  have hown : r.own? = none := by
    unfold own?
    rw [hoptimum]
    cases r.before.tree.get? r.entry.node with
    | none => rfl
    | some node =>
      rw [Option.bind_eq_bind, Option.bind_some]
      cases node.branch <;> rfl
  have hresolved : r.resolved ctx.problem ctx.settings.rule = [] := by
    unfold resolved
    rw [hoptimum]
  constructor
  · rw [hown, hresolved, htable]
    rfl
  · rw [hresolved, hfull]
    rfl

end Round

/-! ## Visits -/

section Visits

variable [Scalar α] {ctx : Context σ α} {e : Entry α} {s t : State (σ × List (Exchange α)) α}
  {node : Node α}
  {box : Box α} {a : Answer α} {scoring learned chosen : Scoring (σ × List (Exchange α)) α}

/-- What scoring learns from the optimum of a node is what the branch to it lost. -/
theorem Learns.observed {relax : α} (h : Learns node relax scoring learned) :
    learned.log = scoring.log ∧ learned.fullResolves = scoring.fullResolves ∧
      learned.table = (node.branch.map fun b => ⟨b, node.bound, relax⟩).toList.foldl
        PseudocostTable.observe scoring.table := by
  unfold Learns at h
  cases hbranch : node.branch with
  | none =>
    rw [hbranch] at h
    rw [h]
    exact ⟨rfl, rfl, rfl⟩
  | some b =>
    rw [hbranch] at h
    obtain ⟨htable, horacle, hfull⟩ := observe_of_runs_learn h
    exact ⟨congrArg (·.backend.2) horacle, hfull, htable⟩

/-- A round that found an optimum observed the loss of the branch to its node, and then what was
resolved for the choice of a variable. -/
theorem observes_of_optimum {es : List (Exchange α)}
    (hasked : Asked (ctx.over (transcribing ctx.backend)) e.node s node box a scoring)
    (hoptimal : a.isOptimal = true) (hlearns : Learns node a.objective scoring learned)
    (hchooses : Chooses ctx.problem ctx.settings.rule (branchPoint node box a) es learned chosen)
    (ht : ∃ journal, t.scoring = { chosen with journal }) :
    Round.optimum? ⟨e, s, t⟩ = some a ∧ Round.Asks ⟨e, s, t⟩ ctx ∧
      Round.Observes ⟨e, s, t⟩ ctx := by
  obtain ⟨journal, ht⟩ := ht
  have hposts := posts_of_runs_solveNode hasked.ask
  obtain ⟨hlog, hfull, htable⟩ := hlearns.observed
  have hexchanges : Round.exchanges ⟨e, s, t⟩ = ⟨box, none, .ok a⟩ :: es := by
    refine Round.exchanges_eq ?_
    show t.scoring.log = s.scoring.log ++ _
    rw [ht]
    show chosen.log = _
    rw [hchooses.log, hlog, hposts.log_eq, List.append_assoc, List.singleton_append]
  have hoptimum : Round.optimum? ⟨e, s, t⟩ = some a := by
    rw [Round.optimum?_eq hexchanges, if_pos hoptimal]
  have hown : Round.own? ⟨e, s, t⟩ = node.branch.map fun b => ⟨b, node.bound, a.objective⟩ := by
    unfold Round.own?
    rw [hoptimum]
    dsimp only
    rw [hasked.get?, Option.bind_eq_bind, Option.bind_some]
    cases node.branch <;> rfl
  have hlearned : Round.table ⟨e, s, t⟩ = learned.table := by
    unfold Round.table
    rw [hown, htable, hasked.table_eq]
  have hresolved : Round.resolved ⟨e, s, t⟩ ctx.problem ctx.settings.rule
      = Scoring.resolved ctx.problem ctx.settings.rule learned.table a.x a.objective es := by
    unfold Round.resolved
    rw [hoptimum, hexchanges, hlearned]
    rfl
  refine ⟨hoptimum, ⟨?_, ?_⟩, ⟨?_, ?_⟩⟩
  · rw [hexchanges]
    rintro _ ⟨rfl⟩
    exact ⟨rfl, hasked.box?⟩
  · rw [hexchanges, hoptimum, hlearned]
    rintro _ ⟨rfl⟩ _ ⟨rfl⟩ rel hrel
    exact hchooses.boxes rel hrel
  · rw [List.foldl_append, hresolved]
    show t.scoring.table = List.foldl _ (Round.table ⟨e, s, t⟩) _
    rw [ht, hlearned]
    exact hchooses.table
  · rw [hresolved]
    show t.scoring.fullResolves = s.scoring.fullResolves + _
    rw [ht, ← hposts.fullResolves_eq, ← hfull]
    exact hchooses.full

/-- A round that only changes nodes adds none. -/
theorem splits_of_modify {g : Node α → Node α} {id : ℕ}
    (htree : t.tree = s.tree.modify id g) : Round.Splits ⟨e, s, t⟩ := by
  intro k child hnone hchild
  replace hchild : t.tree.get? k = some child := hchild
  replace hnone : s.tree.get? k = none := hnone
  rw [htree, Tree.get?_modify, hnone] at hchild
  split at hchild <;> cases hchild

/-- Offering a point is only noted down by scoring. -/
theorem scoring_offer (u : State σ α) (id : ℕ) (x : List α) (objective : α)
    (journal : Array (Note α)) :
    ((u.offer id x objective).withJournal journal).scoring = { u.scoring with journal } := by
  unfold State.offer
  split <;> rfl

/-- All that a successful visit asks for, observes and adds to the tree. -/
theorem observes_of_visits [DiscernibleScalar α]
    (hs : Balanced ctx.settings.rule s.processed s.scoring)
    (h : Visits (ctx.over (transcribing ctx.backend)) e.node e.bound s t) :
    Round.Asks ⟨e, s, t⟩ ctx ∧ Round.Observes ⟨e, s, t⟩ ctx ∧ Round.Splits ⟨e, s, t⟩ := by
  cases h with
  | pruned hnode hclosed =>
    have hexchanges : Round.exchanges ⟨e, s, s.prune e.node e.bound⟩ = [] :=
      Round.exchanges_eq (List.append_nil _).symm
    have hoptimum : Round.optimum? ⟨e, s, s.prune e.node e.bound⟩ = none := by
      unfold Round.optimum?
      rw [hexchanges]
      rfl
    refine ⟨⟨?_, ?_⟩, Round.observes_of_none hoptimum rfl rfl ctx, splits_of_modify rfl⟩
    · rw [hexchanges]
      nofun
    · rw [hexchanges]
      nofun
  | @infeasible node box a scoring hasked hnot journal =>
    have hposts := posts_of_runs_solveNode hasked.ask
    have hexchanges : Round.exchanges
        ⟨e, s, ((s.solved node scoring).closeInfeasible e.node node).withJournal journal⟩
          = [⟨box, none, .ok a⟩] := Round.exchanges_eq hposts.log_eq
    have hoptimum := Round.optimum?_eq hexchanges
    rw [if_neg (ne_true_of_eq_false hnot)] at hoptimum
    refine ⟨⟨?_, ?_⟩, Round.observes_of_none hoptimum hasked.table_eq hposts.fullResolves_eq ctx,
      splits_of_modify rfl⟩
    · rw [hexchanges]
      rintro _ ⟨rfl⟩
      exact ⟨rfl, hasked.box?⟩
    · rw [hoptimum]
      nofun
  | @integer node box a scoring learned hasked hoptimal hlearns hinteger journal =>
    refine and_assoc.mp ⟨(observes_of_optimum hasked hoptimal hlearns (.refl _ _ _ _)
      ⟨journal, scoring_offer _ _ _ _ _⟩).2, ?_⟩
    exact splits_of_modify (congrArg Core.tree (core_offer ((s.solved node learned).record e.node
      node.depth .integer a.objective none) e.node a.x a.objective))
  | fathomed hasked hoptimal hlearns hinteger hclosed hinfeasibility journal =>
    exact and_assoc.mp ⟨(observes_of_optimum hasked hoptimal hlearns (.refl _ _ _ _)
      ⟨journal, rfl⟩).2, splits_of_modify rfl⟩
  | @branched node box a scoring learned chosen c down up first last hasked hoptimal hlearns
      hinteger hopen hdepth infeasibility hinfeasibility noted hselect hpriorities hdown hup
      journal =>
    have hlearned := (hlearns.balanced (hasked.balanced hs)).rule_eq
    obtain ⟨es, hchooses⟩ :=
      chooses_of_runs_select (s := { learned with journal := noted }) hlearned hselect
    have hscoring : ∃ journal', (last.withJournal journal).scoring
        = { chosen with journal := journal' } := by
      refine ⟨journal, ?_⟩
      show { last.scoring with journal := journal } = _
      rw [scoring_of_addChild? hup, scoring_of_addChild? hdown]
      rfl
    obtain ⟨hoptimum, hasks, hobserves⟩ := observes_of_optimum (e := e) hasked hoptimal hlearns
      ⟨hchooses.log, hchooses.table, hchooses.full, hchooses.boxes⟩ hscoring
    refine ⟨hasks, hobserves, ?_⟩
    obtain ⟨fs, hfs, hc⟩ := fraction_mem_of_runs_select hselect
    obtain ⟨hdownMoves, hupMoves⟩ := c.apart (Problem.fractional?_spec hfs hc).2.2
    obtain ⟨tree, htree, rfl⟩ := Option.map_eq_some_iff.mp hdown
    obtain ⟨tree', htree', rfl⟩ := Option.map_eq_some_iff.mp hup
    have hnode := get?_recorded s.core e.node a.objective .candidate (some infeasibility)
      hasked.get?
    intro k child hnone hchild
    replace hchild : tree'.get? k = some child := hchild
    rw [Tree.get?_children hnode htree htree'] at hchild
    refine ⟨node, a, ?_⟩
    split at hchild
    · cases hchild
      exact ⟨c.up, hasked.get?, hoptimum, rfl, rfl, rfl, hupMoves⟩
    · split at hchild
      · cases hchild
        exact ⟨c.down, hasked.get?, hoptimum, rfl, rfl, rfl, hdownMoves⟩
      · obtain ⟨before, hbefore, -⟩ := Tree.exists_of_keepsPlace
          (keepsPlace_record a.objective .candidate (some infeasibility)) hchild
        cases hnone.symm.trans hbefore

end Visits

end Search

end BranchBound
