import BranchBound.Proofs.Search.Bound
import BranchBound.Proofs.Search.Requests
import BranchBound.Relaxation.Script

/-!
# What a search counts of its requests

A search counts solves in three places: the oracle counts solves and iterations, reliability
branching counts its scoring solves by how they ended, and each visit counts its node. A backend
that writes down every request with its answer has a transcript to compare these counts with.

* `Exchange`, `transcribing`, `transcript`: requests with their answers.
* `search_transcribing`: writing them down changes nothing.
* `Balanced`: the counts of scoring are those of the transcript.
* `balanced_select`, `balanced_visits`, `balanced_of_reachable`: so they stay, along a whole run.
* `solves_accounted`: what this says of the statistics, for all rules but hybrid branching.
* `hybrid_solves_accounted`: the same for hybrid branching, which does not count its scoring solves.
-/

namespace BranchBound

open Relaxation

variable {σ α : Type}

namespace Relaxation

/-- A request for a relaxation and what came of it. -/
structure Exchange (α : Type) where
  box : Box α
  /-- Limit on iterations, which the requests for scores have. -/
  cap : Option ℕ
  outcome : Except (SolveError α) (Answer α)

namespace Exchange

/-- Whether it had no limit on iterations, as for the bound of a node. -/
def isNode (e : Exchange α) : Bool := e.cap.isNone

/-- Whether it had a limit on iterations, as for a score. -/
def isScore (e : Exchange α) : Bool := e.cap.isSome

/-- Whether it was for a score, and answered with this status. -/
def isScoreWith (status : Status) (e : Exchange α) : Bool :=
  e.isScore && e.outcome.toOption.any fun a => a.status = status

/-- Iterations of the answer, if there is one. -/
def iterations (e : Exchange α) : ℕ := (e.outcome.toOption.map Answer.iterations).getD 0

variable (box : Box α) (cap : ℕ) (a : Answer α) (status : Status)

@[simp] theorem isNode_none : isNode ⟨box, none, .ok a⟩ = true := rfl

@[simp] theorem isNode_some : isNode ⟨box, some cap, .ok a⟩ = false := rfl

@[simp] theorem isScore_none : isScore ⟨box, none, .ok a⟩ = false := rfl

@[simp] theorem isScore_some : isScore ⟨box, some cap, .ok a⟩ = true := rfl

@[simp] theorem isScoreWith_none : isScoreWith status ⟨box, none, .ok a⟩ = false := rfl

@[simp] theorem isScoreWith_some :
    isScoreWith status ⟨box, some cap, .ok a⟩ = decide (a.status = status) := rfl

@[simp] theorem iterations_ok (cap : Option ℕ) : iterations ⟨box, cap, .ok a⟩ = a.iterations := rfl

end Exchange

/-- The same backend, which also writes down every request for a relaxation with its outcome. -/
def transcribing (B : Backend σ α) : Backend (σ × List (Exchange α)) α where
  solve p box cap s :=
    ((B.solve p box cap s.1).1, (B.solve p box cap s.1).2,
      s.2 ++ [⟨box, cap, (B.solve p box cap s.1).1.outcome⟩])
  setMode mode s := ((B.setMode mode s.1).1, (B.setMode mode s.1).2, s.2)

/-- A backend that writes down its requests answers as before. -/
theorem answersLike_transcribing (B : Backend σ α) (p : Problem α) :
    (transcribing B).AnswersLike B p fun s t => s.1 = t where
  outcome := by
    rintro s _ box cap rfl
    rfl
  next := by
    rintro s _ box cap rfl
    rfl

/-! ## Requests of an oracle -/

namespace Oracle

variable {B : Backend σ α} {p : Problem α} {box : Box α} {cap : Option ℕ} {a : Answer α}
  {o : Oracle (σ × List (Exchange α))}

/-- An answered request is written down last, and counted with its iterations. -/
theorem call_transcribing (h : (call (transcribing B) p box cap o).1.outcome = .ok a) :
    ∃ b, (call (transcribing B) p box cap o).2
      = { o with
          backend := (b, o.backend.2 ++ [⟨box, cap, .ok a⟩])
          calls := o.calls + 1
          iterations := o.iterations + a.iterations } := by
  unfold call at h ⊢
  dsimp only at h ⊢
  cases houtcome : (B.solve p box cap o.backend.1).1.outcome with
  | error e =>
    simp only [transcribing, houtcome] at h
    cases h
  | ok answer =>
    cases hwell : wellFormed p answer with
    | false =>
      simp only [transcribing, houtcome, hwell] at h
      cases h
    | true =>
      simp only [transcribing, houtcome, hwell, if_true] at h ⊢
      cases h
      exact ⟨_, rfl⟩

/-- The request for the bound of a node counts as a solve. -/
theorem solveNode_transcribing (h : (solveNode (transcribing B) p box o).1.outcome = .ok a) :
    ∃ b, (solveNode (transcribing B) p box o).2
      = { backend := (b, o.backend.2 ++ [⟨box, none, .ok a⟩])
          lpSolves := o.lpSolves + 1
          calls := o.calls + 1
          iterations := o.iterations + a.iterations } := by
  have hcall : (call (transcribing B) p box none o).1.outcome = .ok a := h
  obtain ⟨b, hb⟩ := call_transcribing hcall
  refine ⟨b, ?_⟩
  show countIf _ (call (transcribing B) p box none o).1 (call (transcribing B) p box none o).2 = _
  rw [countIf, hcall, hb]
  rfl

/-- The request for a score counts as a solve if it reached an optimum. -/
theorem resolve_transcribing {limit : ℕ}
    (h : (resolve (transcribing B) p box limit o).1.outcome = .ok a) :
    ∃ b, (resolve (transcribing B) p box limit o).2
      = { backend := (b, o.backend.2 ++ [⟨box, some (max limit 1), .ok a⟩])
          lpSolves := o.lpSolves + if a.isOptimal then 1 else 0
          calls := o.calls + 1
          iterations := o.iterations + a.iterations } := by
  have hcall : (call (transcribing B) p box (some (max limit 1)) o).1.outcome = .ok a := h
  obtain ⟨b, hb⟩ := call_transcribing hcall
  refine ⟨b, ?_⟩
  show countIf _ (call (transcribing B) p box _ o).1 (call (transcribing B) p box _ o).2 = _
  rw [countIf, hcall, hb]
  dsimp only
  cases a.isOptimal <;> rfl

end Oracle

end Relaxation

/-! ## Scoring -/

/-- Whether a rule counts its scoring solves. -/
def BranchingRule.tallies : BranchingRule α → Bool
  | .reliability _ => true
  | _ => false

namespace Scoring

/-- The requests written down so far. -/
def log (s : Scoring (σ × List (Exchange α)) α) : List (Exchange α) := s.oracle.backend.2

/-- What was counted is what was written down, in a search with this rule that has asked for the
bounds of this many nodes. -/
structure Balanced (rule : BranchingRule α) (nodes : ℕ) (s : Scoring (σ × List (Exchange α)) α) :
    Prop where
  /-- Hybrid branching may have given way. -/
  rule_eq : s.rule = rule ∨ rule = .hybrid ∧ s.rule = .pseudocost
  nodes_eq : s.log.countP Exchange.isNode = nodes
  /-- Each request for a score was answered. -/
  scores_eq : s.log.countP Exchange.isScore = s.log.countP (Exchange.isScoreWith .optimal)
    + s.log.countP (Exchange.isScoreWith .iterationLimit)
    + s.log.countP (Exchange.isScoreWith .infeasible)
  lpSolves_eq : s.oracle.lpSolves = nodes + s.log.countP (Exchange.isScoreWith .optimal)
  iterations_eq : s.oracle.iterations = (s.log.map Exchange.iterations).sum
  fullResolves_eq : s.fullResolves
    = if rule.tallies then s.log.countP (Exchange.isScoreWith .optimal) else 0
  partialResolves_eq : s.partialResolves
    = if rule.tallies then s.log.countP (Exchange.isScoreWith .iterationLimit) else 0
  /-- Only a rule with solves of its own asks for scores. -/
  no_scores : rule.usesResolves = false → s.log.countP Exchange.isScore = 0

/-- A request was put and written down, and this many solves were counted for it. -/
structure Posts (e : Exchange α) (solves : ℕ) (s t : Scoring (σ × List (Exchange α)) α) :
    Prop where
  rule_eq : t.rule = s.rule
  log_eq : t.log = s.log ++ [e]
  lpSolves_eq : t.oracle.lpSolves = s.oracle.lpSolves + solves
  iterations_eq : t.oracle.iterations = s.oracle.iterations + e.iterations
  fullResolves_eq : t.fullResolves = s.fullResolves
  partialResolves_eq : t.partialResolves = s.partialResolves

variable {B : Backend σ α} {p : Problem α} {box : Box α} {cap : ℕ} {a : Answer α}
  {rule : BranchingRule α} {nodes : ℕ} {s t u : Scoring (σ × List (Exchange α)) α}

/-- The request for a node is written down without a cap, and is counted. -/
theorem posts_of_runs_solveNode
    (h : Runs (ask (Oracle.solveNode (transcribing B) p box)) s a t) :
    Posts ⟨box, none, .ok a⟩ 1 s t := by
  obtain ⟨b, horacle⟩ := Oracle.solveNode_transcribing (outcome_of_runs_ask h)
  rw [eq_of_runs_ask h, horacle]
  exact ⟨rfl, rfl, rfl, rfl, rfl, rfl⟩

/-- A capped request is written down with its cap, and counts if it was solved to the end. -/
theorem posts_of_runs_resolve
    (h : Runs (ask (Oracle.resolve (transcribing B) p box cap)) s a t) :
    Posts ⟨box, some (max cap 1), .ok a⟩ (if a.isOptimal then 1 else 0) s t := by
  obtain ⟨b, horacle⟩ := Oracle.resolve_transcribing (outcome_of_runs_ask h)
  rw [eq_of_runs_ask h, horacle]
  exact ⟨rfl, rfl, rfl, rfl, rfl, rfl⟩

namespace Balanced

/-- Pseudocosts and journal have nothing to do with the balance. -/
theorem of_eq (h : Balanced rule nodes s) {table : PseudocostTable α}
    {journal : Array (Note α)} (ht : t = { s with table, journal }) : Balanced rule nodes t := by
  rw [ht]
  exact ⟨h.rule_eq, h.nodes_eq, h.scores_eq, h.lpSolves_eq, h.iterations_eq, h.fullResolves_eq,
    h.partialResolves_eq, h.no_scores⟩

/-- The request for the bound of a node is counted as one solve. -/
theorem node (h : Balanced rule nodes s) (hposts : Posts ⟨box, none, .ok a⟩ 1 s t) :
    Balanced rule (nodes + 1) t where
  rule_eq := by
    rw [hposts.rule_eq]
    exact h.rule_eq
  nodes_eq := by simp [hposts.log_eq, h.nodes_eq]
  scores_eq := by simp [hposts.log_eq, h.scores_eq]
  lpSolves_eq := by
    simp [hposts.log_eq, hposts.lpSolves_eq, h.lpSolves_eq]
    omega
  iterations_eq := by simp [hposts.log_eq, hposts.iterations_eq, h.iterations_eq]
  fullResolves_eq := by simp [hposts.log_eq, hposts.fullResolves_eq, h.fullResolves_eq]
  partialResolves_eq := by simp [hposts.log_eq, hposts.partialResolves_eq, h.partialResolves_eq]
  no_scores hrule := by simp [hposts.log_eq, h.no_scores hrule]

/-- The request for a score is counted as a solve if it reached an optimum. The rules that tally
their scoring solves have to do so, and the others must not. -/
theorem score (h : Balanced rule nodes s) (huses : rule.usesResolves = true)
    (hposts : Posts ⟨box, some cap, .ok a⟩ (if a.isOptimal then 1 else 0) s u)
    (hrule : t.rule = u.rule) (horacle : t.oracle = u.oracle)
    (hfull : t.fullResolves = s.fullResolves
      + if rule.tallies ∧ a.status = .optimal then 1 else 0)
    (hpartial : t.partialResolves = s.partialResolves
      + if rule.tallies ∧ a.status = .iterationLimit then 1 else 0) : Balanced rule nodes t := by
  have hlog : t.log = s.log ++ [⟨box, some cap, .ok a⟩] := by
    unfold log
    rw [horacle]
    exact hposts.log_eq
  have hsolves : t.oracle.lpSolves = s.oracle.lpSolves + if a.isOptimal then 1 else 0 := by
    rw [horacle]
    exact hposts.lpSolves_eq
  have hscores := h.scores_eq
  have hbefore := h.lpSolves_eq
  have hfulls := h.fullResolves_eq
  have hpartials := h.partialResolves_eq
  constructor
  · rw [hrule, hposts.rule_eq]
    exact h.rule_eq
  · simp [hlog, h.nodes_eq]
  · cases hstatus : a.status <;> simp [hlog, List.countP_singleton, hstatus] <;> omega
  · cases hstatus : a.status <;>
      simp [hlog, hsolves, Answer.isOptimal, hstatus] <;> omega
  · simp [hlog, horacle, hposts.iterations_eq, h.iterations_eq]
  · rw [hfull, hfulls, hlog]
    cases rule.tallies <;> simp [List.countP_singleton]
  · rw [hpartial, hpartials, hlog]
    cases rule.tallies <;> simp [List.countP_singleton]
  · intro hnot
    rw [hnot] at huses
    cases huses

/-- A rule that does not tally its scoring solves counts none as full or partial. -/
theorem resolves_eq_zero (h : Balanced rule nodes s) (htallies : rule.tallies = false) :
    s.fullResolves = 0 ∧ s.partialResolves = 0 := by
  have hfull := h.fullResolves_eq
  have hpartial := h.partialResolves_eq
  rw [htallies, if_neg Bool.false_ne_true] at hfull hpartial
  exact ⟨hfull, hpartial⟩

/-- So for all rules but hybrid branching, the full and partial solves are those written down: what
is not tallied was not asked for either. -/
theorem resolves_eq (h : Balanced rule nodes s) (hrule : rule ≠ .hybrid) :
    s.fullResolves = s.log.countP (Exchange.isScoreWith .optimal) ∧
      s.partialResolves = s.log.countP (Exchange.isScoreWith .iterationLimit) := by
  cases htallies : rule.tallies with
  | true =>
    have hfull := h.fullResolves_eq
    have hpartial := h.partialResolves_eq
    rw [htallies, if_pos rfl] at hfull hpartial
    exact ⟨hfull, hpartial⟩
  | false =>
    have huses : rule.usesResolves = false := by
      cases rule with
      | reliability r => cases htallies
      | hybrid => exact absurd rfl hrule
      | _ => rfl
    have hscores := h.scores_eq
    have hnone := h.no_scores huses
    obtain ⟨hfull, hpartial⟩ := h.resolves_eq_zero htallies
    omega

end Balanced

/-! ### Rules -/

theorem usesResolves_of_tallies (h : rule.tallies = true) : rule.usesResolves = true := by
  cases rule with
  | reliability r => rfl
  | _ => cases h

section Rules

variable [Scalar α] {node : NodePoint α}

/-- Hybrid branching asks for scores and does not count how they ended. -/
theorem maintains_probe (huses : rule.usesResolves = true) (htallies : rule.tallies = false)
    (cs : List (Candidate α)) (top : α) (chosen : Candidate α) :
    Maintains (Balanced rule nodes) (probe (transcribing B) p node cap cs top chosen) := by
  have hask : ∀ box, Maintains (Balanced rule nodes)
      (ask (Oracle.resolve (transcribing B) p box cap)) := by
    intro box s a t h hs
    have hposts := posts_of_runs_resolve h
    exact hs.score huses hposts rfl rfl (by simp [htallies, hposts.fullResolves_eq])
      (by simp [htallies, hposts.partialResolves_eq])
  induction cs generalizing top chosen with
  | nil => exact maintains_pure chosen
  | cons c cs ih =>
    rw [probe]
    refine maintains_bind (maintains_inRange _ _) fun box => ?_
    exact maintains_bind (hask box) fun answer => maintains_ite (ih _ _) (ih _ _)

/-- Hybrid branching keeps the balance, counting no resolves of its own. -/
theorem maintains_selectHybrid (huses : rule.usesResolves = true) (htallies : rule.tallies = false)
    (first : ℕ × α) (rest : List (ℕ × α)) :
    Maintains (Balanced rule nodes) (selectHybrid (transcribing B) p node first rest) := by
  unfold selectHybrid
  refine maintains_bind maintains_get fun s => ?_
  refine maintains_bind (maintains_inRange _ _) fun first => ?_
  refine maintains_bind (maintains_scored _ _) fun rest => ?_
  exact maintains_probe huses htallies _ _ _

/-- Reliability branching counts each child it measures by how the solve ended. -/
theorem maintains_measureChild (htallies : rule.tallies = true) (branch : Branch α) :
    Maintains (Balanced rule nodes) (measureChild (transcribing B) p node cap branch) := by
  intro s b t h hs
  have huses := usesResolves_of_tallies htallies
  unfold measureChild at h
  obtain ⟨box, _, hbox, h⟩ := runs_bind_iff.mp h
  obtain ⟨-, rfl⟩ := runs_inRange_iff.mp hbox
  obtain ⟨a, u, hask, h⟩ := runs_bind_iff.mp h
  have hposts := posts_of_runs_resolve hask
  have hfull := hposts.fullResolves_eq
  have hpartial := hposts.partialResolves_eq
  cases hstatus : a.status with
  | optimal =>
    rw [hstatus] at h
    obtain ⟨_, v, hcount, h⟩ := runs_bind_iff.mp h
    obtain ⟨_, w, hlearn, h⟩ := runs_bind_iff.mp h
    have hcounted : Balanced rule nodes v := by
      rw [← runs_modify_iff.mp hcount]
      exact hs.score huses hposts rfl rfl (by simp [hstatus, htallies, hfull])
        (by simp [hstatus, hpartial])
    rw [← (runs_pure_iff.mp h).2]
    exact hcounted.of_eq (eq_of_runs_learn hlearn)
  | iterationLimit =>
    rw [hstatus] at h
    obtain ⟨_, v, hcount, h⟩ := runs_bind_iff.mp h
    rw [← (runs_pure_iff.mp h).2, ← runs_modify_iff.mp hcount]
    exact hs.score huses hposts rfl rfl (by simp [hstatus, hfull])
      (by simp [hstatus, htallies, hpartial])
  | infeasible =>
    rw [hstatus] at h
    rw [← (runs_pure_iff.mp h).2]
    exact hs.score huses hposts rfl rfl (by simp [hstatus, hfull]) (by simp [hstatus, hpartial])

/-- Measuring a candidate counts each of its requests once. -/
theorem maintains_walkedScore (htallies : rule.tallies = true) (r : Reliability α)
    (c : Candidate α) :
    Maintains (Balanced rule nodes) (walkedScore (transcribing B) p node r c) := by
  unfold walkedScore
  refine maintains_bind maintains_get fun s => ?_
  refine maintains_bind (maintains_inRange _ _) fun reliable => ?_
  refine maintains_ite (maintains_pure _) ?_
  unfold measure
  refine maintains_bind maintains_get fun s => ?_
  refine maintains_bind (maintains_inRange _ _) fun gains => ?_
  refine maintains_bind (maintains_measureChild htallies _) fun down => ?_
  exact maintains_bind (maintains_measureChild htallies _) fun up => maintains_pure _

omit [Scalar α] in
theorem maintains_note (n : Note α) :
    Maintains (Balanced rule nodes) (note n : ScoringM (σ × List (Exchange α)) α Unit) := by
  intro s b t h hs
  exact hs.of_eq (runs_modify_iff.mp h).symm

theorem maintains_walk (htallies : rule.tallies = true) (r : Reliability α)
    (cs : List (Candidate α)) (top : α) (stale : ℕ) :
    Maintains (Balanced rule nodes) (walk (transcribing B) p node r cs top stale) := by
  induction cs generalizing top stale with
  | nil => exact maintains_pure []
  | cons c cs ih =>
    rw [walk]
    refine maintains_bind (maintains_walkedScore htallies r c) fun score => ?_
    refine maintains_ite (maintains_bind (maintains_note _) fun _ => maintains_pure _) ?_
    exact maintains_bind (ih _ _) fun scores => maintains_pure _

theorem maintains_selectReliability (htallies : rule.tallies = true) (r : Reliability α)
    (first : ℕ × α) (rest : List (ℕ × α)) :
    Maintains (Balanced rule nodes) (selectReliability (transcribing B) p node r first rest) := by
  unfold selectReliability
  refine maintains_bind maintains_get fun s => ?_
  refine maintains_bind (maintains_inRange _ _) fun first => ?_
  refine maintains_bind (maintains_scored _ _) fun rest => ?_
  exact maintains_bind (maintains_walk htallies _ _ _ _) fun scores => maintains_pure _

omit [Scalar α] in
/-- Hybrid branching may give way. -/
theorem Balanced.switch (h : Balanced rule nodes s) (hswitches : Switches s t) :
    Balanced rule nodes t := by
  cases hswitches with
  | stays => exact h
  | givesWay hhybrid journal =>
    have hrule : rule = .hybrid := by
      rcases h.rule_eq with hrule | ⟨-, hrule⟩
      · rw [← hrule, hhybrid]
      · cases hhybrid.symm.trans hrule
    exact ⟨.inr ⟨hrule, rfl⟩, h.nodes_eq, h.scores_eq, h.lpSolves_eq, h.iterations_eq,
      h.fullResolves_eq, h.partialResolves_eq, h.no_scores⟩

/-- Choosing a variable keeps the balance, whatever the rule has become by then. -/
theorem balanced_select {limit : ℕ} {choice : Option (Candidate α)} (hs : Balanced rule nodes s)
    (h : Runs (select (transcribing B) p limit node) s choice t) : Balanced rule nodes t := by
  cases selects_of_runs_select h with
  | whole hfs => exact hs
  | @chosen first rest u _ c hfs hswitches hchoose =>
    have hu := hs.switch hswitches
    have hrule := hu.rule_eq
    cases hcurrent : u.rule with
    | reliability r =>
      rw [hcurrent] at hchoose
      have htallies : rule.tallies = true := by
        rw [hcurrent] at hrule
        rcases hrule with hrule | ⟨-, hrule⟩
        · rw [← hrule]
          rfl
        · cases hrule
      exact maintains_selectReliability htallies r first rest _ _ _ hchoose hu
    | hybrid =>
      rw [hcurrent] at hchoose
      have hhybrid : rule = .hybrid := by
        rw [hcurrent] at hrule
        rcases hrule with hrule | ⟨-, hrule⟩
        · exact hrule.symm
        · cases hrule
      refine maintains_selectHybrid ?_ ?_ first rest _ _ _ hchoose hu
      · rw [hhybrid]
        rfl
      · rw [hhybrid]
        rfl
    | _ =>
      -- these rules have no solves of their own
      rw [eq_of_runs_choose (by rw [hcurrent]; rfl) hchoose]
      exact hu

end Rules

end Scoring

namespace Search

open Scoring

variable [Scalar α] {ctx : Context σ α} {backend : σ} {sol : Solution α}

/-- All requests for relaxations that a search puts to its backend, in order, with what came of
them. -/
def transcript (ctx : Context σ α) (backend : σ) : List (Exchange α) :=
  (search (ctx.over (transcribing ctx.backend)) (backend, [])).state.scoring.log

/-- Writing requests and answers down changes nothing. -/
theorem search_transcribing (ctx : Context σ α) (backend : σ) :
    (search (ctx.over (transcribing ctx.backend)) (backend, [])).result
        = (search ctx backend).result ∧
      (search (ctx.over (transcribing ctx.backend)) (backend, [])).state.events
        = (search ctx backend).state.events :=
  search_of_answersLike (answersLike_transcribing ctx.backend ctx.problem) rfl

/-! ## Runs -/

section Runs

variable {id : ℕ} {inherited : α} {rule : BranchingRule α} {s t : State (σ × List (Exchange α)) α}

theorem Learns.balanced {node : Node α} {relax : α} {nodes : ℕ}
    {before after : Scoring (σ × List (Exchange α)) α} (h : Learns node relax before after)
    (hbefore : Balanced rule nodes before) : Balanced rule nodes after := by
  unfold Learns at h
  cases hbranch : node.branch with
  | none =>
    rw [hbranch] at h
    rw [h]
    exact hbefore
  | some branch =>
    rw [hbranch] at h
    exact hbefore.of_eq (eq_of_runs_learn h)

/-- The request of a visit is the one that a processed node adds. -/
theorem Asked.balanced {node : Node α} {box : Box α} {a : Answer α}
    {scoring : Scoring (σ × List (Exchange α)) α}
    (h : Asked (ctx.over (transcribing ctx.backend)) id s node box a scoring)
    (hs : Balanced rule s.processed s.scoring) : Balanced rule (s.processed + 1) scoring :=
  hs.node (posts_of_runs_solveNode h.ask)

/-- A visit that asks for the bound of its node counts that node. -/
theorem balanced_visits (h : Visits (ctx.over (transcribing ctx.backend)) id inherited s t)
    (hs : Balanced rule s.processed s.scoring) : Balanced rule t.processed t.scoring := by
  cases h with
  | pruned => exact hs.of_eq rfl
  | infeasible hasked => exact (hasked.balanced hs).of_eq rfl
  | integer hasked hoptimal hlearns =>
    have hlearned := hlearns.balanced (hasked.balanced hs)
    unfold State.offer
    split
    · exact hlearned.of_eq rfl
    · exact hlearned.of_eq rfl
  | fathomed hasked hoptimal hlearns => exact (hlearns.balanced (hasked.balanced hs)).of_eq rfl
  | branched hasked hoptimal hlearns hinteger hopen hdepth hinfeasibility hselect hpriorities hdown
      hup =>
    have hchosen := balanced_select ((hlearns.balanced (hasked.balanced hs)).of_eq rfl) hselect
    obtain ⟨tree, -, rfl⟩ := Option.map_eq_some_iff.mp hdown
    obtain ⟨tree', -, rfl⟩ := Option.map_eq_some_iff.mp hup
    exact hchosen.of_eq rfl

theorem balanced_initial (ctx : Context σ α) (backend : σ) :
    Balanced ctx.settings.rule 0
      (initial (ctx.over (transcribing ctx.backend)) (backend, [])).scoring where
  rule_eq := .inl rfl
  nodes_eq := rfl
  scores_eq := rfl
  lpSolves_eq := rfl
  iterations_eq := rfl
  fullResolves_eq := (ite_self 0).symm
  partialResolves_eq := (ite_self 0).symm
  no_scores _ := rfl

/-- The balance holds at every moment of a run. -/
theorem balanced_of_reachable
    (h : Reachable (ctx.over (transcribing ctx.backend))
      (initial (ctx.over (transcribing ctx.backend)) (backend, [])) s) :
    Balanced ctx.settings.rule s.processed s.scoring := by
  induction h with
  | start => exact balanced_initial ctx backend
  | take hs htake ih => exact balanced_visits (visits_of_runs_visit htake.visit) ih

end Runs

/-- The statistics of a solution were read off a balanced state. -/
theorem exists_balanced_of_search (h : (search ctx backend).result = .ok sol) :
    ∃ s : State (σ × List (Exchange α)) α, Balanced ctx.settings.rule s.processed s.scoring ∧
      s.scoring.log = transcript ctx backend ∧
      sol.stats = stats (ctx.over (transcribing ctx.backend)) s := by
  rw [← (search_transcribing ctx backend).1] at h
  obtain ⟨s, hreach, -, hsol, hstate⟩ := reachable_of_search h
  refine ⟨s, balanced_of_reachable hreach, ?_, ?_⟩
  · obtain ⟨journal, hjournal⟩ := foldl_note_eq (closing _ sol) s
    unfold transcript
    rw [hstate, hjournal]
    rfl
  · rw [hsol]
    rfl

/-! ## Statistics -/

/-- In a search whose rule is not hybrid branching, the counts of a solution are those of its
requests: a node for each request without a limit on iterations, a full or partial solve for each
request with one that was not answered as infeasible, a solve for each node and each full solve, and
all iterations. Only reliability branching has full or partial solves. -/
theorem solves_accounted (hrule : ctx.settings.rule ≠ .hybrid)
    (h : (search ctx backend).result = .ok sol) :
    (transcript ctx backend).countP Exchange.isNode = sol.stats.nodesProcessed ∧
    (transcript ctx backend).countP Exchange.isScore
      = sol.stats.fullResolves + sol.stats.partialResolves
        + (transcript ctx backend).countP (Exchange.isScoreWith .infeasible) ∧
    sol.stats.lpSolves = sol.stats.nodesProcessed + sol.stats.fullResolves ∧
    sol.stats.boundLpSolves = sol.stats.nodesProcessed ∧
    sol.stats.lpIterations = ((transcript ctx backend).map Exchange.iterations).sum ∧
    ((∀ r, ctx.settings.rule ≠ .reliability r) →
      sol.stats.fullResolves = 0 ∧ sol.stats.partialResolves = 0) := by
  obtain ⟨s, hs, hlog, hstats⟩ := exists_balanced_of_search h
  have hscores := hs.scores_eq
  have hsolves := hs.lpSolves_eq
  obtain ⟨hfull, hpartial⟩ := hs.resolves_eq hrule
  rw [hstats, ← hlog]
  unfold Stats.boundLpSolves stats
  dsimp only
  refine ⟨hs.nodes_eq, by omega, by omega, by omega, hs.iterations_eq, ?_⟩
  intro hother
  apply hs.resolves_eq_zero
  cases hcase : ctx.settings.rule with
  | reliability r => exact absurd hcase (hother r)
  | _ => rfl

/-- Answers to a search with reliability branching in which scoring solves end in all three ways. -/
def reliabilityScript : Script ExtRat :=
  .new [.ok ⟨.optimal, [.fin (1 / 2)], .fin 2, 3⟩, .ok ⟨.optimal, [0], 1, 2⟩,
    .ok ⟨.iterationLimit, [1], .fin (3 / 2), 1⟩, .ok (.infeasible 4),
    .ok ⟨.optimal, [.fin (3 / 2)], .fin (3 / 2), 5⟩, .ok (.infeasible 1)]

/-- A search that is given them. -/
def reliabilityContext : Context (Script ExtRat) ExtRat :=
  ⟨doubled 3, Settings.standard.generalInteger.withRule (.reliability .standard), scripted, id⟩

/-- Five nodes, one full and one partial solve, and two that showed that there is no point. -/
theorem solves_accounted_reliability :
    ∃ sol, (search reliabilityContext reliabilityScript).result = .ok sol ∧
      sol.stats.nodesProcessed = 5 ∧ sol.stats.fullResolves = 1 ∧ sol.stats.partialResolves = 1 ∧
      sol.stats.boundLpSolves = 5 ∧
      (transcript reliabilityContext reliabilityScript).countP Exchange.isScore
        = 1 + 1 + 2 ∧
      ((transcript reliabilityContext reliabilityScript).map Exchange.iterations).sum
        = sol.stats.lpIterations := by
  have hrun : (search reliabilityContext reliabilityScript).result.toOption.map
      (fun sol => (sol.stats.nodesProcessed, sol.stats.fullResolves, sol.stats.partialResolves))
        = some (5, 1, 1) := by
    decide +kernel
  have hinfeasible : (transcript reliabilityContext reliabilityScript).countP
      (Exchange.isScoreWith .infeasible) = 2 := by
    decide +kernel
  obtain ⟨sol, hok, hstats⟩ := exists_ok_of_toOption_map hrun
  obtain ⟨hnodes, hfull, hpartial⟩ : sol.stats.nodesProcessed = 5 ∧ sol.stats.fullResolves = 1 ∧
      sol.stats.partialResolves = 1 := by
    simpa using hstats
  have hrule : reliabilityContext.settings.rule ≠ .hybrid := fun h => by cases h
  obtain ⟨-, hscores, -, hbound, hiterations, -⟩ := solves_accounted hrule hok
  refine ⟨sol, hok, hnodes, hfull, hpartial, ?_, ?_, hiterations.symm⟩
  · rw [hbound, hnodes]
  · rw [hscores, hfull, hpartial, hinfeasible]

/-- In a search with hybrid branching no scoring solve is counted as full or partial, so the solves
that are left for the bounds of nodes include every scoring solve that reached an optimum. They are
as many as the nodes only if there was none. -/
theorem hybrid_solves_accounted (hrule : ctx.settings.rule = .hybrid)
    (h : (search ctx backend).result = .ok sol) :
    sol.stats.fullResolves = 0 ∧ sol.stats.partialResolves = 0 ∧
    (transcript ctx backend).countP Exchange.isNode = sol.stats.nodesProcessed ∧
    sol.stats.boundLpSolves = sol.stats.nodesProcessed
      + (transcript ctx backend).countP (Exchange.isScoreWith .optimal) ∧
    (sol.stats.boundLpSolves = sol.stats.nodesProcessed ↔
      ∀ e ∈ transcript ctx backend, e.isScoreWith .optimal = false) := by
  obtain ⟨s, hs, hlog, hstats⟩ := exists_balanced_of_search h
  have hsolves := hs.lpSolves_eq
  obtain ⟨hfull, hpartial⟩ := hs.resolves_eq_zero (by rw [hrule]; rfl)
  have hbound : s.scoring.oracle.lpSolves - s.scoring.fullResolves = s.processed
      + s.scoring.log.countP (Exchange.isScoreWith .optimal) := by
    omega
  rw [hstats, ← hlog]
  unfold Stats.boundLpSolves stats
  dsimp only
  refine ⟨hfull, hpartial, hs.nodes_eq, hbound, ?_⟩
  rw [hbound, Nat.add_eq_left, List.countP_eq_zero]
  simp

/-- A search by the dual simplex with hybrid branching, for the largest whole number whose double is
at most three. -/
def hybridSimplex : Context (SimplexState ExtRat) ExtRat :=
  ⟨doubled 3, Settings.standard.generalInteger.withRule .hybrid, simplex, id⟩

/-- The one scoring solve there reaches an optimum. -/
theorem hybrid_solves_accounted_doubled :
    ∃ sol, (search hybridSimplex (.new hybridSimplex.settings.lp)).result = .ok sol ∧
      sol.stats.nodesProcessed = 3 ∧ sol.stats.boundLpSolves = 3 + 1 := by
  have hrun : (search hybridSimplex (.new hybridSimplex.settings.lp)).result.toOption.map
      (fun sol => sol.stats.nodesProcessed) = some 3 := by
    decide +kernel
  have hscored : (transcript hybridSimplex (.new hybridSimplex.settings.lp)).countP
      (Exchange.isScoreWith .optimal) = 1 := by
    decide +kernel
  obtain ⟨sol, hok, hnodes⟩ := exists_ok_of_toOption_map hrun
  obtain ⟨-, -, -, hbound, -⟩ := hybrid_solves_accounted rfl hok
  rw [hnodes, hscored] at hbound
  exact ⟨sol, hok, hnodes, hbound⟩

/-- So it is not true that a search with hybrid branching reports as many solves for the bounds of
nodes as it has processed nodes. -/
theorem hybrid_counts_scores_as_bounds :
    ¬ ∀ (ctx : Context (SimplexState ExtRat) ExtRat) (backend : SimplexState ExtRat)
      (sol : Solution ExtRat), ctx.settings.rule = .hybrid →
      (search ctx backend).result = .ok sol →
      sol.stats.boundLpSolves = sol.stats.nodesProcessed := by
  intro hclaim
  have hrun : (search hybridSimplex (.new hybridSimplex.settings.lp)).result.toOption.map
      (fun sol => (sol.stats.boundLpSolves, sol.stats.nodesProcessed)) = some (4, 3) := by
    decide +kernel
  obtain ⟨sol, hok, hstats⟩ := exists_ok_of_toOption_map hrun
  obtain ⟨hbound, hnodes⟩ := Prod.mk.inj hstats
  have hequal := hclaim hybridSimplex _ sol rfl hok
  omega

end Search

end BranchBound
