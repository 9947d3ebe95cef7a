import BranchBound.Proofs.Search.Lockstep
import BranchBound.Proofs.Search.Reachable

/-!
# What a backend keeps

A search changes the state of a backend only by putting requests to it. A property of states that
every request keeps, such as the settings of a solver, is therefore kept along a whole run, and what
the property says about answers is true of all answers the run has got. More generally, two backends
that answer alike from related states lead a search through states that are alike: the search cannot
tell them apart.

* `Backend.Keeps`: properties that requests keep.
* `Backend.AnswersLike`: backends that answer alike from related states.
* `Scoring.Alike`, `Scoring.alike_select`: choosing a variable goes alike, rule by rule. A
  computation that keeps a property is one in lockstep with itself.
* `respects_alike`: so do visits.
* `keeps_visits`, `grown_over`: a run might have been one over any backend that gives these answers.
-/

namespace BranchBound

open Relaxation

variable {σ τ α : Type}

/-! ## Requests -/

namespace Relaxation

/-- A property of the states of a backend that every request keeps. -/
structure Backend.Keeps (B : Backend σ α) (p : Problem α) (P : σ → Prop) : Prop where
  solve : ∀ {s : σ} (box : Box α) (cap : Option ℕ), P s → P (B.solve p box cap s).2

/-- From related states two backends give the same answer or error, and go on to related states. -/
structure Backend.AnswersLike (B : Backend σ α) (C : Backend τ α) (p : Problem α)
    (Q : σ → τ → Prop) : Prop where
  outcome : ∀ {s : σ} {t : τ} (box : Box α) (cap : Option ℕ), Q s t →
    (B.solve p box cap s).1.outcome = (C.solve p box cap t).1.outcome
  next : ∀ {s : σ} {t : τ} (box : Box α) (cap : Option ℕ), Q s t →
    Q (B.solve p box cap s).2 (C.solve p box cap t).2

/-- A backend answers like itself, and keeps what it keeps. -/
theorem Backend.Keeps.answersLike {B : Backend σ α} {p : Problem α} {P : σ → Prop}
    (hB : B.Keeps p P) : B.AnswersLike B p fun s t => s = t ∧ P t where
  outcome := by
    rintro s _ box cap ⟨rfl, -⟩
    rfl
  next := by
    rintro s _ box cap ⟨rfl, hs⟩
    exact ⟨rfl, hB.solve box cap hs⟩

namespace Oracle

/-- Two oracles have counted the same, and their backends are in related states. -/
structure Alike (Q : σ → τ → Prop) (o : Oracle σ) (o' : Oracle τ) : Prop where
  lpSolves : o.lpSolves = o'.lpSolves
  calls : o.calls = o'.calls
  iterations : o.iterations = o'.iterations
  backend : Q o.backend o'.backend

variable {B : Backend σ α} {C : Backend τ α} {p : Problem α} {Q : σ → τ → Prop} {o : Oracle σ}
  {o' : Oracle τ}

/-- Requests to two oracles that are alike have the same outcome and leave them alike. -/
theorem alike_call (h : o.Alike Q o') (hBC : B.AnswersLike C p Q) (box : Box α)
    (cap : Option ℕ) :
    (call B p box cap o).1.outcome = (call C p box cap o').1.outcome ∧
      (call B p box cap o).2.Alike Q (call C p box cap o').2 := by
  have houtcome := hBC.outcome box cap h.backend
  have hnext := hBC.next box cap h.backend
  unfold call
  dsimp only
  rw [houtcome]
  cases (C.solve p box cap o'.backend).1.outcome with
  | error e => exact ⟨rfl, h.lpSolves, h.calls, h.iterations, hnext⟩
  | ok a =>
    cases hwell : wellFormed p a with
    | true =>
      simp only [hwell, if_true]
      exact ⟨trivial, h.lpSolves, congrArg (· + 1) h.calls, congrArg (· + a.iterations) h.iterations,
        hnext⟩
    | false =>
      simp only [hwell, Bool.false_eq_true, if_false]
      exact ⟨trivial, h.lpSolves, h.calls, h.iterations, hnext⟩

/-- Oracles that are alike count alike. -/
theorem alike_countIf {reply reply' : Reply α} (h : o.Alike Q o')
    (houtcome : reply.outcome = reply'.outcome) (counts : Answer α → Bool) :
    (countIf counts reply o).Alike Q (countIf counts reply' o') := by
  unfold countIf
  rw [houtcome]
  cases reply'.outcome with
  | error e => exact h
  | ok a =>
    cases hcounts : counts a with
    | true =>
      simp only [hcounts, if_true]
      exact ⟨congrArg (· + 1) h.lpSolves, h.calls, h.iterations, h.backend⟩
    | false =>
      simp only [hcounts, Bool.false_eq_true, if_false]
      exact h

theorem alike_solveNode (h : o.Alike Q o') (hBC : B.AnswersLike C p Q) (box : Box α) :
    (solveNode B p box o).1.outcome = (solveNode C p box o').1.outcome ∧
      (solveNode B p box o).2.Alike Q (solveNode C p box o').2 := by
  obtain ⟨houtcome, hafter⟩ := alike_call h hBC box none
  exact ⟨houtcome, alike_countIf hafter houtcome _⟩

theorem alike_resolve (h : o.Alike Q o') (hBC : B.AnswersLike C p Q) (box : Box α) (cap : ℕ) :
    (resolve B p box cap o).1.outcome = (resolve C p box cap o').1.outcome ∧
      (resolve B p box cap o).2.Alike Q (resolve C p box cap o').2 := by
  obtain ⟨houtcome, hafter⟩ := alike_call h hBC box (some (max cap 1))
  exact ⟨houtcome, alike_countIf hafter houtcome _⟩

/-- The average of iterations is read off the counts alone. -/
theorem Alike.average_eq [Scalar α] (h : o.Alike Q o') : (o.average : α) = o'.average := by
  unfold average
  rw [h.calls, h.iterations]

end Oracle

end Relaxation

/-! ## Scoring -/

namespace Scoring

/-- What scoring knows is the same but for the journal, and the backends are in related states. -/
structure Alike (Q : σ → τ → Prop) (s : Scoring σ α) (t : Scoring τ α) : Prop where
  rule : s.rule = t.rule
  table : s.table = t.table
  fullResolves : s.fullResolves = t.fullResolves
  partialResolves : s.partialResolves = t.partialResolves
  oracle : s.oracle.Alike Q t.oracle

variable {B : Backend σ α} {C : Backend τ α} {p : Problem α} {Q : σ → τ → Prop} {P : σ → Prop}
  {node : NodePoint α}

/-- What is alike to itself has the property. -/
theorem alike_self {s : Scoring σ α} (hs : P s.oracle.backend) :
    s.Alike (fun b c => b = c ∧ P c) s :=
  ⟨rfl, rfl, rfl, rfl, rfl, rfl, rfl, rfl, hs⟩

/-- A computation in lockstep with itself keeps the property. -/
theorem keeps_of_runs {β : Type} {x : ScoringM σ α β} {s t : Scoring σ α} {b : β}
    (hx : Coupled (Alike fun b c => b = c ∧ P c) x x) (h : Runs x s b t)
    (hs : P s.oracle.backend) : P t.oracle.backend := by
  have hafter := (hx s s (alike_self hs)).2.oracle.backend.2
  rw [h] at hafter
  exact hafter

theorem alike_note (m n : Note α) :
    Coupled (Alike Q) (note m : ScoringM σ α Unit) (note n : ScoringM τ α Unit) :=
  coupled_modify fun _ _ h => ⟨h.rule, h.table, h.fullResolves, h.partialResolves, h.oracle⟩

/-- A request couples scoring, provided that it couples the oracles. -/
theorem alike_ask {request : Oracle σ → Reply α × Oracle σ}
    {request' : Oracle τ → Reply α × Oracle τ}
    (h : ∀ o o', o.Alike Q o' → (request o).1.outcome = (request' o').1.outcome ∧
      (request o).2.Alike Q (request' o').2) :
    Coupled (Alike Q) (ask request) (ask request') := by
  intro s t hst
  obtain ⟨houtcome, hafter⟩ := h s.oracle t.oracle hst.oracle
  rw [run_ask, run_ask]
  exact ⟨houtcome, hst.rule, hst.table, hst.fullResolves, hst.partialResolves, hafter⟩

/-- Whether the rule in effect is given up depends on the depth only. -/
theorem alike_switchRule (limit depth : ℕ) :
    Coupled (Alike Q) (switchRule limit depth : ScoringM σ α Unit)
      (switchRule limit depth : ScoringM τ α Unit) := by
  have hswitch : Coupled (Alike Q)
      (modify fun s => { s with rule := .pseudocost } : ScoringM σ α PUnit)
      (modify fun s => { s with rule := .pseudocost } : ScoringM τ α PUnit) :=
    coupled_modify fun _ _ h => ⟨rfl, h.table, h.fullResolves, h.partialResolves, h.oracle⟩
  unfold switchRule
  refine coupled_get_bind fun s t hst => ?_
  rw [hst.rule]
  split
  · exact coupled_ite (coupled_bind (alike_note _ _) fun _ => hswitch) (coupled_pure _)
  · exact coupled_pure _

variable [Scalar α]

/-- Pseudocosts are a part of scoring that both sides share. -/
theorem alike_learn (branch : Branch α) (parent child : α) :
    Coupled (Alike Q) (learn branch parent child : ScoringM σ α Unit)
      (learn branch parent child : ScoringM τ α Unit) := by
  unfold learn
  refine coupled_get_bind fun s t hst => ?_
  rw [hst.table]
  refine coupled_bind (coupled_inRange _ _) fun learned => ?_
  obtain ⟨table, changed⟩ := learned
  refine coupled_bind
    (coupled_set ⟨hst.rule, rfl, hst.fullResolves, hst.partialResolves, hst.oracle⟩) fun _ => ?_
  cases changed with
  | none => exact coupled_pure _
  | some entry => exact alike_note _ _

section AnswersLike

variable (hBC : B.AnswersLike C p Q)

include hBC

/-! ### Hybrid branching -/

omit [Scalar α] in
theorem alike_resolve (box : Box α) (cap : ℕ) :
    Coupled (Alike Q) (ask (Oracle.resolve B p box cap)) (ask (Oracle.resolve C p box cap)) :=
  alike_ask fun _ _ h => Oracle.alike_resolve h hBC box cap

/-- Both sides probe the same candidates and compare the same scores. -/
theorem alike_probe (cap : ℕ) (cs : List (Candidate α)) (top : α) (chosen : Candidate α) :
    Coupled (Alike Q) (probe B p node cap cs top chosen) (probe C p node cap cs top chosen) := by
  induction cs generalizing top chosen with
  | nil => exact coupled_pure chosen
  | cons c cs ih =>
    rw [probe, probe]
    refine coupled_bind (coupled_inRange _ _) fun box => ?_
    refine coupled_bind (alike_resolve hBC box cap) fun answer => ?_
    exact coupled_ite (ih _ _) (ih _ _)

/-- The candidates to probe, their order and the cap come from shared data. -/
theorem alike_selectHybrid (first : ℕ × α) (rest : List (ℕ × α)) :
    Coupled (Alike Q) (selectHybrid B p node first rest) (selectHybrid C p node first rest) := by
  unfold selectHybrid
  refine coupled_get_bind fun s t hst => ?_
  have hcap : hybridCap s.oracle α = hybridCap t.oracle α := by
    unfold hybridCap
    rw [hst.oracle.average_eq]
  rw [hst.table, hcap]
  refine coupled_bind (coupled_inRange _ _) fun first => ?_
  refine coupled_bind (coupled_mapM (fun f => coupled_inRange _ _) _) fun rest => ?_
  exact alike_probe hBC _ _ _ _

/-! ### Reliability branching -/

/-- A child is measured alike, and what is learned from it is the same. -/
theorem alike_measureChild (cap : ℕ) (branch : Branch α) :
    Coupled (Alike Q) (measureChild B p node cap branch) (measureChild C p node cap branch) := by
  unfold measureChild
  refine coupled_bind (coupled_inRange _ _) fun box => ?_
  refine coupled_bind (alike_resolve hBC box cap) fun answer => ?_
  cases answer.status with
  | optimal =>
    refine coupled_bind (coupled_modify fun _ _ h => ⟨h.rule, h.table,
      congrArg (· + 1) h.fullResolves, h.partialResolves, h.oracle⟩) fun _ => ?_
    exact coupled_bind (alike_learn _ _ _) fun _ => coupled_pure _
  | iterationLimit =>
    exact coupled_bind (coupled_modify fun _ _ h => ⟨h.rule, h.table, h.fullResolves,
      congrArg (· + 1) h.partialResolves, h.oracle⟩) fun _ => coupled_pure _
  | infeasible => exact coupled_pure _

/-- Both sides measure a candidate or neither does, since they share its counts. -/
theorem alike_walkedScore (r : Reliability α) (c : Candidate α) :
    Coupled (Alike Q) (walkedScore B p node r c) (walkedScore C p node r c) := by
  unfold walkedScore
  refine coupled_get_bind fun s t hst => ?_
  rw [hst.table]
  refine coupled_bind (coupled_inRange _ _) fun reliable => ?_
  refine coupled_ite (coupled_pure _) ?_
  unfold measure
  refine coupled_get_bind fun s t hst => ?_
  rw [hst.table]
  refine coupled_bind (coupled_inRange _ _) fun gains => ?_
  refine coupled_bind (alike_measureChild hBC _ _) fun down => ?_
  exact coupled_bind (alike_measureChild hBC _ _) fun up => coupled_pure _

/-- Walks go on, and stop, at the same candidates. -/
theorem alike_walk (r : Reliability α) (cs : List (Candidate α)) (top : α) (stale : ℕ) :
    Coupled (Alike Q) (walk B p node r cs top stale) (walk C p node r cs top stale) := by
  induction cs generalizing top stale with
  | nil => exact coupled_pure []
  | cons c cs ih =>
    rw [walk, walk]
    refine coupled_bind (alike_walkedScore hBC r c) fun score => ?_
    refine coupled_ite (coupled_bind (alike_note _ _) fun _ => coupled_pure _) ?_
    exact coupled_bind (ih _ _) fun scores => coupled_pure _

theorem alike_selectReliability (r : Reliability α) (first : ℕ × α) (rest : List (ℕ × α)) :
    Coupled (Alike Q) (selectReliability B p node r first rest)
      (selectReliability C p node r first rest) := by
  unfold selectReliability
  refine coupled_get_bind fun s t hst => ?_
  rw [hst.table]
  refine coupled_bind (coupled_inRange _ _) fun first => ?_
  refine coupled_bind (coupled_mapM (fun f => coupled_inRange _ _) _) fun rest => ?_
  exact coupled_bind (alike_walk hBC _ _ _ _) fun scores => coupled_pure _

/-! ### All rules -/

/-- Every rule chooses alike. -/
theorem alike_choose (rule : BranchingRule α) (first : ℕ × α) (rest : List (ℕ × α)) :
    Coupled (Alike Q) (choose B p node rule first rest) (choose C p node rule first rest) := by
  cases rule with
  | fixedOrder => exact coupled_pure _
  | mostFractional => exact coupled_pure _
  | pseudocost =>
    unfold choose
    refine coupled_get_bind fun s t hst => ?_
    rw [hst.table]
    refine coupled_bind (coupled_inRange _ _) fun first => ?_
    exact coupled_bind (coupled_mapM (fun f => coupled_inRange _ _) _) fun rest => coupled_pure _
  | reliability r => exact alike_selectReliability hBC r first rest
  | hybrid => exact alike_selectHybrid hBC first rest

/-- Choosing a variable is the only part of a visit where rules put requests. -/
theorem alike_select (limit : ℕ) :
    Coupled (Alike Q) (select B p limit node) (select C p limit node) := by
  unfold select
  refine coupled_bind (coupled_inRange _ _) fun fs => ?_
  cases fs with
  | nil => exact coupled_pure _
  | cons first rest =>
    refine coupled_bind (alike_switchRule _ _) fun _ => coupled_get_bind fun s t hst => ?_
    rw [hst.rule]
    exact coupled_map _ (alike_choose hBC _ _ _)

end AnswersLike

end Scoring

/-! ## Visits and runs -/

namespace Search

variable [Scalar α] {ctx : Context σ α} {P : σ → Prop} {s t : State σ α} {id : ℕ} {inherited : α}

/-- Over backends that answer alike, visits go in lockstep. -/
theorem respects_alike {B : Backend τ α} {Q : σ → τ → Prop}
    (hB : ctx.backend.AnswersLike B ctx.problem Q) : Respects ctx B (Scoring.Alike Q) where
  journal _ _ h := ⟨h.rule, h.table, h.fullResolves, h.partialResolves, h.oracle⟩
  table h := h.table
  learn := Scoring.alike_learn
  ask _ := Scoring.alike_ask fun _ _ ho => Oracle.alike_solveNode ho hB _
  select _ _ _ _ := Scoring.alike_select hB _

/-- The request of a visit keeps the property. -/
theorem Asked.keeps {node : Node α} {box : Box α} {a : Answer α} {scoring : Scoring σ α}
    (h : Asked ctx id s node box a scoring) (hB : ctx.backend.Keeps ctx.problem P)
    (hs : P s.scoring.oracle.backend) : P scoring.oracle.backend :=
  Scoring.keeps_of_runs
    (Scoring.alike_ask fun _ _ ho => Oracle.alike_solveNode ho hB.answersLike box) h.ask hs

/-- What a visit learns from an answer is no business of the backend. -/
theorem Learns.keeps {node : Node α} {relax : α} {before after : Scoring σ α}
    (h : Learns node relax before after) (hs : P before.oracle.backend) :
    P after.oracle.backend := by
  unfold Learns at h
  cases hbranch : node.branch with
  | none =>
    rw [hbranch] at h
    rw [h]
    exact hs
  | some branch =>
    rw [hbranch] at h
    exact Scoring.keeps_of_runs (Scoring.alike_learn _ _ _) h hs

/-- A visit keeps what requests keep, whichever of its ways it ends in. -/
theorem keeps_visits (hB : ctx.backend.Keeps ctx.problem P) (h : Visits ctx id inherited s t)
    (hs : P s.scoring.oracle.backend) : P t.scoring.oracle.backend := by
  cases h with
  | pruned => exact hs
  | infeasible hasked => exact hasked.keeps hB hs
  | integer hasked hoptimal hlearns =>
    have hlearned := hlearns.keeps (hasked.keeps hB hs)
    show P (State.offer _ _ _ _).scoring.oracle.backend
    unfold State.offer
    split
    · exact hlearned
    · exact hlearned
  | fathomed hasked hoptimal hlearns => exact hlearns.keeps (hasked.keeps hB hs)
  | @branched node box a scoring learned chosen c down up first last hasked hoptimal hlearns
      hinteger hopen hdepth infeasibility hinfeasibility noted hselect hpriorities hdown hup =>
    have hchosen : P chosen.oracle.backend :=
      Scoring.keeps_of_runs (Scoring.alike_select hB.answersLike _) hselect
        (hlearns.keeps (hasked.keeps hB hs) : P learned.oracle.backend)
    obtain ⟨tree, -, rfl⟩ := Option.map_eq_some_iff.mp hdown
    obtain ⟨tree', -, rfl⟩ := Option.map_eq_some_iff.mp hup
    exact hchosen

/-- A run might have been one over any backend that gives the same answers, as long as the states in
which it gives them have a property that requests keep. -/
theorem grown_over {B : Backend τ α} {backend : σ} (hB : ctx.backend.Keeps ctx.problem P)
    (hanswers : ∀ {b box a}, P b → (ctx.backend.solve ctx.problem box none b).1.outcome = .ok a →
      ∃ b', (B.solve ctx.problem box none b').1.outcome = .ok a)
    (hstart : P (ctx.backend.setMode ctx.settings.lpMode backend).2)
    (h : Reachable ctx (initial ctx backend) s) :
    Grown (ctx.over B) s.core ∧ P s.scoring.oracle.backend := by
  induction h with
  | start => exact ⟨.start, hstart⟩
  | take hs htake ih =>
    obtain ⟨hgrown, hP⟩ := ih
    have hvisits := visits_of_runs_visit htake.visit
    refine ⟨hgrown.take htake.pop? (hvisits.visited_over fun hasked => ?_),
      keeps_visits hB hvisits hP⟩
    exact ⟨hasked.get?, hasked.box?, hanswers hP (outcome_of_runs_solveNode hasked.ask)⟩

end Search

end BranchBound
