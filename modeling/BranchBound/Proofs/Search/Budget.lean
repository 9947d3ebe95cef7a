import BranchBound.Proofs.Search.Incumbents
import BranchBound.Proofs.Search.Requests

/-!
# A smaller budget gives a beginning of the larger run

Two searches that differ only in the limit on the nodes go through the same states until the smaller
limit stops one of them. Without a time limit this holds whatever their clocks show, and for every
backend, however it changes its state with each request.

* `Context.within`: the same search with another limit on the nodes, and another clock.
* `Phase.Behind`, `behind_of_run`: two such runs agree, or one has stopped where the other passed.
* `events_prefix`, `log_prefix`, `objective_le`: what a run only adds to.
* `smaller_budget_is_prefix`: what the two searches tell, ask and return.
-/

namespace BranchBound

open Relaxation

/-- A solution without the time it took. -/
def Solution.timeless {α : Type} (sol : Solution α) : Solution α :=
  { sol with stats := { sol.stats with solveTime := 0 } }

namespace Search

variable {σ α : Type} [Scalar α]

/-- The same search with another limit on the nodes, and another clock. -/
def Context.within (ctx : Context σ α) (maxNodes : ℕ) (clock : ℕ → ℕ) : Context σ α :=
  { ctx with settings := ctx.settings.withMaxNodes maxNodes, clock }

/-! ## Two runs -/

/-- Two runs agree in all but the journal after a number of steps; or the first has stopped at its
limit on the nodes, in a state that the second has passed. -/
inductive Phase.Behind (small large : Context σ α) (p q : Phase σ α) (n : ℕ) : Prop
  | level (h : Phase.Agrees (Scoring.Alike (· = ·)) (p.advance small n) (q.advance large n))
  | stopped {u v : State σ α} {m : ℕ} (hm : m ≤ n)
      (hsmall : p.advance small n = .ended (.ok .nodeLimit) u)
      (hlarge : q.advance large m = .running v) (h : u.Agrees (Scoring.Alike (· = ·)) v)

section Runs

variable {ctx : Context σ α} {k K : ℕ} {s t : State σ α}

theorem respects_within (ctx : Context σ α) (k : ℕ) (clock : ℕ → ℕ) :
    Respects (ctx.within k clock) ctx.backend (Scoring.Alike (· = ·)) := by
  refine respects_alike ⟨?_, ?_⟩
  · rintro b _ box cap rfl
    rfl
  · rintro b _ box cap rfl
    rfl

/-- One step from states that agree leads to states that agree, unless it stops the first run. -/
theorem step_within (clock clock' : ℕ → ℕ) (htime : ctx.settings.timeLimit = none) (hk : k ≤ K)
    (h : s.Agrees (Scoring.Alike (· = ·)) t) :
    Phase.Agrees (Scoring.Alike (· = ·)) (step (ctx.within k clock) s)
        (step (ctx.within K clock') t) ∨
      step (ctx.within k clock) s = .ended (.ok .nodeLimit) s := by
  have hnever : ∀ (n : ℕ) (c : ℕ → ℕ) (u : State σ α), timeIsUp (ctx.within n c) u = false := by
    intro n c u
    show ctx.settings.timeLimit.any _ = false
    rw [htime, Option.any_none]
  have htake := (respects_within ctx k clock).agrees_take h ctx.settings.rule K clock'
  have hpop : s.frontier.pop? = t.frontier.pop? := by
    obtain ⟨scoring, rfl, -⟩ := h
    rfl
  have hprocessed : s.processed = t.processed := by
    obtain ⟨scoring, rfl, -⟩ := h
    rfl
  have hexhausted : exhausted s = exhausted t := by
    obtain ⟨scoring, rfl, -⟩ := h
    rfl
  unfold step
  rw [hnever, hnever, hpop, hexhausted]
  cases t.frontier.pop? with
  | none => exact .inl (.ended h)
  | some popped =>
    obtain ⟨e, rest⟩ := popped
    simp only [Bool.false_eq_true, if_false]
    by_cases hsmall : k ≤ s.processed
    · right
      exact if_pos hsmall
    · left
      have hlarge : ¬ K ≤ t.processed := by omega
      rw [if_neg (show ¬ (ctx.within k clock).settings.maxNodes ≤ s.processed from hsmall),
        if_neg (show ¬ (ctx.within K clock').settings.maxNodes ≤ t.processed from hlarge)]
      exact htake e rest

theorem behind_of_run (clock clock' : ℕ → ℕ) (htime : ctx.settings.timeLimit = none) (hk : k ≤ K)
    {p q : Phase σ α} (h : p.Agrees (Scoring.Alike (· = ·)) q) (n : ℕ) :
    p.Behind (ctx.within k clock) (ctx.within K clock') q n := by
  induction n generalizing p q with
  | zero => exact .level h
  | succ n ih =>
    cases h with
    | ended h => exact .level (.ended h)
    | @running s t h =>
      rcases step_within clock clock' htime hk h with hstep | hstep
      · cases ih hstep with
        | level hlevel => exact .level hlevel
        | stopped hm hsmall hlarge hagrees =>
          exact .stopped (Nat.succ_le_succ hm) hsmall hlarge hagrees
      · refine .stopped (Nat.zero_le _) ?_ rfl h
        rw [Phase.advance, hstep, Phase.advance_ended]

end Runs

/-! ## What a run only adds to -/

section Later

variable {ctx : Context σ α} {s : State σ α} {taken : List (Entry α)}

theorem Turn.events_prefix {e : Entry α} {s t : Ledger α} (h : Turn ctx e s t) :
    s.events <+: t.events := by
  cases h with
  | unsolved hnode => exact List.prefix_rfl
  | integer hnode x relax =>
    unfold Ledger.offer
    split
    · exact (List.prefix_append _ _).trans (List.prefix_append _ _)
    · exact List.prefix_append _ _
  | branched hnode hpriorities hdown hup =>
    exact (List.prefix_append _ _).trans (List.prefix_append _ _)
  | _ => exact List.prefix_append _ _

/-- Events are told for good. -/
theorem events_prefix (h : Narrated ctx taken s.ledger) (n : ℕ) :
    s.events.toList <+: ((Phase.running s).advance ctx n).state.events.toList := by
  refine (holds_of_narrated (P := fun _ t => s.events.toList <+: t.events.toList) ?_ h
    List.prefix_rfl n).2
  intro done u v e rest hnarrated hevents htakes
  obtain ⟨node, hnode⟩ := hnarrated.orderly.exists_node htakes.pop?
  have hturn := htakes.dealt.turn (s := { u with frontier := rest }) hnode
  exact hevents.trans hturn.events_prefix

/-- The incumbent gets no worse. -/
theorem objective_le [ComparableScalar α] (h : Narrated ctx taken s.ledger) {v : α}
    (hv : v ≤ s.incumbent.objective) (n : ℕ) :
    v ≤ ((Phase.running s).advance ctx n).state.incumbent.objective := by
  refine (holds_of_narrated (P := fun _ t => v ≤ t.incumbent.objective) ?_ h hv n).2
  intro done u w e rest hnarrated hu htakes
  obtain ⟨-, hfresh⟩ := hnarrated.orderly.placed.pop htakes.pop?
  have hfate := fate_of_dealt (s := { u with frontier := rest }) htakes.dealt hfresh
  exact hfate.le_incumbent hu

/-- A backend that writes down what it is asked keeps all it wrote. -/
theorem log_prefix {B : Backend σ α} (ctx : Context (σ × List (Request α)) α)
    (hB : ctx.backend = recording B) (s : State (σ × List (Request α)) α) (n : ℕ) :
    s.scoring.oracle.backend.2
      <+: ((Phase.running s).advance ctx n).state.scoring.oracle.backend.2 := by
  have hkeeps : ctx.backend.Keeps ctx.problem fun b => s.scoring.oracle.backend.2 <+: b.2 := by
    rw [hB]
    exact ⟨fun box cap hb => hb.trans (List.prefix_append _ _)⟩
  exact keeps_advance hkeeps List.prefix_rfl n

end Later

/-! ## Two searches -/

section Searches

variable {ctx : Context σ α} {clock clock' : ℕ → ℕ} {k K : ℕ}

omit [Scalar α] in
/-- States that agree differ in the journal alone. -/
theorem eq_withJournal_of_agrees {s t : State σ α} (h : s.Agrees (Scoring.Alike (· = ·)) t) :
    ∃ journal, s = t.withJournal journal := by
  obtain ⟨⟨rule, oracle, table, full, part, journal⟩, rfl, halike⟩ := h
  refine ⟨journal, ?_⟩
  obtain ⟨b, lpSolves, calls, iterations⟩ := oracle
  obtain ⟨hrule, htable, hfull, hpart, hsolves, hcalls, hiterations, hbackend⟩ := halike
  simp only at hrule htable hfull hpart hsolves hcalls hiterations hbackend
  simp only [State.withJournal, hrule, htable, hfull, hpart, hsolves, hcalls, hiterations, hbackend]

/-- Both searches end; the smaller one ends like the larger one, or at its limit on the nodes in a
state that the larger one passes. -/
theorem ends_within (clock clock' : ℕ → ℕ) (htime : ctx.settings.timeLimit = none) (hk : k ≤ K)
    (backend : σ) :
    ∃ n result s result' t,
      (Phase.running (initial (ctx.within k clock) backend)).advance (ctx.within k clock) n
        = .ended result s ∧
      (Phase.running (initial (ctx.within K clock') backend)).advance (ctx.within K clock') n
        = .ended result' t ∧
      ((result = result' ∧ ∃ journal, s = t.withJournal journal) ∨
        (result = .ok .nodeLimit ∧ ∃ m n' u journal, n = m + n' ∧
          (Phase.running (initial (ctx.within K clock') backend)).advance (ctx.within K clock') m
            = .running u ∧ s = u.withJournal journal)) := by
  have hstart : (initial (ctx.within k clock) backend).Agrees (Scoring.Alike (· = ·))
      (initial (ctx.within K clock') backend) :=
    ⟨_, rfl, rfl, rfl, rfl, rfl, rfl, rfl, rfl, rfl⟩
  obtain ⟨result, s, hsmall⟩ := endsWithin_stepBound (ctx.within k clock) backend
  obtain ⟨result', t, hlarge⟩ := endsWithin_stepBound (ctx.within K clock') backend
  have hle : stepBound (ctx.within k clock).settings ≤ stepBound (ctx.within K clock').settings := by
    show 2 * k + 2 ≤ 2 * K + 2
    omega
  have hs := hsmall _ hle
  have ht := hlarge _ (Nat.le_refl _)
  refine ⟨_, result, s, result', t, hs, ht, ?_⟩
  cases behind_of_run clock clock' htime hk (.running hstart)
      (stepBound (ctx.within K clock').settings) with
  | level hlevel =>
    rw [hs, ht] at hlevel
    cases hlevel with
    | ended h => exact .inl ⟨rfl, eq_withJournal_of_agrees h⟩
  | @stopped u v m hm hstopped hpassed h =>
    rw [hs] at hstopped
    cases hstopped
    obtain ⟨n', hn⟩ := Nat.exists_eq_add_of_le hm
    obtain ⟨journal, hjournal⟩ := eq_withJournal_of_agrees h
    exact .inr ⟨rfl, m, n', v, journal, hn, hpassed, hjournal⟩

/-- A search that stops at its limit on the nodes has processed exactly that many. -/
theorem processed_eq_of_nodeLimit {backend : σ} {n : ℕ} {s : State σ α}
    (h : (Phase.running (initial ctx backend)).advance ctx n = .ended (.ok .nodeLimit) s) :
    s.processed = ctx.settings.maxNodes := by
  obtain ⟨-, hnodes⟩ := (halts_of_advance h).of_nodeLimit
  have hbudgeted := (budgeted_of_run ctx backend n).processed_le
  rw [h] at hbudgeted
  exact Nat.le_antisymm hbudgeted hnodes

/-- Without a time limit, a search ends at its limit on the nodes or because nothing is open. -/
theorem status_of_ended (htime : ctx.settings.timeLimit = none) {backend : σ} {n : ℕ}
    {status : SolveStatus} {s : State σ α}
    (h : (Phase.running (initial ctx backend)).advance ctx n = .ended (.ok status) s) :
    status = .nodeLimit ∨ status = .optimal ∨ status = .infeasible := by
  cases halts_of_advance h with
  | exhausted hpop hstatus =>
    right
    rw [hstatus]
    unfold exhausted
    split
    · exact .inl rfl
    · exact .inr rfl
  | timeLimit hpop hlimit =>
    unfold timeIsUp at hlimit
    rw [htime] at hlimit
    cases hlimit
  | nodeLimit hpop hintime hnodes => exact .inl rfl

/-- What the smaller search has told is the beginning of what the larger one tells. -/
theorem events_prefix_within (htime : ctx.settings.timeLimit = none) (hk : k ≤ K) (backend : σ) :
    (search (ctx.within k clock) backend).state.events.toList
      <+: (search (ctx.within K clock') backend).state.events.toList := by
  obtain ⟨n, result, s, result', t, hs, ht, hcases⟩ :=
    ends_within clock clock' htime hk backend
  obtain ⟨-, _, hsmall⟩ := search_of_ended hs
  obtain ⟨-, _, hlarge⟩ := search_of_ended ht
  rw [hsmall, hlarge]
  rcases hcases with ⟨-, journal, rfl⟩ | ⟨-, m, n', u, journal, rfl, hu, rfl⟩
  · exact List.prefix_rfl
  · have hnarrated := narrated_of_run (ctx.within K clock') backend m
    rw [hu] at hnarrated
    have hprefix := events_prefix (s := u) hnarrated n'
    rw [Phase.advance_add, hu] at ht
    rw [ht] at hprefix
    exact hprefix

/-- What the smaller search has asked is the beginning of what the larger one asks. -/
theorem requests_prefix_within (htime : ctx.settings.timeLimit = none) (hk : k ≤ K)
    (backend : σ) :
    requests (ctx.within k clock) backend <+: requests (ctx.within K clock') backend := by
  obtain ⟨n, result, s, result', t, hs, ht, hcases⟩ :=
    @ends_within _ _ _ (ctx.over (recording ctx.backend)) _ _ clock clock' htime hk (backend, [])
  obtain ⟨-, _, hsmall⟩ := search_of_ended hs
  obtain ⟨-, _, hlarge⟩ := search_of_ended ht
  have hsmall' : requests (ctx.within k clock) backend = s.scoring.oracle.backend.2 :=
    congrArg (fun u : State _ _ => u.scoring.oracle.backend.2) hsmall
  have hlarge' : requests (ctx.within K clock') backend = t.scoring.oracle.backend.2 :=
    congrArg (fun u : State _ _ => u.scoring.oracle.backend.2) hlarge
  rw [hsmall', hlarge']
  rcases hcases with ⟨-, journal, rfl⟩ | ⟨-, m, n', u, journal, rfl, hu, rfl⟩
  · exact List.prefix_rfl
  · have hprefix := log_prefix ((ctx.over (recording ctx.backend)).within K clock') rfl u n'
    rw [Phase.advance_add, hu] at ht
    rw [ht] at hprefix
    exact hprefix

theorem objective_le_within [ComparableScalar α] (htime : ctx.settings.timeLimit = none)
    (hk : k ≤ K) (backend : σ) {sol sol' : Solution α}
    (hsol : (search (ctx.within k clock) backend).result = .ok sol)
    (hsol' : (search (ctx.within K clock') backend).result = .ok sol') :
    sol.objective ≤ sol'.objective := by
  obtain ⟨n, result, s, result', t, hs, ht, hcases⟩ :=
    ends_within clock clock' htime hk backend
  have hobjective : ∀ {ctx : Context σ α} {n result s sol},
      (Phase.running (initial ctx backend)).advance ctx n = .ended result s →
      (search ctx backend).result = .ok sol → sol.objective = s.incumbent.objective := by
    intro ctx n result s sol hended hok
    obtain ⟨hresult, -⟩ := search_of_ended hended
    rw [hok] at hresult
    cases result with
    | error err => cases hresult
    | ok status =>
      cases hresult
      rfl
  have hdefined := fun m => (champion_of_run (ctx.within K clock') backend m).objective_le_self
  rw [hobjective hs hsol, hobjective ht hsol']
  rcases hcases with ⟨-, journal, rfl⟩ | ⟨-, m, n', u, journal, rfl, hu, rfl⟩
  · have hle := hdefined n
    rw [ht] at hle
    exact hle
  · have hle := hdefined m
    have hnarrated := narrated_of_run (ctx.within K clock') backend m
    rw [hu] at hle hnarrated
    have hlater := objective_le (s := u) hnarrated hle n'
    rw [Phase.advance_add, hu] at ht
    rw [ht] at hlater
    exact hlater

/-- A smaller limit on the nodes gives a beginning of the larger run, whatever the backend and the
clocks are, if there is no time limit. The events told and the requests made are beginnings of those
of the larger search. Either the smaller search ends because nothing is open, or with an error, and
then the larger one has the same result and ends in the same state, times apart; or it ends at its
limit, having processed exactly that many nodes, with an objective that is no better. -/
theorem smaller_budget_is_prefix (ctx : Context σ α) (backend : σ) (clock clock' : ℕ → ℕ)
    {k K : ℕ} (htime : ctx.settings.timeLimit = none) (hk : k ≤ K) :
    (search (ctx.within k clock) backend).state.events.toList
        <+: (search (ctx.within K clock') backend).state.events.toList ∧
      requests (ctx.within k clock) backend <+: requests (ctx.within K clock') backend ∧
      (((∀ sol, (search (ctx.within k clock) backend).result = .ok sol →
            sol.status = .optimal ∨ sol.status = .infeasible) ∧
          (search (ctx.within k clock) backend).result.map Solution.timeless
            = (search (ctx.within K clock') backend).result.map Solution.timeless ∧
          ∃ journal, (search (ctx.within k clock) backend).state
            = (search (ctx.within K clock') backend).state.withJournal journal) ∨
        ∃ sol, (search (ctx.within k clock) backend).result = .ok sol ∧
          sol.status = .nodeLimit ∧ sol.stats.nodesProcessed = k ∧
          ∀ [ComparableScalar α] (sol' : Solution α),
            (search (ctx.within K clock') backend).result = .ok sol' →
              sol.objective ≤ sol'.objective) := by
  refine ⟨events_prefix_within htime hk backend, requests_prefix_within htime hk backend, ?_⟩
  obtain ⟨n, result, s, result', t, hs, ht, hcases⟩ :=
    ends_within clock clock' htime hk backend
  obtain ⟨hsmall, journal, hstate⟩ := search_of_ended hs
  obtain ⟨hlarge, journal', hstate'⟩ := search_of_ended ht
  by_cases hlimit : result = .ok .nodeLimit
  · subst hlimit
    refine .inr ⟨_, hsmall, rfl, processed_eq_of_nodeLimit hs, ?_⟩
    intro _ sol' hsol'
    exact objective_le_within htime hk backend hsmall hsol'
  · rcases hcases with ⟨rfl, journal'', rfl⟩ | ⟨hstopped, -⟩
    · left
      refine ⟨?_, ?_, journal, ?_⟩
      · intro sol hok
        rw [hsmall] at hok
        cases result with
        | error err => cases hok
        | ok status =>
          cases hok
          have htime' : (ctx.within k clock).settings.timeLimit = none := htime
          rcases status_of_ended htime' hs with rfl | hstatus
          · exact absurd rfl hlimit
          · exact hstatus
      · rw [hsmall, hlarge]
        cases result with
        | error err => rfl
        | ok status => rfl
      · rw [hstate, hstate']
        rfl
    · exact absurd hstopped hlimit

/-- Doubling a variable up to three takes three nodes. A limit of one stops the search after the
root, and what it has told and asked is the beginning of a search that may take five. -/
theorem smaller_budget_is_prefix_doubled :
    (search ((doubledContext 3).within 1 fun _ => 0) ()).result.toOption.map Solution.status
        = some .nodeLimit ∧
      (search ((doubledContext 3).within 1 fun _ => 0) ()).state.events.toList
        <+: (search ((doubledContext 3).within 5 fun n => n) ()).state.events.toList ∧
      requests ((doubledContext 3).within 1 fun _ => 0) ()
        <+: requests ((doubledContext 3).within 5 fun n => n) () := by
  obtain ⟨hevents, hrequests, -⟩ := smaller_budget_is_prefix (doubledContext 3) () (fun _ => 0)
    (fun n => n) rfl (show 1 ≤ 5 by decide)
  exact ⟨by decide +kernel, hevents, hrequests⟩

end Searches

end Search

end BranchBound
