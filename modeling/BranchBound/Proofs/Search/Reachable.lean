import BranchBound.Proofs.Search.Visit
import BranchBound.Search.Run

/-!
# States between two nodes

What a run does, without its count of steps: it goes from state to state, one visit each, and stops
where nothing is open or a limit is reached.

* `Takes`: a node is taken up and visited.
* `Reachable`: states between two nodes.
* `Stopped`: why a run ends, and with which status.
* `reachable_of_search`: a solution is read off a reachable state in which the run stopped.
* `Grown`, `grown_of_reachable`: the same for the core of a state, where all that counts of a
  backend is what it answers.
-/

namespace BranchBound.Search

open Relaxation

variable {σ α : Type} [Scalar α] {ctx : Context σ α} {s t : State σ α}

/-- The next node is taken up, and its visit ends without an error. -/
structure Takes (ctx : Context σ α) (e : Entry α) (rest : Frontier α) (s t : State σ α) : Prop where
  pop? : s.frontier.pop? = some (e, rest)
  in_time : timeIsUp ctx s = false
  within_nodes : s.processed < ctx.settings.maxNodes
  visit : Runs (visit ctx e.node e.bound) { s with frontier := rest } () t

/-- The states a run can be in between two nodes. -/
inductive Reachable (ctx : Context σ α) (start : State σ α) : State σ α → Prop
  | start : Reachable ctx start start
  | take {s t : State σ α} {e : Entry α} {rest : Frontier α} (hs : Reachable ctx start s)
      (htake : Takes ctx e rest s t) : Reachable ctx start t

/-- Why a run ends, and with which status. -/
inductive Stopped (ctx : Context σ α) (s : State σ α) : SolveStatus → Prop
  | exhausted (hentries : s.frontier.entries = []) : Stopped ctx s (exhausted s)
  | timeLimit (htime : timeIsUp ctx s = true) : Stopped ctx s .timeLimit
  | nodeLimit : Stopped ctx s .nodeLimit

/-! ## Steps -/

/-- A step that goes on has taken up an entry. -/
theorem takes_of_step_running (h : step ctx s = .running t) : ∃ e rest, Takes ctx e rest s t := by
  unfold step at h
  split at h
  · cases h
  · rename_i e rest hpop
    split at h
    · cases h
    · rename_i htime
      split at h
      · cases h
      · rename_i hnodes
        split at h
        · rename_i hrun
          cases h
          exact ⟨e, rest, hpop, eq_false_of_ne_true htime, Nat.lt_of_not_le hnodes, hrun⟩
        · cases h

/-- A run that stops without an error leaves the state as it is. -/
theorem stopped_of_step_ended {status : SolveStatus} (h : step ctx s = .ended (.ok status) t) :
    t = s ∧ Stopped ctx s status := by
  unfold step at h
  split at h
  · rename_i hpop
    cases h
    exact ⟨rfl, .exhausted (Frontier.pop?_eq_none_iff.mp hpop)⟩
  · split at h
    · rename_i htime
      cases h
      exact ⟨rfl, .timeLimit htime⟩
    · split at h
      · cases h
        exact ⟨rfl, .nodeLimit⟩
      · split at h <;> cases h

omit [Scalar α] in
theorem Stopped.eq_exhausted {status : SolveStatus} (h : Stopped ctx s status)
    (hfinished : status.isFinished = true) :
    status = Search.exhausted s ∧ s.frontier.entries = [] := by
  cases h with
  | exhausted hentries => exact ⟨rfl, hentries⟩
  | timeLimit htime => cases hfinished
  | nodeLimit => cases hfinished

omit [Scalar α] in
/-- A run that is finished has no open nodes. -/
theorem Stopped.entries_eq_nil {status : SolveStatus} (h : Stopped ctx s status)
    (hfinished : status.isFinished = true) : s.frontier.entries = [] :=
  (h.eq_exhausted hfinished).2

/-! ## Runs -/

/-- However many steps are allowed, a run goes through reachable states and stops in one. -/
theorem Reachable.advance {start : State σ α} (hs : Reachable ctx start s) (n : ℕ)
    {status : SolveStatus}
    (h : ((Phase.running s).advance ctx n).outcome = (.ok status, t)) :
    Reachable ctx start t ∧ Stopped ctx t status := by
  induction n generalizing s with
  | zero =>
    cases h
    exact ⟨hs, .nodeLimit⟩
  | succ n ih =>
    rw [Phase.advance] at h
    cases hstep : step ctx s with
    | running u =>
      rw [hstep] at h
      obtain ⟨e, rest, htake⟩ := takes_of_step_running hstep
      exact ih (hs.take htake) h
    | ended result u =>
      rw [hstep, Phase.advance_ended] at h
      cases h
      obtain ⟨rfl, hstopped⟩ := stopped_of_step_ended hstep
      exact ⟨hs, hstopped⟩

/-- The states between steps are reachable. -/
theorem reachable_of_advance {start : State σ α} {n : ℕ}
    (h : (Phase.running start).advance ctx n = .running s) : Reachable ctx start s := by
  have houtcome : ((Phase.running start).advance ctx n).outcome = (.ok .nodeLimit, s) := by
    rw [h]
    rfl
  exact (Reachable.start.advance n houtcome).1

/-- A solution is read off the state in which a run ends; only the closing notes come after it. -/
theorem outcome_of_search {backend : σ} {sol : Solution α}
    (h : (search ctx backend).result = .ok sol) :
    ∃ s, ((Phase.running (initial ctx backend)).advance ctx (stepBound ctx.settings)).outcome
        = (.ok sol.status, s) ∧ sol = solution ctx sol.status s ∧
      (search ctx backend).state = (closing ctx sol).foldl State.note s := by
  unfold search at h ⊢
  cases hrun : ((Phase.running (initial ctx backend)).advance ctx
      (stepBound ctx.settings)).outcome with
  | mk result s =>
    rw [hrun] at h
    cases result with
    | error e => cases h
    | ok status =>
      cases h
      exact ⟨s, rfl, rfl, rfl⟩

/-- That state is reachable, and the run stopped there. -/
theorem reachable_of_search {backend : σ} {sol : Solution α}
    (h : (search ctx backend).result = .ok sol) :
    ∃ s, Reachable ctx (initial ctx backend) s ∧ Stopped ctx s sol.status ∧
      sol = solution ctx sol.status s ∧
      (search ctx backend).state = (closing ctx sol).foldl State.note s := by
  obtain ⟨s, hrun, hsol, hstate⟩ := outcome_of_search h
  obtain ⟨hreach, hstopped⟩ := Reachable.start.advance _ hrun
  exact ⟨s, hreach, hstopped, hsol, hstate⟩

/-! ## Cores -/

/-- The core before the first node. -/
def Core.start : Core α :=
  ⟨Tree.empty.addRoot, Frontier.empty.push 0 (-Scalar.infinity) Scalar.infinity, .none⟩

/-- The cores that visits lead to. -/
inductive Grown (ctx : Context σ α) : Core α → Prop
  | start : Grown ctx .start
  | take {s t : Core α} {e : Entry α} {rest : Frontier α} (hs : Grown ctx s)
      (hpop : s.frontier.pop? = some (e, rest))
      (hvisited : Visited ctx e.node ⟨s.tree, rest, s.incumbent⟩ t) : Grown ctx t

theorem grown_of_reachable {backend : σ} (h : Reachable ctx (initial ctx backend) s) :
    Grown ctx s.core := by
  induction h with
  | start => exact .start
  | take hs htake ih => exact ih.take htake.pop? (visited_of_runs_visit htake.visit)

/-- Solving is searching, once the settings are valid. -/
theorem search_of_solveWith {backend : σ} {out : Outcome σ α}
    (h : solveWith ctx backend = .ok out) :
    ctx.settings.validate = .ok () ∧ out = search ctx backend := by
  unfold solveWith at h
  cases hvalid : ctx.settings.validate with
  | error e =>
    rw [hvalid] at h
    cases h
  | ok u =>
    rw [hvalid] at h
    cases h
    exact ⟨rfl, rfl⟩

/-- A result that can be read off was no error. -/
theorem exists_ok_of_toOption_map {ε β γ : Type} {r : Except ε β} {g : β → γ} {c : γ}
    (h : r.toOption.map g = some c) : ∃ b, r = .ok b ∧ g b = c := by
  cases r with
  | error e => cases h
  | ok b => exact ⟨b, rfl, Option.some.inj h⟩

end BranchBound.Search
