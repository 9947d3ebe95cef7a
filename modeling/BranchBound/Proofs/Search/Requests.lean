import BranchBound.Proofs.Search.Steady
import BranchBound.Proofs.Search.Termination

/-!
# What a search asks of its backend

A backend can be made to write down what it is asked, and a search over it goes as it would have
gone without. So the requests of a search are those written down by its end, and what is true of all
that such a backend has written is true of every request of the search.

* `Request`, `recording`: a backend that writes down what it is asked.
* `requests`: all that a search asks, in order.
* `search_of_answersLike`: over backends that answer alike, searches have the same result.
* `search_recording`: writing down changes nothing.
* `keeps_advance`: what requests keep is kept by a whole run, also where it fails.
-/

namespace BranchBound

open Relaxation

variable {σ α : Type}

namespace Relaxation

/-- What a backend is asked for: a simplex variant, or the relaxation in a box within a limit. -/
inductive Request (α : Type) where
  | mode (mode : LpMode)
  | solve (box : Box α) (cap : Option ℕ)

/-- The same backend, which also writes down what it is asked. -/
def recording (B : Backend σ α) : Backend (σ × List (Request α)) α where
  solve p box cap s :=
    ((B.solve p box cap s.1).1, (B.solve p box cap s.1).2, s.2 ++ [.solve box cap])
  setMode mode s := ((B.setMode mode s.1).1, (B.setMode mode s.1).2, s.2 ++ [.mode mode])

theorem answersLike_recording (B : Backend σ α) (p : Problem α) :
    (recording B).AnswersLike B p fun s t => s.1 = t where
  outcome := by
    rintro s _ box cap rfl
    rfl
  next := by
    rintro s _ box cap rfl
    rfl

end Relaxation

namespace Search

variable [Scalar α]

/-- All that a search asks of its backend, in order. -/
def requests (ctx : Context σ α) (backend : σ) : List (Request α) :=
  (search (ctx.over (recording ctx.backend)) (backend, [])).state.scoring.oracle.backend.2

variable {τ : Type} {Q : σ → τ → Prop} {ctx : Context σ α} {s : State σ α} {t : State τ α}

/-! ## Solutions of states that are alike -/

/-- States that are alike stand for the same solution, the time apart. -/
theorem solution_eq_of_agrees {ctx' : Context τ α} (h : s.Agrees (Scoring.Alike Q) t)
    (hclock : ctx.clock s.frontier.popped = ctx'.clock t.frontier.popped) (status : SolveStatus) :
    solution ctx status s = solution ctx' status t := by
  obtain ⟨scoring, rfl, halike⟩ := h
  simp only [solution, stats, State.bestBound, halike.oracle.lpSolves, halike.oracle.iterations,
    halike.fullResolves, halike.partialResolves, hclock]

/-- Over two backends that answer alike, a search goes alike: it has the same result and the same
events. -/
theorem search_of_answersLike {B : Backend τ α} {b : τ} {backend : σ} {Q : τ → σ → Prop}
    (hB : B.AnswersLike ctx.backend ctx.problem Q)
    (hmode : Q (B.setMode ctx.settings.lpMode b).2
      (ctx.backend.setMode ctx.settings.lpMode backend).2) :
    (search (ctx.over B) b).result = (search ctx backend).result ∧
      (search (ctx.over B) b).state.events = (search ctx backend).state.events := by
  have hrespects : Respects (ctx.over B) ctx.backend (Scoring.Alike Q) := respects_alike hB
  have hstart : (initial (ctx.over B) b).Agrees (Scoring.Alike Q) (initial ctx backend) :=
    ⟨_, rfl, rfl, rfl, rfl, rfl, rfl, rfl, rfl, hmode⟩
  have hagrees : Phase.Agrees (Scoring.Alike Q) _
      ((Phase.running (initial ctx backend)).advance ctx (stepBound ctx.settings)) :=
    hrespects.agrees_advance (.inr rfl) ctx.settings.rule (stepBound ctx.settings) (.running hstart)
  obtain ⟨result, s, hended⟩ := endsWithin_stepBound (ctx.over B) b
  obtain ⟨result', t, hended'⟩ := endsWithin_stepBound ctx backend
  have hs := hended _ (Nat.le_refl _)
  have ht := hended' _ (Nat.le_refl _)
  obtain ⟨hresult, journal, hstate⟩ := search_of_ended hs
  obtain ⟨hresult', journal', hstate'⟩ := search_of_ended ht
  replace hs : (Phase.running (initial (ctx.over B) b)).advance (ctx.over B)
      (stepBound ctx.settings) = .ended result s := hs
  rw [hs, ht] at hagrees
  rw [hresult, hresult', hstate, hstate']
  cases hagrees with
  | ended hst =>
    refine ⟨?_, ?_⟩
    · congr 1
      funext status
      refine solution_eq_of_agrees hst ?_ status
      obtain ⟨scoring, rfl, -⟩ := hst
      rfl
    · obtain ⟨scoring, rfl, -⟩ := hst
      rfl

/-- Writing down what a backend is asked changes nothing: neither the result of a search, nor its
events. -/
theorem search_recording (ctx : Context σ α) (backend : σ) :
    (search (ctx.over (recording ctx.backend)) (backend, [])).result
        = (search ctx backend).result ∧
      (search (ctx.over (recording ctx.backend)) (backend, [])).state.events
        = (search ctx backend).state.events :=
  search_of_answersLike (answersLike_recording ctx.backend ctx.problem) rfl

/-! ## Runs -/

omit [Scalar α] in
/-- A state in which the backend has a property agrees with itself. -/
theorem agrees_self {P : σ → Prop} {s : State σ α} (hs : P s.scoring.oracle.backend) :
    s.Agrees (Scoring.Alike fun b c => b = c ∧ P c) s :=
  ⟨s.scoring, rfl, Scoring.alike_self hs⟩

/-- What requests keep is kept by a whole run, also where it fails. -/
theorem keeps_advance {P : σ → Prop} {s : State σ α} (hB : ctx.backend.Keeps ctx.problem P)
    (hs : P s.scoring.oracle.backend) (n : ℕ) :
    P ((Phase.running s).advance ctx n).state.scoring.oracle.backend := by
  have hagrees : Phase.Agrees (Scoring.Alike fun b c => b = c ∧ P c)
      ((Phase.running s).advance ctx n) ((Phase.running s).advance ctx n) :=
    (respects_alike hB.answersLike).agrees_advance (.inr rfl) ctx.settings.rule n
      (.running (agrees_self hs))
  revert hagrees
  generalize (Phase.running s).advance ctx n = phase
  intro hagrees
  cases hagrees with
  | running h =>
    obtain ⟨scoring, -, halike⟩ := h
    exact halike.oracle.backend.2
  | ended h =>
    obtain ⟨scoring, -, halike⟩ := h
    exact halike.oracle.backend.2

end Search

end BranchBound
