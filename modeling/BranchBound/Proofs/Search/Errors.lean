import BranchBound.Proofs.Search.Bound
import BranchBound.Proofs.Search.Requests
import BranchBound.Proofs.Search.Succeeds

/-!
# Errors of a solve

With the simplex backend and a problem made by the constructors, only the settings can be wrong. A
solve checks them before it creates a node; if they are in order, every request it makes passes the
checks of the solver and is answered with a value for every variable, nothing it looks up is
missing, and it ends with a solution.

* `returned`: what a caller gets.
* `Request.Answered`: a request that passes all checks and is answered.
* `Backend.Dependable.recording`: what is true of requests in usable boxes is true of all that a
  dependable backend has written down.
* `solve_fails_iff`: a solve fails if and only if its settings are wrong.
-/

namespace BranchBound

open Relaxation

/-! ## Requests -/

namespace Relaxation

/-- The data of a request and the settings for it are in order, and the simplex backend answers it,
with a value for every variable where there is a bound, whichever variant it was asked for. -/
def Request.Answered (p : Problem ExtRat) (settings : LinearProgram.Settings ExtRat) :
    Request ExtRat → Prop
  | .mode _ => True
  | .solve box cap => (p.relaxation box.lower box.upper).validate = .ok () ∧
      ∀ s : SimplexState ExtRat, s.settings = settings →
        (s.settingsFor cap).validate = .ok () ∧
        ∃ a, (simplex.solve p box cap s).1.outcome = .ok a ∧ Oracle.wellFormed p a = true

theorem answered_of_usable {p : Problem ExtRat} {settings : LinearProgram.Settings ExtRat}
    (hp : p.WellFormed) (hs : settings.validate = .ok ()) {box : Box ExtRat}
    (hbox : box.Usable p.numVars) (cap : Option ℕ) :
    (Request.solve box cap).Answered p settings := by
  refine ⟨hp.validate_relaxation hbox, ?_⟩
  rintro s rfl
  exact ⟨(validate_settingsFor s cap).trans hs, answers_simplex hp hs hbox cap⟩

/-- What is true of requests in usable boxes is true of all that a dependable backend has written
down, and writing it down changes no answer. -/
theorem Backend.Dependable.recording {σ : Type} {B : Backend σ ExtRat} {p : Problem ExtRat}
    {tol : ExtRat} {P : σ → Prop} {T : Request ExtRat → Prop} (hB : B.Dependable p tol P)
    (hT : ∀ {box : Box ExtRat} (cap : Option ℕ), box.Usable p.numVars → T (.solve box cap)) :
    (Relaxation.recording B).Dependable p tol fun s => P s.1 ∧ ∀ request ∈ s.2, T request where
  answers {box s} cap hbox hs := by
    obtain ⟨a, ha, hwell, hnext⟩ := hB.answers cap hbox hs.1
    exact ⟨a, ha, hwell, hnext,
      List.forall_mem_append.mpr ⟨hs.2, List.forall_mem_singleton.mpr (hT cap hbox)⟩⟩
  fractional hbox hs := hB.fractional hbox hs.1

end Relaxation

namespace Search

/-! ## Settings -/

/-- Settings in order leave an interval between reports, and those of the solver are in order. -/
theorem lp_validate_of_validate {settings : Settings ExtRat} (h : settings.validate = .ok ()) :
    settings.logInterval ≠ 0 ∧ settings.lp.validate = .ok () := by
  unfold Settings.validate at h
  extract_lets rest rest' at h
  split at h
  · cases h
  simp only [rest'] at h
  split at h
  · cases h
  rename_i hlog
  refine ⟨hlog, ?_⟩
  simp only [rest] at h
  cases hrule : Settings.validateRule settings.rule with
  | error fault =>
    rw [hrule] at h
    cases h
  | ok _ =>
    rw [hrule] at h
    cases hlp : settings.lp.validate with
    | error fault =>
      rw [hlp] at h
      cases h
    | ok _ => rfl

/-! ## Solves -/

/-- What a caller gets: the solution of a search, or the error of the search or of its settings. -/
def returned {σ α : Type} : Except (ConfigFault α) (Outcome σ α) → Except (SolveError α) (Solution α)
  | .error fault => .error (.config fault)
  | .ok out => out.result

/-- The search of a solve with the simplex backend. -/
def simplexContext (p : Problem ExtRat) (settings : Settings ExtRat) (clock : ℕ → ℕ) :
    Context (SimplexState ExtRat) ExtRat :=
  ⟨p, settings, simplex, clock⟩

variable {p : Problem ExtRat} {settings : Settings ExtRat}

/-- With settings in order, a solve ends with a solution, and all its requests are answered. -/
theorem search_simplex_succeeds (hp : p.WellFormed) (hvalid : settings.validate = .ok ())
    (clock : ℕ → ℕ) :
    (∃ sol, (search (simplexContext p settings clock) (.new settings.lp)).result = .ok sol) ∧
      ∀ request ∈ requests (simplexContext p settings clock) (.new settings.lp),
        request.Answered p settings.lp := by
  obtain ⟨hlog, hlp⟩ := lp_validate_of_validate hvalid
  have hB : ((simplexContext p settings clock).over (recording simplex)).backend.Dependable p
      settings.integralityTol fun s => s.1.settings = settings.lp ∧
        ∀ request ∈ s.2, request.Answered p settings.lp :=
    (dependable_simplex hp hlp (integralityTol_pos_of_validate hvalid)).recording
      fun cap hbox => answered_of_usable hp hlp hbox cap
  have hstart : ∀ request ∈ [Request.mode settings.lpMode], request.Answered p settings.lp :=
    List.forall_mem_singleton.mpr trivial
  obtain ⟨⟨sol, hsol⟩, -, hrequests⟩ :=
    search_succeeds hB hp hlog (.new settings.lp, []) ⟨rfl, hstart⟩
  refine ⟨⟨sol, ?_⟩, hrequests⟩
  rw [← (search_recording (simplexContext p settings clock) (.new settings.lp)).1]
  exact hsol

/-- A solve of a problem made by the constructors fails if and only if its settings are wrong, with
the error that their check gives and before it creates a node. With settings in order it returns a
solution, and every request on the way, capped or not, passes the checks of the solver and is
answered by a point of the right length, whatever the rule, the order of nodes and the tolerances
are. -/
theorem solve_fails_iff (hp : p.Constructed) (settings : Settings ExtRat) (clock : ℕ → ℕ) :
    (∀ err, returned (solve p settings clock) = .error err ↔
        ∃ fault, settings.validate = .error fault ∧ err = .config fault) ∧
      (∀ fault, settings.validate = .error fault → solve p settings clock = .error fault) ∧
      (settings.validate = .ok () →
        (∃ sol, returned (solve p settings clock) = .ok sol) ∧
          ∀ request ∈ requests (simplexContext p settings clock) (.new settings.lp),
            request.Answered p settings.lp) := by
  have hinvalid : ∀ fault, settings.validate = .error fault →
      solve p settings clock = .error fault := by
    intro fault hfault
    unfold solve solveWith
    rw [hfault]
    rfl
  have hvalid : settings.validate = .ok () →
      ∃ sol, returned (solve p settings clock) = .ok sol := by
    intro hvalid
    obtain ⟨⟨sol, hsol⟩, -⟩ := search_simplex_succeeds hp.wellFormed hvalid clock
    refine ⟨sol, ?_⟩
    unfold solve solveWith
    rw [hvalid]
    exact hsol
  refine ⟨?_, hinvalid, fun h => ⟨hvalid h, (search_simplex_succeeds hp.wellFormed h clock).2⟩⟩
  intro err
  cases hcheck : settings.validate with
  | error fault =>
    rw [hinvalid fault hcheck]
    constructor
    · intro h
      cases h
      exact ⟨fault, rfl, rfl⟩
    · rintro ⟨_, h, rfl⟩
      cases h
      rfl
  | ok u =>
    obtain ⟨sol, hsol⟩ := hvalid hcheck
    rw [hsol]
    constructor
    · intro h
      cases h
    · rintro ⟨fault, h, -⟩
      cases h

/-- Doubling a variable up to three is solved under hybrid branching; without an interval between
reports it is not started. -/
theorem solve_fails_iff_doubled :
    (∃ sol, returned (solve (doubled 3) (Settings.standard.generalInteger.withRule .hybrid) id)
        = .ok sol) ∧
      returned (solve (doubled 3) { Settings.standard with logInterval := 0 } id)
        = .error (.config .logInterval) := by
  have hvalid : (Settings.standard.generalInteger.withRule .hybrid : Settings ExtRat).validate
      = .ok () := by
    with_unfolding_all rfl
  have hinvalid : ({ Settings.standard with logInterval := 0 } : Settings ExtRat).validate
      = .error .logInterval := by
    with_unfolding_all rfl
  refine ⟨((solve_fails_iff (constructed_doubled 3) _ id).2.2 hvalid).1, ?_⟩
  exact ((solve_fails_iff (constructed_doubled 3) _ id).1 _).mpr ⟨_, hinvalid, rfl⟩

end Search

end BranchBound
