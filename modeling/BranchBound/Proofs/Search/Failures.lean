import BranchBound.Proofs.Search.Reachable

/-!
# Failed visits

A visit can fail at the backend, at the choice of a variable or at a report. What it leaves behind
is the node as it was, or with its optimum recorded but without children, or a visit that was over
already.

* `Fails`, `fails_bind_iff`, …: computations that fail, taken apart as those that succeed are.
* `scoring_of_fails_branch`: branching fails before any child is added.
* `Breaks`, `breaks_of_fails_visit`: what a failed visit leaves behind.
-/

namespace BranchBound

open Relaxation

/-- From state `s` a computation fails with error `e`, leaving state `t`. -/
def Fails {ε σ β : Type} (x : ExceptT ε (StateM σ) β) (s : σ) (e : ε) (t : σ) : Prop :=
  x.run.run s = (.error e, t)

/-! ## The monad -/

section Monad

variable {ε σ β γ : Type} {s t : σ} {e : ε}

/-- The first computation fails, or the second does from where the first ended. -/
theorem fails_bind_iff {x : ExceptT ε (StateM σ) β} {g : β → ExceptT ε (StateM σ) γ} :
    Fails (x >>= g) s e t ↔ Fails x s e t ∨ ∃ b u, Runs x s b u ∧ Fails (g b) u e t := by
  unfold Fails Runs
  rw [run_bind]
  rcases x.run.run s with ⟨d | b, u⟩
  · constructor
    · intro h
      cases h
      exact .inl rfl
    · rintro (h | ⟨_, _, h, -⟩)
      · cases h
        rfl
      · cases h
  · constructor
    · intro h
      exact .inr ⟨b, u, rfl, h⟩
    · rintro (h | ⟨_, _, h, hg⟩)
      · cases h
      · cases h
        exact hg

theorem not_fails_pure {b : β} : ¬ Fails (pure b : ExceptT ε (StateM σ) β) s e t := by
  intro h
  cases h

/-- An error fails at once, with itself. -/
theorem fails_throw_iff {d : ε} :
    Fails (throw d : ExceptT ε (StateM σ) β) s e t ↔ d = e ∧ s = t := by
  constructor
  · intro h
    cases h
    exact ⟨rfl, rfl⟩
  · rintro ⟨rfl, rfl⟩
    rfl

theorem not_fails_get : ¬ Fails (get : ExceptT ε (StateM σ) σ) s e t := by
  intro h
  cases h

theorem not_fails_set {u : σ} : ¬ Fails (set u : ExceptT ε (StateM σ) PUnit) s e t := by
  intro h
  cases h

theorem not_fails_modify {g : σ → σ} : ¬ Fails (modify g : ExceptT ε (StateM σ) PUnit) s e t := by
  intro h
  cases h

/-- Where the first computation cannot fail, the second does. -/
theorem exists_of_fails_bind {x : ExceptT ε (StateM σ) β} {g : β → ExceptT ε (StateM σ) γ}
    (hx : ∀ {s e t}, ¬ Fails x s e t) (h : Fails (x >>= g) s e t) :
    ∃ b u, Runs x s b u ∧ Fails (g b) u e t :=
  (fails_bind_iff.mp h).resolve_left hx

/-- A first step whose result is known leaves the rest to fail. -/
theorem exists_fails_bind {x : ExceptT ε (StateM σ) β} {g : β → ExceptT ε (StateM σ) γ} {b : β}
    {u : σ} (hx : Runs x s b u) (hg : ∃ t, Fails (g b) u e t) : ∃ t, Fails (x >>= g) s e t := by
  obtain ⟨t, ht⟩ := hg
  exact ⟨t, fails_bind_iff.mpr (.inr ⟨b, u, hx, ht⟩)⟩

/-- A function of the value fails only where the value is missing. -/
theorem fails_of_fails_map {x : ExceptT ε (StateM σ) β} {g : β → γ}
    (h : Fails (g <$> x) s e t) : Fails x s e t := by
  rw [map_eq_pure_bind] at h
  rcases fails_bind_iff.mp h with h | ⟨_, _, -, h⟩
  · exact h
  · exact absurd h not_fails_pure

end Monad

namespace Search

variable {σ α : Type} [Scalar α]

/-! ## What a failed visit leaves behind -/

section Parts

variable {β : Type} {ctx : Context σ α} {s t : State σ α} {err : SolveError α}

omit [Scalar α] in
/-- A look-up that finds nothing has not changed the state. -/
theorem eq_of_fails_inRange {index : ℕ} {o : Option β}
    (h : Fails (inRange index o : SearchM σ α β) s err t) : t = s := by
  cases o with
  | none => exact (fails_throw_iff.mp h).2.symm
  | some b => exact absurd h not_fails_pure

omit [Scalar α] in
/-- A scoring computation that fails has changed nothing but scoring. -/
theorem scoring_of_fails_onScoring {act : ScoringM σ α β} (h : Fails (onScoring act) s err t) :
    ∃ scoring, t = { s with scoring } := by
  unfold Fails at h
  rw [run_onScoring] at h
  exact ⟨_, (Prod.mk.inj h).2.symm⟩

omit [Scalar α] in
theorem not_fails_note {n : Note α} : ¬ Fails (note n : SearchM σ α Unit) s err t :=
  not_fails_modify

/-- Notes on a node that is fathomed never fail. -/
theorem not_fails_noteFathomed {id depth : ℕ} {status : NodeStatus} {relax : α} :
    ¬ Fails (noteFathomed ctx id depth status relax) s err t := by
  have hearly : ∀ {u v : State σ α} {hasPoint : Bool}, ¬ Fails (if hasPoint then pure ()
      else note (.fathomedEarly id) : SearchM σ α Unit) u err v := by
    intro u v hasPoint h
    cases hasPoint with
    | true => exact not_fails_pure h
    | false => exact not_fails_note h
  intro h
  unfold noteFathomed at h
  split at h
  · obtain ⟨u, _, -, h⟩ := exists_of_fails_bind not_fails_get h
    dsimp only at h
    split at h
    · obtain ⟨_, _, -, h⟩ := exists_of_fails_bind not_fails_note h
      exact hearly h
    · obtain ⟨_, _, -, h⟩ := exists_of_fails_bind not_fails_note h
      exact hearly h
  · exact not_fails_pure h

/-- A report fails only where there is no interval between reports. -/
theorem eq_of_fails_reportProgress (h : Fails (reportProgress ctx) s err t) :
    err = .zeroLogInterval ∧ t = s := by
  have hreport : ∀ {u v : State σ α} {n : Note α} {c : Prop} [Decidable c],
      ¬ Fails (if c then note n else pure () : SearchM σ α Unit) u err v := by
    intro u v n c _ h
    split at h
    · exact not_fails_note h
    · exact not_fails_pure h
  unfold reportProgress at h
  split at h
  · obtain ⟨u, _, hget, h⟩ := exists_of_fails_bind not_fails_get h
    obtain ⟨rfl, rfl⟩ := runs_get_iff.mp hget
    by_cases hbegun : s.processed ≠ 0
    · rw [if_pos hbegun] at h
      by_cases hzero : ctx.settings.logInterval = 0
      · rw [if_pos hzero] at h
        rcases fails_bind_iff.mp h with h | ⟨_, _, h, -⟩
        · obtain ⟨rfl, rfl⟩ := fails_throw_iff.mp h
          exact ⟨rfl, rfl⟩
        · exact absurd h not_runs_throw
      · rw [if_neg hzero] at h
        exact absurd h hreport
    · rw [if_neg hbegun] at h
      exact absurd h not_fails_pure
  · exact absurd h not_fails_pure

/-- Branching fails before any child is added. -/
theorem scoring_of_fails_branch {id : ℕ} {node : NodePoint α} {bound : α}
    (h : Fails (branch ctx id node bound) s err t) : ∃ scoring, t = { s with scoring } := by
  unfold branch at h
  rcases fails_bind_iff.mp h with h | ⟨choice, u, hscoring, h⟩
  · exact scoring_of_fails_onScoring h
  obtain ⟨chosen, -, rfl⟩ := scoring_of_runs_onScoring hscoring
  cases choice with
  | none => exact ⟨chosen, (fails_throw_iff.mp h).2.symm⟩
  | some c =>
    obtain ⟨_, _, hnote, h⟩ := exists_of_fails_bind not_fails_note h
    cases runs_note_iff.mp hnote
    obtain ⟨_, _, hget, h⟩ := exists_of_fails_bind not_fails_get h
    obtain ⟨rfl, rfl⟩ := runs_get_iff.mp hget
    rcases fails_bind_iff.mp h with h | ⟨_, _, hrange, h⟩
    · exact ⟨_, eq_of_fails_inRange h⟩
    obtain ⟨-, rfl⟩ := runs_inRange_iff.mp hrange
    rcases fails_bind_iff.mp h with h | ⟨_, _, hrange, h⟩
    · exact ⟨_, eq_of_fails_inRange h⟩
    obtain ⟨-, rfl⟩ := runs_inRange_iff.mp hrange
    rcases fails_bind_iff.mp h with h | ⟨_, _, hrange, h⟩
    · exact ⟨_, eq_of_fails_inRange h⟩
    exact absurd h not_fails_set

end Parts

/-- What a visit of node `id` that fails with an error leaves behind. -/
inductive Breaks (ctx : Context σ α) (id : ℕ) (inherited : α) (s : State σ α) :
    SolveError α → State σ α → Prop
  /-- There is no such node. -/
  | missing (hnode : s.tree.get? id = none) : Breaks ctx id inherited s (.outOfRange id) s
  /-- Nothing became known about the node, though its bound had not closed it. -/
  | unsolved {node : Node α} (hnode : s.tree.get? id = some node) (err : SolveError α)
      (scoring : Scoring σ α) (hopen : ctx.closedBy s.incumbent.objective node.bound = false) :
      Breaks ctx id inherited s err { s.enter node.depth with scoring }
  /-- The optimum of the node was recorded, and no variable to branch on was found. -/
  | unbranched {node : Node α} {box : Box α} {a : Answer α} {scoring learned : Scoring σ α}
      (hasked : Asked ctx id s node box a scoring) (hoptimal : a.isOptimal = true)
      (hlearns : Learns node a.objective scoring learned) (infeasibility : Infeasibility α)
      (err : SolveError α) (last : Scoring σ α) :
      Breaks ctx id inherited s err
        { (s.solved node learned).record id node.depth .candidate a.objective
            (some infeasibility) with scoring := last }
  /-- The visit was over, and its report failed. -/
  | unreported {t : State σ α} (hvisits : Visits ctx id inherited s t) :
      Breaks ctx id inherited s .zeroLogInterval t

section Inversion

variable {ctx : Context σ α} {id : ℕ} {inherited : α} {s t : State σ α} {err : SolveError α}

/-- Once there is an optimum, a visit fails in learning from it, in looking its point over, or in
branching. -/
theorem breaks_of_fails_settle {node : Node α} {box : Box α} {a : Answer α} {scoring : Scoring σ α}
    (h : Fails (settle ctx id node box a) (s.solved node scoring) err t)
    (hasked : Asked ctx id s node box a scoring) (hoptimal : a.isOptimal = true) :
    Breaks ctx id inherited s err t := by
  have hunsolved : ∀ {sc : Scoring σ α}, t = s.solved node sc →
      Breaks ctx id inherited s err t := by
    rintro sc rfl
    exact .unsolved hasked.get? err sc hasked.not_closed
  unfold settle at h
  extract_lets relax rest at h
  -- learning fails, or the rest does after it
  have hrest : Breaks ctx id inherited s err t ∨
      ∃ learned, Learns node a.objective scoring learned ∧
        Fails (rest ()) (s.solved node learned) err t := by
    unfold Learns
    cases hbranch : node.branch with
    | none =>
      rw [hbranch] at h
      exact .inr ⟨scoring, rfl, h⟩
    | some branch =>
      rw [hbranch] at h
      rcases fails_bind_iff.mp h with h | ⟨_, _, hscoring, h⟩
      · obtain ⟨sc, rfl⟩ := scoring_of_fails_onScoring h
        exact .inl (hunsolved rfl)
      · obtain ⟨learned, hlearn, rfl⟩ := scoring_of_runs_onScoring hscoring
        exact .inr ⟨learned, hlearn, h⟩
  clear h
  obtain hbreaks | ⟨learned, hlearns, h⟩ := hrest
  · exact hbreaks
  simp only [rest] at h
  rcases fails_bind_iff.mp h with h | ⟨integer, _, hcheck, h⟩
  · exact hunsolved (eq_of_fails_inRange h)
  obtain ⟨-, rfl⟩ := runs_inRange_iff.mp hcheck
  obtain ⟨_, _, hget, h⟩ := exists_of_fails_bind not_fails_get h
  obtain ⟨rfl, rfl⟩ := runs_get_iff.mp hget
  obtain ⟨_, u, hnote, h⟩ := exists_of_fails_bind not_fails_noteFathomed h
  obtain ⟨noted, rfl⟩ := onlyNotes_noteFathomed _ _ _ _ _ _ _ _ hnote
  cases integer with
  | true =>
    simp only [if_true] at h
    obtain ⟨_, _, -, h⟩ := exists_of_fails_bind not_fails_pure h
    obtain ⟨_, _, -, h⟩ := exists_of_fails_bind not_fails_modify h
    obtain ⟨_, _, -, h⟩ := exists_of_fails_bind not_fails_modify h
    rw [if_neg (show ctx.classify true _ _ _ ≠ .candidate from NodeStatus.noConfusion)] at h
    exact absurd h not_fails_pure
  | false =>
    simp only [Bool.false_eq_true, if_false] at h
    rcases fails_bind_iff.mp h with h | ⟨_, _, hcount, h⟩
    · exact hunsolved (eq_of_fails_inRange (fails_of_fails_map h))
    obtain ⟨infeasibility, hrange, rfl⟩ := runs_map_iff.mp hcount
    obtain ⟨-, rfl⟩ := runs_inRange_iff.mp hrange
    obtain ⟨_, _, hrecord, h⟩ := exists_of_fails_bind not_fails_modify h
    cases runs_modify_iff.mp hrecord
    split at h
    · rename_i hstatus
      rw [hstatus] at h
      obtain ⟨_, _, hget, h⟩ := exists_of_fails_bind not_fails_get h
      obtain ⟨rfl, rfl⟩ := runs_get_iff.mp hget
      obtain ⟨last, rfl⟩ := scoring_of_fails_branch h
      exact .unbranched hasked hoptimal hlearns infeasibility err last
    · exact absurd h not_fails_pure

/-- A visit that its bound has not closed fails for want of an answer, after it, or by its report.
-/
theorem breaks_of_fails_expand {node : Node α} (hnode : s.tree.get? id = some node)
    (hclosed : ctx.closedBy s.incumbent.objective node.bound = false)
    (h : Fails (expand ctx id node) s err t) : Breaks ctx id inherited s err t := by
  unfold expand at h
  obtain ⟨_, _, henter, h⟩ := exists_of_fails_bind not_fails_modify h
  cases runs_modify_iff.mp henter
  obtain ⟨_, _, hget, h⟩ := exists_of_fails_bind not_fails_get h
  obtain ⟨rfl, rfl⟩ := runs_get_iff.mp hget
  rcases fails_bind_iff.mp h with h | ⟨box, _, hrange, h⟩
  · rw [eq_of_fails_inRange h]
    exact .unsolved hnode err s.scoring hclosed
  obtain ⟨hbox, rfl⟩ := runs_inRange_iff.mp hrange
  rcases fails_bind_iff.mp h with h | ⟨a, _, hscoring, h⟩
  · obtain ⟨scoring, rfl⟩ := scoring_of_fails_onScoring h
    exact .unsolved hnode err scoring hclosed
  obtain ⟨scoring, hask, rfl⟩ := scoring_of_runs_onScoring hscoring
  have hasked : Asked ctx id s node box a scoring := ⟨hnode, hclosed, hbox, hask⟩
  cases hoptimal : a.isOptimal with
  | true =>
    rw [hoptimal, if_pos rfl] at h
    rcases fails_bind_iff.mp h with h | ⟨_, u, hsettle, h⟩
    · exact breaks_of_fails_settle h hasked hoptimal
    · obtain ⟨rfl, rfl⟩ := eq_of_fails_reportProgress h
      exact .unreported (visits_of_runs_settle hsettle hasked hoptimal t.scoring.journal)
  | false =>
    rw [hoptimal, if_neg Bool.false_ne_true] at h
    obtain ⟨_, u, hclose, h⟩ := exists_of_fails_bind not_fails_modify h
    cases runs_modify_iff.mp hclose
    obtain ⟨rfl, rfl⟩ := eq_of_fails_reportProgress h
    exact .unreported (.infeasible hasked hoptimal _)

/-- Every failed visit leaves one of four things behind. -/
theorem breaks_of_fails_visit (h : Fails (visit ctx id inherited) s err t) :
    Breaks ctx id inherited s err t := by
  unfold visit at h
  obtain ⟨_, _, hget, h⟩ := exists_of_fails_bind not_fails_get h
  obtain ⟨rfl, rfl⟩ := runs_get_iff.mp hget
  cases hnode : s.tree.get? id with
  | none =>
    rw [hnode] at h
    rcases fails_bind_iff.mp h with h | ⟨_, _, hrange, -⟩
    · obtain ⟨rfl, rfl⟩ := fails_throw_iff.mp h
      exact .missing hnode
    · exact absurd hrange not_runs_throw
  | some node =>
    rw [hnode] at h
    obtain ⟨_, _, hrange, h⟩ := exists_of_fails_bind not_fails_pure h
    obtain ⟨rfl, rfl⟩ := runs_pure_iff.mp hrange
    split at h
    · exact absurd h not_fails_modify
    · rename_i hopen
      exact breaks_of_fails_expand hnode (eq_false_of_ne_true hopen) h

end Inversion

end Search

end BranchBound
