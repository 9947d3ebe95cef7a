import Mathlib.Data.List.Forall2
import BranchBound.Search.Visit

/-!
# Successful runs of search computations

A computation of a search either succeeds with a value or fails, and changes a state in both cases.
`Runs` is the first of the two. Each way of building a computation has one lemma that says when it
succeeds, and these take a computation apart from the outside in.

* `runs_bind_iff`, `runs_pure_iff`, …: the monad.
* `Oracle.outcome_call`, `Oracle.backend_resolve`, …: what an oracle makes of a request.
* `Scoring.runs_inRange_iff`, `Search.scoring_of_runs_onScoring`, …: the operations of scoring and
  search.
* `Maintains`: what a computation leaves true if it succeeds.
-/

namespace BranchBound

open Relaxation

/-- From state `s` a computation succeeds with value `b`, leaving state `t`. -/
def Runs {ε σ β : Type} (x : ExceptT ε (StateM σ) β) (s : σ) (b : β) (t : σ) : Prop :=
  x.run.run s = (.ok b, t)

/-! ## The monad -/

section Monad

variable {ε σ β γ : Type} {s t : σ}

/-- What comes second runs from where the first ended, unless that failed. -/
theorem run_bind (x : ExceptT ε (StateM σ) β) (g : β → ExceptT ε (StateM σ) γ) (s : σ) :
    (x >>= g).run.run s = match x.run.run s with
      | (.ok b, u) => (g b).run.run u
      | (.error e, u) => (.error e, u) := by
  rw [ExceptT.run_bind, StateT.run_bind]
  rcases x.run.run s with ⟨_ | _, _⟩ <;> rfl

theorem run_get (s : σ) : (get : ExceptT ε (StateM σ) σ).run.run s = (.ok s, s) :=
  rfl

/-- A run of two steps is a run of the first, and one of the second from where that ends. -/
theorem runs_bind_iff {x : ExceptT ε (StateM σ) β} {g : β → ExceptT ε (StateM σ) γ} {c : γ} :
    Runs (x >>= g) s c t ↔ ∃ b u, Runs x s b u ∧ Runs (g b) u c t := by
  unfold Runs
  rw [run_bind]
  rcases x.run.run s with ⟨e | b, u⟩
  · constructor
    · intro h
      cases h
    · rintro ⟨_, _, h, _⟩
      cases h
  · constructor
    · intro h
      exact ⟨b, u, rfl, h⟩
    · rintro ⟨_, _, h, hg⟩
      cases h
      exact hg

/-- What the second part can do from where the first ended, both can do together. -/
theorem exists_runs_bind_of {x : ExceptT ε (StateM σ) β} {g : β → ExceptT ε (StateM σ) γ}
    {T : γ → σ → Prop} {u : σ} {b : β} (hx : Runs x s b u)
    (hg : ∃ c t, Runs (g b) u c t ∧ T c t) : ∃ c t, Runs (x >>= g) s c t ∧ T c t := by
  obtain ⟨c, t, hrun, hT⟩ := hg
  exact ⟨c, t, runs_bind_iff.mpr ⟨b, u, hx, hrun⟩, hT⟩

/-- A value alone leaves the state as it is. -/
theorem runs_pure_iff {b c : β} :
    Runs (pure b : ExceptT ε (StateM σ) β) s c t ↔ b = c ∧ s = t := by
  constructor
  · intro h
    cases h
    exact ⟨rfl, rfl⟩
  · rintro ⟨rfl, rfl⟩
    rfl

/-- An error is no run. -/
theorem not_runs_throw {e : ε} {b : β} : ¬ Runs (throw e : ExceptT ε (StateM σ) β) s b t := by
  intro h
  cases h

theorem runs_get_iff {b : σ} : Runs (get : ExceptT ε (StateM σ) σ) s b t ↔ s = b ∧ s = t := by
  constructor
  · intro h
    cases h
    exact ⟨rfl, rfl⟩
  · rintro ⟨rfl, rfl⟩
    rfl

theorem runs_set_iff {u : σ} {b : PUnit} :
    Runs (set u : ExceptT ε (StateM σ) PUnit) s b t ↔ u = t := by
  constructor
  · intro h
    cases h
    rfl
  · rintro rfl
    rfl

theorem runs_modify_iff {g : σ → σ} {b : PUnit} :
    Runs (modify g : ExceptT ε (StateM σ) PUnit) s b t ↔ g s = t := by
  constructor
  · intro h
    cases h
    rfl
  · rintro rfl
    rfl

/-- A function of the value changes nothing else. -/
theorem runs_map_iff {x : ExceptT ε (StateM σ) β} {g : β → γ} {c : γ} :
    Runs (g <$> x) s c t ↔ ∃ b, Runs x s b t ∧ g b = c := by
  rw [map_eq_pure_bind, runs_bind_iff]
  constructor
  · rintro ⟨b, u, hx, hpure⟩
    obtain ⟨rfl, rfl⟩ := runs_pure_iff.mp hpure
    exact ⟨b, hx, rfl⟩
  · rintro ⟨b, hx, rfl⟩
    exact ⟨b, t, hx, runs_pure_iff.mpr ⟨rfl, rfl⟩⟩

/-- Where every computation of a list succeeds, the values correspond to its elements. -/
theorem forall₂_of_runs_mapM {R : β → γ → Prop} {g : β → ExceptT ε (StateM σ) γ}
    (hR : ∀ b s c t, Runs (g b) s c t → R b c) {l : List β} {cs : List γ}
    (h : Runs (l.mapM g) s cs t) : List.Forall₂ R l cs := by
  induction l generalizing s cs t with
  | nil =>
    rw [List.mapM_nil, runs_pure_iff] at h
    rw [← h.1]
    exact List.Forall₂.nil
  | cons b l ih =>
    rw [List.mapM_cons, runs_bind_iff] at h
    obtain ⟨c, u, hb, h⟩ := h
    obtain ⟨cs', v, hl, h⟩ := runs_bind_iff.mp h
    rw [← (runs_pure_iff.mp h).1]
    exact List.Forall₂.cons (hR b _ _ _ hb) (ih hl)

/-- Where every computation of a list can succeed and leave the state as it is, all of them together
can. -/
theorem exists_runs_mapM {R : β → γ → Prop} {g : β → ExceptT ε (StateM σ) γ} {l : List β}
    (hg : ∀ b ∈ l, ∃ c, Runs (g b) s c s ∧ R b c) :
    ∃ cs, Runs (l.mapM g) s cs s ∧ List.Forall₂ R l cs := by
  induction l with
  | nil =>
    rw [List.mapM_nil]
    exact ⟨[], runs_pure_iff.mpr ⟨rfl, rfl⟩, .nil⟩
  | cons b l ih =>
    obtain ⟨⟨c, hc, hR⟩, hl⟩ := List.forall_mem_cons.mp hg
    obtain ⟨cs, hcs, hRs⟩ := ih hl
    rw [List.mapM_cons]
    refine ⟨c :: cs, runs_bind_iff.mpr ⟨c, s, hc, ?_⟩, .cons hR hRs⟩
    exact runs_bind_iff.mpr ⟨cs, s, hcs, runs_pure_iff.mpr ⟨rfl, rfl⟩⟩

/-- Where no computation of a list changes the state, all of them together do not. -/
theorem eq_of_runs_mapM {g : β → ExceptT ε (StateM σ) γ}
    (hg : ∀ b s c t, Runs (g b) s c t → t = s) {l : List β} {cs : List γ}
    (h : Runs (l.mapM g) s cs t) : t = s := by
  induction l generalizing s cs t with
  | nil =>
    rw [List.mapM_nil, runs_pure_iff] at h
    exact h.2.symm
  | cons b l ih =>
    rw [List.mapM_cons, runs_bind_iff] at h
    obtain ⟨c, u, hb, h⟩ := h
    obtain ⟨cs', v, hl, h⟩ := runs_bind_iff.mp h
    rw [← (runs_pure_iff.mp h).2, ih hl, hg b _ _ _ hb]

end Monad

/-! ## Requests of an oracle -/

namespace Relaxation.Oracle

variable {σ α : Type} {B : Backend σ α} {p : Problem α} {box : Box α} {cap : Option ℕ}
  {o : Oracle σ} {a : Answer α}

/-- An answer of the right shape is handed on. -/
theorem outcome_call (h : (B.solve p box cap o.backend).1.outcome = .ok a)
    (ha : wellFormed p a = true) : (call B p box cap o).1.outcome = .ok a := by
  unfold call
  dsimp only
  rw [h]
  dsimp only
  rw [if_pos ha]

/-- A request moves the backend on, whatever becomes of its answer. -/
theorem backend_call (B : Backend σ α) (p : Problem α) (box : Box α) (cap : Option ℕ)
    (o : Oracle σ) : (call B p box cap o).2.backend = (B.solve p box cap o.backend).2 := by
  unfold call
  dsimp only
  split
  · rfl
  · split <;> rfl

theorem backend_countIf (counts : Answer α → Bool) (reply : Reply α) (o : Oracle σ) :
    (countIf counts reply o).backend = o.backend := by
  unfold countIf
  split
  · split <;> rfl
  · rfl

/-- The request for a score is put to the backend once. -/
theorem backend_resolve (B : Backend σ α) (p : Problem α) (box : Box α) (cap : ℕ) (o : Oracle σ) :
    (resolve B p box cap o).2.backend = (B.solve p box (some (max cap 1)) o.backend).2 :=
  (backend_countIf _ _ _).trans (backend_call _ _ _ _ _)

end Relaxation.Oracle

/-! ## Operations of scoring and search -/

namespace Scoring

variable {σ α β : Type} {s t : Scoring σ α}

/-- A look-up runs only where it finds something. -/
theorem runs_inRange_iff {index : ℕ} {o : Option β} {b : β} :
    Runs (inRange index o : ScoringM σ α β) s b t ↔ o = some b ∧ s = t := by
  cases o with
  | none =>
    exact ⟨fun h => absurd h not_runs_throw, fun h => absurd h.1.symm (Option.some_ne_none b)⟩
  | some c =>
    rw [inRange, runs_pure_iff, Option.some.injEq]

/-- A request changes the oracle and adds to the journal, whatever its outcome. -/
theorem run_ask (request : Oracle σ → Reply α × Oracle σ) (s : Scoring σ α) :
    (ask request).run.run s = ((request s.oracle).1.outcome,
      { s with
        oracle := (request s.oracle).2
        journal := s.journal ++ (request s.oracle).1.notes.toArray }) := by
  rw [ask, run_bind, run_get]
  dsimp only
  rcases request s.oracle with ⟨⟨_ | _, notes⟩, oracle⟩ <;> rfl

/-- A successful request was answered by the oracle. -/
theorem outcome_of_runs_ask {request : Oracle σ → Reply α × Oracle σ} {a : Answer α}
    (h : Runs (ask request) s a t) : (request s.oracle).1.outcome = .ok a := by
  unfold Runs at h
  rw [run_ask] at h
  exact (Prod.mk.inj h).1

/-- A request changes the oracle and the journal. -/
theorem eq_of_runs_ask {request : Oracle σ → Reply α × Oracle σ} {a : Answer α}
    (h : Runs (ask request) s a t) :
    t = { s with oracle := (request s.oracle).2, journal := t.journal } := by
  unfold Runs at h
  rw [run_ask] at h
  obtain rfl := (Prod.mk.inj h).2
  rfl

/-- What is learned goes into the pseudocosts. -/
theorem update?_of_runs_learn [Scalar α] {branch : Branch α} {parent child : α} {b : Unit}
    (h : Runs (learn branch parent child) s b t) :
    ∃ changed, s.table.update? branch parent child = some (t.table, changed) := by
  unfold learn at h
  obtain ⟨_, _, hget, h⟩ := runs_bind_iff.mp h
  obtain ⟨rfl, rfl⟩ := runs_get_iff.mp hget
  obtain ⟨⟨table, changed⟩, _, hrange, h⟩ := runs_bind_iff.mp h
  obtain ⟨hupdate, rfl⟩ := runs_inRange_iff.mp hrange
  obtain ⟨_, _, hset, h⟩ := runs_bind_iff.mp h
  cases runs_set_iff.mp hset
  refine ⟨changed, ?_⟩
  cases changed with
  | none =>
    obtain ⟨-, rfl⟩ := runs_pure_iff.mp h
    exact hupdate
  | some entry =>
    cases runs_modify_iff.mp h
    exact hupdate

/-- Learning changes the pseudocosts and adds to the journal. -/
theorem eq_of_runs_learn [Scalar α] {branch : Branch α} {parent child : α} {b : Unit}
    (h : Runs (learn branch parent child) s b t) :
    t = { s with table := t.table, journal := t.journal } := by
  unfold learn at h
  obtain ⟨_, _, hget, h⟩ := runs_bind_iff.mp h
  obtain ⟨rfl, rfl⟩ := runs_get_iff.mp hget
  obtain ⟨⟨table, changed⟩, _, hrange, h⟩ := runs_bind_iff.mp h
  obtain ⟨-, rfl⟩ := runs_inRange_iff.mp hrange
  obtain ⟨_, _, hset, h⟩ := runs_bind_iff.mp h
  cases runs_set_iff.mp hset
  cases changed with
  | none =>
    obtain ⟨-, rfl⟩ := runs_pure_iff.mp h
    rfl
  | some entry =>
    cases runs_modify_iff.mp h
    rfl

end Scoring

namespace Search

variable {σ α β : Type} {s t : State σ α}

theorem runs_inRange_iff {index : ℕ} {o : Option β} {b : β} :
    Runs (inRange index o : SearchM σ α β) s b t ↔ o = some b ∧ s = t := by
  cases o with
  | none =>
    exact ⟨fun h => absurd h not_runs_throw, fun h => absurd h.1.symm (Option.some_ne_none b)⟩
  | some c =>
    rw [inRange, runs_pure_iff, Option.some.injEq]

theorem runs_note_iff {n : Note α} {b : PUnit} :
    Runs (note n : SearchM σ α PUnit) s b t ↔ s.note n = t :=
  runs_modify_iff

/-- A computation on scoring changes nothing else, whatever its result. -/
theorem run_onScoring (act : ScoringM σ α β) (s : State σ α) :
    (onScoring act).run.run s
      = ((act.run.run s.scoring).1, { s with scoring := (act.run.run s.scoring).2 }) := by
  rw [onScoring, run_bind, run_get]
  dsimp only
  rcases act.run.run s.scoring with ⟨_ | _, scoring⟩ <;> rfl

/-- A scoring computation changes nothing but scoring. -/
theorem scoring_of_runs_onScoring {act : ScoringM σ α β} {b : β} (h : Runs (onScoring act) s b t) :
    ∃ scoring, Runs act s.scoring b scoring ∧ t = { s with scoring := scoring } := by
  unfold Runs at h
  rw [run_onScoring] at h
  obtain ⟨hresult, rfl⟩ := Prod.mk.inj h
  exact ⟨_, Prod.ext hresult rfl, rfl⟩

end Search

/-! ## Invariants of computations -/

/-- Whatever a computation gives, it leaves a property of states true. -/
def Maintains {ε σ β : Type} (I : σ → Prop) (x : ExceptT ε (StateM σ) β) : Prop :=
  ∀ s b t, Runs x s b t → I s → I t

section Maintains

variable {ε σ β γ : Type} {I : σ → Prop} {x y : ExceptT ε (StateM σ) β}

theorem maintains_pure (b : β) : Maintains I (pure b : ExceptT ε (StateM σ) β) := by
  intro s c t h hs
  rw [← (runs_pure_iff.mp h).2]
  exact hs

/-- An invariant that two steps maintain is maintained by one after the other. -/
theorem maintains_bind {g : β → ExceptT ε (StateM σ) γ} (hx : Maintains I x)
    (hg : ∀ b, Maintains I (g b)) : Maintains I (x >>= g) := by
  intro s c t h hs
  obtain ⟨b, u, hb, hc⟩ := runs_bind_iff.mp h
  exact hg b u c t hc (hx s b u hb hs)

theorem maintains_get : Maintains I (get : ExceptT ε (StateM σ) σ) := by
  intro s b t h hs
  rw [← (runs_get_iff.mp h).2]
  exact hs

theorem maintains_ite {c : Prop} [Decidable c] (hx : Maintains I x) (hy : Maintains I y) :
    Maintains I (if c then x else y) := by
  split
  · exact hx
  · exact hy

end Maintains

namespace Scoring

variable {σ α β : Type} {I : Scoring σ α → Prop}

theorem maintains_inRange (index : ℕ) (o : Option β) :
    Maintains I (inRange index o : ScoringM σ α β) := by
  intro s b t h hs
  rw [← (runs_inRange_iff.mp h).2]
  exact hs

/-- What follows a look-up may rely on what was found. -/
theorem maintains_inRange_bind {γ : Type} {index : ℕ} {o : Option β} {g : β → ScoringM σ α γ}
    (hg : ∀ b, o = some b → Maintains I (g b)) : Maintains I (inRange index o >>= g) := by
  intro s c t h hs
  obtain ⟨b, u, hb, hc⟩ := runs_bind_iff.mp h
  obtain ⟨ho, rfl⟩ := runs_inRange_iff.mp hb
  exact hg b ho s c t hc hs

/-- Making candidates of fractional variables does not touch the state. -/
theorem maintains_scored (scored : ℕ × α → Option (Candidate α)) (fs : List (ℕ × α)) :
    Maintains I (fs.mapM fun f => (inRange f.1 (scored f) : ScoringM σ α _)) := by
  intro s cs t h hs
  rw [eq_of_runs_mapM (fun _ _ _ _ hf => (runs_inRange_iff.mp hf).2.symm) h]
  exact hs

end Scoring

end BranchBound
