import BranchBound.Proofs.Relaxation.Capped
import BranchBound.Proofs.Search.Accounting
import BranchBound.Proofs.Search.HybridExact

/-!
# What reliability branching does

Candidates are ranked by the blends of their predicted losses, and walked in that order. The walk
ends as soon as a number of candidates in a row failed to raise the best score; both children of a
candidate with few observations are solved on the way. Each child that is solved changes pseudocosts
of its own variable alone, and no variable is walked twice, so predictions read on the way are those
of the table at entry.

* `PseudocostTable.SameOff`: tables that differ in the entries of some variables only.
* `Stop`, `Stop.score`: a candidate that the walk has reached, and its score from the answers for
  its children.
* `tally`, `Stalled`, `stalled_iff`: when the walk ends.
* `exists_runs_measureChild`, `exists_runs_walkedScore`, `exists_runs_walk`: a child, a candidate,
  all candidates.
* `selectReliability_spec`: reliability branching meets its definition.
-/

namespace BranchBound

open Relaxation

variable {σ α : Type}

/-! ## Changes of pseudocosts -/

namespace PseudocostTable

variable {t u v : PseudocostTable α} {vars vars' : List ℕ} {var : ℕ}

/-- The second table has as many entries as the first, and the same ones but for some variables. -/
structure SameOff (vars : List ℕ) (t u : PseudocostTable α) : Prop where
  length : ∀ sense, (u.side sense).length = (t.side sense).length
  entry : ∀ sense, ∀ var ∉ vars, (u.side sense)[var]? = (t.side sense)[var]?

theorem SameOff.refl (vars : List ℕ) (t : PseudocostTable α) : t.SameOff vars t :=
  ⟨fun _ => rfl, fun _ _ _ => rfl⟩

/-- Changes at some variables after changes at others are changes at all of them. -/
theorem SameOff.trans (h : t.SameOff vars u) (h' : u.SameOff vars' v) :
    t.SameOff (vars ++ vars') v where
  length sense := (h'.length sense).trans (h.length sense)
  entry sense var hvar := by
    rw [List.mem_append, not_or] at hvar
    exact (h'.entry sense var hvar.2).trans (h.entry sense var hvar.1)

theorem SameOff.mono (h : t.SameOff vars u) (hvars : vars ⊆ vars') : t.SameOff vars' u :=
  ⟨h.length, fun sense var hvar => h.entry sense var fun hmem => hvar (hvars hmem)⟩

/-- Predictions for other variables stay as they are. -/
theorem SameOff.gains?_eq [Scalar α] (h : t.SameOff vars u) (hvar : var ∉ vars) (value : α) :
    u.gains? var value = t.gains? var value := by
  have hdown : u.down[var]? = t.down[var]? := h.entry .down var hvar
  have hup : u.up[var]? = t.up[var]? := h.entry .up var hvar
  unfold gains?
  rw [hdown, hup]

/-- So does whether other variables are reliable. -/
theorem SameOff.isReliable?_eq (h : t.SameOff vars u) (hvar : var ∉ vars) (minSamples : ℕ) :
    u.isReliable? var minSamples = t.isReliable? var minSamples := by
  have hdown : u.down[var]? = t.down[var]? := h.entry .down var hvar
  have hup : u.up[var]? = t.up[var]? := h.entry .up var hvar
  unfold isReliable?
  rw [hdown, hup]

theorem sameOff_set (t : PseudocostTable α) (sense : Sense) (var : ℕ) (entry : Pseudocost α) :
    t.SameOff [var] (t.set sense var entry) := by
  have hset : ∀ l : List (Pseudocost α), ∀ j ∉ [var], (l.set var entry)[j]? = l[j]? := by
    intro l j hj
    exact List.getElem?_set_ne fun heq => hj (List.mem_singleton.mpr heq.symm)
  constructor
  · intro side
    cases sense <;> cases side <;> simp [set, PseudocostTable.side]
  · intro side j hj
    cases sense <;> cases side <;> first | rfl | exact hset _ j hj

/-- An observation of a variable with entries changes no entry of another one. -/
theorem exists_update? [Scalar α] {b : Branch α} (hvar : ∀ sense, b.var < (t.side sense).length)
    (parent child : α) :
    ∃ updated, t.update? b parent child = some updated ∧ t.SameOff [b.var] updated.1 := by
  unfold update?
  split
  · rw [List.getElem?_eq_getElem (hvar b.sense)]
    exact ⟨_, rfl, sameOff_set _ _ _ _⟩
  · exact ⟨_, rfl, .refl _ _⟩

theorem exists_gains? [Scalar α] (hvar : ∀ sense, var < (t.side sense).length) (value : α) :
    ∃ down up, t.gains? var value = some (down, up) := by
  have hdown : var < t.down.length := hvar .down
  have hup : var < t.up.length := hvar .up
  unfold gains?
  rw [List.getElem?_eq_getElem hdown, List.getElem?_eq_getElem hup]
  exact ⟨_, _, rfl⟩

theorem exists_isReliable? (hvar : ∀ sense, var < (t.side sense).length) (minSamples : ℕ) :
    ∃ reliable, t.isReliable? var minSamples = some reliable := by
  have hdown : var < t.down.length := hvar .down
  have hup : var < t.up.length := hvar .up
  unfold isReliable?
  rw [List.getElem?_eq_getElem hdown, List.getElem?_eq_getElem hup]
  exact ⟨_, rfl⟩

end PseudocostTable

/-! ## Backends that answer -/

/-- Every request in a box within a limit is answered, with a value for every variable where there
is a bound; a property of the backend's states is kept by that. -/
def Relaxation.Backend.AnswersIn (B : Backend σ α) (p : Problem α) (P : σ → Prop) (cap : ℕ)
    (box : Box α) : Prop :=
  ∀ b, P b → ∃ a, (B.solve p box (some cap) b).1.outcome = .ok a ∧ Oracle.wellFormed p a = true ∧
    P (B.solve p box (some cap) b).2

namespace Scoring

/-- A variable with pseudocosts, both of whose children lead to boxes where the backend answers. -/
structure Solvable [Scalar α] (B : Backend σ α) (p : Problem α) (P : σ → Prop) (node : NodePoint α)
    (cap : ℕ) (t : PseudocostTable α) (f : ℕ × α) : Prop where
  entry : ∀ sense, f.1 < (t.side sense).length
  down : ∃ box, (Branch.down f.1 f.2).restrict? node.box = some box ∧
    B.AnswersIn p P (max cap 1) box
  up : ∃ box, (Branch.up f.1 f.2).restrict? node.box = some box ∧ B.AnswersIn p P (max cap 1) box

/-- The same scoring over a backend that writes down its requests. -/
def transcribed (s : Scoring σ α) : Scoring (σ × List (Exchange α)) α :=
  { s with oracle := { s.oracle with backend := (s.oracle.backend, []) } }

/-- Writing down requests changes nothing else: a run that does so is one that does not. -/
theorem exists_runs_of_transcribed {β : Type} {x : ScoringM (σ × List (Exchange α)) α β}
    {y : ScoringM σ α β} (hxy : Coupled (Alike fun b c => b.1 = c) x y) {s : Scoring σ α} {b : β}
    {u : Scoring (σ × List (Exchange α)) α} (h : Runs x s.transcribed b u) :
    ∃ t, Runs y s b t ∧ u.Alike (fun b c => b.1 = c) t := by
  have hstart : s.transcribed.Alike (fun b c => b.1 = c) s :=
    ⟨rfl, rfl, rfl, rfl, rfl, rfl, rfl, rfl⟩
  obtain ⟨hresult, hafter⟩ := hxy _ _ hstart
  unfold Runs at h
  rw [h] at hresult hafter
  exact ⟨_, Prod.ext hresult.symm rfl, hafter⟩

/-! ## Stops of a walk -/

/-- The solve of a child within a limit. -/
structure Probe (α : Type) where
  box : Box α
  answer : Answer α

/-- What is written down about it. -/
def Probe.exchange (cap : ℕ) (probe : Probe α) : Exchange α :=
  ⟨probe.box, some (max cap 1), .ok probe.answer⟩

/-- The loss it shows; where there is no bound, the predicted loss stays. -/
def Probe.loss [Scalar α] (relax predicted : α) (probe : Probe α) : α :=
  if probe.answer.status = .infeasible then predicted else relax - probe.answer.objective

/-- A candidate that a walk has reached, with the solves of its down and its up child if these were
asked for. -/
structure Stop (α : Type) where
  candidate : Candidate α
  probes : Option (Probe α × Probe α)

namespace Stop

/-- What was asked for at a stop, in order. -/
def exchanges (cap : ℕ) (w : Stop α) : List (Exchange α) :=
  match w.probes with
  | none => []
  | some (down, up) => [down.exchange cap, up.exchange cap]

/-- The variable, if its children were solved. -/
def resolved (w : Stop α) : List ℕ := if w.probes.isSome then [w.candidate.var] else []

/-- Score of a stop from the losses shown, beside those that a table predicts. -/
def score [Scalar α] (t : PseudocostTable α) (relax weight : α) (w : Stop α) : α :=
  match w.probes, t.gains? w.candidate.var w.candidate.value with
  | some (down, up), some (lossDown, lossUp) =>
    blend (down.loss relax lossDown) (up.loss relax lossUp) weight
  | _, _ => w.candidate.score

/-- Children are solved where a table has too few observations, each in its own box. -/
def Fits [Scalar α] (t : PseudocostTable α) (node : NodePoint α) (minSamples : ℕ) (w : Stop α) :
    Prop :=
  match w.probes with
  | none => t.isReliable? w.candidate.var minSamples = some true
  | some (down, up) => t.isReliable? w.candidate.var minSamples = some false ∧
    w.candidate.down.restrict? node.box = some down.box ∧
    w.candidate.up.restrict? node.box = some up.box

end Stop

/-! ## The end of a walk -/

section Stalled

variable [Scalar α] {top v : α} {scores : List α} {i : ℕ}

/-- The best score so far, and the number of scores since it was raised, after one score more. -/
def tally (state : α × ℕ) (score : α) : α × ℕ :=
  if state.1 < score then (score, 0) else (state.1, state.2 + 1)

/-- The score at a place exceeds the running maximum, that is the top score and all scores before
it. -/
def Raises (top : α) (scores : List α) (i : ℕ) : Prop :=
  ∃ v, scores[i]? = some v ∧ top < v ∧ ∀ w ∈ scores.take i, w < v

/-- The last scores all failed to exceed the running maximum. -/
def Stalled (lookahead : ℕ) (top : α) (scores : List α) : Prop :=
  lookahead ≤ scores.length ∧ ∀ i, scores.length - lookahead ≤ i → ¬ Raises top scores i

/-- What comes later does not take a raise back. -/
theorem raises_append_iff (h : i < scores.length) :
    Raises top (scores ++ [v]) i ↔ Raises top scores i := by
  unfold Raises
  rw [List.getElem?_append_left h, List.take_append_of_le_length h.le]

/-- A new score raises the best if it is above the start and above all scores before it. -/
theorem raises_length_iff :
    Raises top (scores ++ [v]) scores.length ↔ top < v ∧ ∀ w ∈ scores, w < v := by
  unfold Raises
  rw [List.getElem?_concat_length, List.take_left]
  simp

theorem lt_length_of_raises (h : Raises top scores i) : i < scores.length := by
  obtain ⟨v, hv, -⟩ := h
  exact (List.getElem?_eq_some_iff.mp hv).1

/-- What the tally of some scores says about them. -/
structure Tallied (top : α) (scores : List α) (state : α × ℕ) : Prop where
  lt_iff : ∀ v, state.1 < v ↔ top < v ∧ ∀ w ∈ scores, w < v
  le : state.2 ≤ scores.length
  stale : ∀ i, scores.length - state.2 ≤ i → ¬ Raises top scores i
  raised : state.2 < scores.length → Raises top scores (scores.length - state.2 - 1)

/-- A further score keeps the tally: it raises the best and resets the count, or adds to it. -/
theorem Tallied.step [LinearScalar α] {state : α × ℕ} (h : Tallied top scores state) (v : α) :
    Tallied top (scores ++ [v]) (tally state v) := by
  have hlength : (scores ++ [v]).length = scores.length + 1 := List.length_append
  have hle := h.le
  unfold tally
  split
  · rename_i hlt
    have hraises : Raises top (scores ++ [v]) scores.length :=
      raises_length_iff.mpr ((h.lt_iff v).mp hlt)
    refine ⟨fun w => ?_, Nat.zero_le _, fun i hi hraise => ?_, fun _ => ?_⟩
    · -- what exceeds the new maximum exceeds the old one
      have hold : v < w → top < w ∧ ∀ u ∈ scores, u < w := fun hvw =>
        (h.lt_iff w).mp (hlt.trans hvw)
      rw [List.forall_mem_append, List.forall_mem_singleton]
      exact ⟨fun hvw => ⟨(hold hvw).1, (hold hvw).2, hvw⟩, fun hw => hw.2.2⟩
    · have hi' := lt_length_of_raises hraise
      dsimp only at hi
      omega
    · rw [hlength]
      exact hraises
  · rename_i hnot
    have hfails : ¬ Raises top (scores ++ [v]) scores.length := fun hraise =>
      hnot ((h.lt_iff v).mpr (raises_length_iff.mp hraise))
    refine ⟨fun w => ?_, ?_, fun i hi hraise => ?_, fun hlt => ?_⟩
    · rw [List.forall_mem_append, List.forall_mem_singleton]
      show state.1 < w ↔ _
      rw [h.lt_iff w]
      refine ⟨fun hw => ⟨hw.1, hw.2, ?_⟩, fun hw => ⟨hw.1, hw.2.1⟩⟩
      exact lt_of_le_of_lt (not_lt.mp hnot) ((h.lt_iff w).mpr hw)
    · dsimp only
      omega
    · have hi' := lt_length_of_raises hraise
      dsimp only at hi
      rcases Nat.lt_or_ge i scores.length with hlt | hge
      · exact h.stale i (by omega) ((raises_append_iff hlt).mp hraise)
      · obtain rfl : i = scores.length := by omega
        exact hfails hraise
    · dsimp only at hlt ⊢
      have hplace : (scores ++ [v]).length - (state.2 + 1) - 1 = scores.length - state.2 - 1 := by
        omega
      rw [hplace, raises_append_iff (by omega)]
      exact h.raised (by omega)

theorem tallied_foldl [LinearScalar α] (top : α) (scores : List α) :
    Tallied top scores (scores.foldl tally (top, 0)) := by
  induction scores using List.reverseRecOn with
  | nil =>
    refine ⟨fun v => ?_, le_refl _, ?_, fun hlt => absurd hlt (lt_irrefl _)⟩
    · exact ⟨fun hv => ⟨hv, nofun⟩, fun hv => hv.1⟩
    · rintro i - ⟨v, hv, -⟩
      cases hv
  | append_singleton scores v ih =>
    rw [List.foldl_append]
    exact ih.step v

/-- A walk ends where the tally says so. -/
theorem stalled_iff [LinearScalar α] {lookahead : ℕ} :
    Stalled lookahead top scores ↔ lookahead ≤ (scores.foldl tally (top, 0)).2 := by
  have h := tallied_foldl top scores
  generalize scores.foldl tally (top, 0) = state at h
  have hle := h.le
  constructor
  · rintro ⟨hlookahead, hstale⟩
    by_contra hlt
    -- the last score that was raised is among the last ones
    exact hstale _ (by omega) (h.raised (by omega))
  · intro hlookahead
    exact ⟨hlookahead.trans hle, fun i hi => h.stale i (by omega)⟩

end Stalled

/-! ## Steps -/

/-- What a computation leaves behind: the requests it made, pseudocosts that changed for some
variables only, and a property of the backend. -/
structure Leaves (P : σ → Prop) (asked : List (Exchange α)) (vars : List ℕ)
    (s t : Scoring (σ × List (Exchange α)) α) : Prop where
  log : t.log = s.log ++ asked
  table : s.table.SameOff vars t.table
  backend : P t.oracle.backend.1

theorem Leaves.refl {P : σ → Prop} {s : Scoring (σ × List (Exchange α)) α}
    (hs : P s.oracle.backend.1) : Leaves P [] [] s s :=
  ⟨(List.append_nil _).symm, .refl _ _, hs⟩

/-- What two computations ask, one after the other. -/
theorem Leaves.trans {P : σ → Prop} {s t u : Scoring (σ × List (Exchange α)) α}
    {asked asked' : List (Exchange α)} {vars vars' : List ℕ} (h : Leaves P asked vars s t)
    (h' : Leaves P asked' vars' t u) : Leaves P (asked ++ asked') (vars ++ vars') s u :=
  ⟨by rw [h'.log, h.log, List.append_assoc], h.table.trans h'.table, h'.backend⟩

section Steps

variable {B : Backend σ α} {p : Problem α} {P : σ → Prop} {node : NodePoint α} {cap : ℕ}
  {s : Scoring (σ × List (Exchange α)) α} {c : Candidate α}

/-- A request in a box where the backend answers is answered and written down. -/
theorem exists_runs_resolve {box : Box α} (hB : B.AnswersIn p P (max cap 1) box)
    (hs : P s.oracle.backend.1) :
    ∃ a t, Runs (ask (Oracle.resolve (transcribing B) p box cap)) s a t ∧ t.table = s.table ∧
      t.log = s.log ++ [Probe.exchange cap ⟨box, a⟩] ∧ P t.oracle.backend.1 := by
  obtain ⟨a, ha, hwell, hnext⟩ := hB _ hs
  have houtcome : (Oracle.resolve (transcribing B) p box cap s.oracle).1.outcome = .ok a :=
    Oracle.outcome_call (B := transcribing B) ha hwell
  have hbackend := Oracle.backend_resolve (transcribing B) p box cap s.oracle
  refine ⟨a, _, (run_ask _ s).trans (Prod.ext houtcome rfl), rfl, ?_, ?_⟩
  · show (Oracle.resolve (transcribing B) p box cap s.oracle).2.backend.2 = _
    rw [hbackend]
    show s.log ++ [⟨box, some (max cap 1), _⟩] = _
    rw [ha]
    rfl
  · show P (Oracle.resolve (transcribing B) p box cap s.oracle).2.backend.1
    rw [hbackend]
    exact hnext

variable [Scalar α]

/-- Learning succeeds for a variable that has entries, and changes these alone. -/
theorem exists_runs_learn {s : Scoring σ α} (branch : Branch α)
    (hvar : ∀ sense, branch.var < (s.table.side sense).length) (parent child : α) :
    ∃ done t, Runs (learn branch parent child) s done t ∧
      s.table.SameOff [branch.var] t.table ∧ t.oracle = s.oracle := by
  obtain ⟨⟨table, changed⟩, hupdate, hsame⟩ :=
    PseudocostTable.exists_update? (t := s.table) hvar parent child
  unfold learn
  refine exists_runs_bind_of (runs_get_iff.mpr ⟨rfl, rfl⟩) ?_
  refine exists_runs_bind_of (runs_inRange_iff.mpr ⟨hupdate, rfl⟩) ?_
  refine exists_runs_bind_of (b := ⟨⟩) (runs_set_iff.mpr rfl) ?_
  cases changed with
  | none => exact ⟨(), _, runs_pure_iff.mpr ⟨rfl, rfl⟩, hsame, rfl⟩
  | some entry => exact ⟨(), _, runs_modify_iff.mpr rfl, hsame, rfl⟩

/-- Measuring a child is one request, whose answer is the loss unless there is no bound. Only an
optimum is learned, for the variable of the branch. -/
theorem exists_runs_measureChild (branch : Branch α) {box : Box α}
    (hbox : branch.restrict? node.box = some box) (hB : B.AnswersIn p P (max cap 1) box)
    (hvar : ∀ sense, branch.var < (s.table.side sense).length) (hs : P s.oracle.backend.1) :
    ∃ a loss? t, Runs (measureChild (transcribing B) p node cap branch) s loss? t ∧
      (∀ predicted, loss?.getD predicted = Probe.loss node.relax predicted ⟨box, a⟩) ∧
      Leaves P [Probe.exchange cap ⟨box, a⟩] [branch.var] s t := by
  obtain ⟨a, u, hask, htable, hlog, hbackend⟩ := exists_runs_resolve hB hs
  have hsame : s.table.SameOff [branch.var] u.table := by
    rw [htable]
    exact .refl _ _
  refine ⟨a, ?_⟩
  unfold measureChild
  refine exists_runs_bind_of (runs_inRange_iff.mpr ⟨hbox, rfl⟩) (exists_runs_bind_of hask ?_)
  unfold Probe.loss
  cases a.status with
  | optimal =>
    obtain ⟨_, t, hlearn, hlearned, horacle⟩ := exists_runs_learn
      (s := { u with fullResolves := u.fullResolves + 1 }) branch
      (by rw [htable]; exact hvar) node.relax a.objective
    refine exists_runs_bind_of (b := ()) (runs_modify_iff.mpr rfl) (exists_runs_bind_of hlearn ?_)
    refine ⟨_, t, runs_pure_iff.mpr ⟨rfl, rfl⟩, fun predicted => rfl, ?_, ?_, ?_⟩
    · unfold log
      rw [horacle]
      exact hlog
    · rw [← htable]
      exact hlearned
    · rw [horacle]
      exact hbackend
  | iterationLimit =>
    refine exists_runs_bind_of (b := ()) (runs_modify_iff.mpr rfl) ?_
    exact ⟨_, _, runs_pure_iff.mpr ⟨rfl, rfl⟩, fun predicted => rfl, hlog, hsame, hbackend⟩
  | infeasible =>
    exact ⟨_, _, runs_pure_iff.mpr ⟨rfl, rfl⟩, fun predicted => rfl, hlog, hsame, hbackend⟩

/-- A candidate whose pseudocosts are those of the table at entry gets the score of a stop that fits
the table. -/
theorem exists_runs_walkedScore {r : Reliability α} {t₀ : PseudocostTable α} {vars : List ℕ}
    (hc : Solvable B p P node r.iterationCap t₀ c.fraction) (hsame : t₀.SameOff vars s.table)
    (hvar : c.var ∉ vars) (hs : P s.oracle.backend.1) :
    ∃ (w : Stop α) (t : Scoring (σ × List (Exchange α)) α), w.candidate = c ∧
      w.Fits t₀ node r.minSamples ∧
      Runs (walkedScore (transcribing B) p node r c) s (w.score t₀ node.relax r.weight) t ∧
      Leaves P (w.exchanges r.iterationCap) w.resolved s t := by
  obtain ⟨reliable, hreliable⟩ := PseudocostTable.exists_isReliable? hc.entry r.minSamples
  have hread : s.table.isReliable? c.var r.minSamples = some reliable :=
    (hsame.isReliable?_eq hvar _).trans hreliable
  have hstart : ∀ {score : α} {t}, Runs (if reliable then pure c.score
      else measure (transcribing B) p node r c) s score t →
      Runs (walkedScore (transcribing B) p node r c) s score t := by
    intro score t hrest
    unfold walkedScore
    refine runs_bind_iff.mpr ⟨s, s, runs_get_iff.mpr ⟨rfl, rfl⟩, ?_⟩
    exact runs_bind_iff.mpr ⟨reliable, s, runs_inRange_iff.mpr ⟨hread, rfl⟩, hrest⟩
  cases reliable with
  | true =>
    exact ⟨⟨c, none⟩, s, rfl, hreliable, hstart (runs_pure_iff.mpr ⟨rfl, rfl⟩), .refl hs⟩
  | false =>
    obtain ⟨lossDown, lossUp, hgains⟩ := PseudocostTable.exists_gains? hc.entry c.value
    obtain ⟨downBox, hdownBox, hdownB⟩ := hc.down
    obtain ⟨upBox, hupBox, hupB⟩ := hc.up
    obtain ⟨a, down?, u, hdown, hdownLoss, hleaves⟩ := exists_runs_measureChild c.down
      hdownBox hdownB (fun sense => (hc.entry sense).trans_eq (hsame.length sense).symm) hs
    -- the table after the first child has as many entries
    have hlength := fun sense => (hleaves.table.length sense).trans (hsame.length sense)
    obtain ⟨b, up?, t, hup, hupLoss, hleaves'⟩ := exists_runs_measureChild c.up
      hupBox hupB (fun sense => (hc.entry sense).trans_eq (hlength sense).symm) hleaves.backend
    have hboth := hleaves.trans hleaves'
    refine ⟨⟨c, some (⟨downBox, a⟩, ⟨upBox, b⟩)⟩, t, rfl, ⟨hreliable, hdownBox, hupBox⟩, hstart ?_,
      hboth.log, hboth.table.mono ?_, hboth.backend⟩
    · have hscore : Stop.score t₀ node.relax r.weight ⟨c, some (⟨downBox, a⟩, ⟨upBox, b⟩)⟩
          = blend (down?.getD lossDown) (up?.getD lossUp) r.weight := by
        rw [hdownLoss, hupLoss, Stop.score]
        dsimp only
        rw [show t₀.gains? c.var c.value = _ from hgains]
      rw [hscore, if_neg Bool.false_ne_true]
      unfold measure
      refine runs_bind_iff.mpr ⟨s, s, runs_get_iff.mpr ⟨rfl, rfl⟩, ?_⟩
      refine runs_bind_iff.mpr ⟨(lossDown, lossUp), s,
        runs_inRange_iff.mpr ⟨(hsame.gains?_eq hvar _).trans hgains, rfl⟩, ?_⟩
      refine runs_bind_iff.mpr ⟨down?, u, hdown, ?_⟩
      exact runs_bind_iff.mpr ⟨up?, t, hup, runs_pure_iff.mpr ⟨rfl, rfl⟩⟩
    · intro var hmem
      rcases List.mem_append.mp hmem with hmem | hmem <;> exact hmem

/-- The record of a walk over some candidates from a best score and a number of candidates since it
was raised. -/
structure Walks (t₀ : PseudocostTable α) (node : NodePoint α) (r : Reliability α)
    (cs : List (Candidate α)) (state : α × ℕ) (stops : List (Stop α)) : Prop where
  reached : stops.map Stop.candidate <+: cs
  fits : ∀ w ∈ stops, w.Fits t₀ node r.minSamples
  ended : stops.map Stop.candidate = cs ∨
    r.lookahead ≤ ((stops.map (Stop.score t₀ node.relax r.weight)).foldl tally state).2
  continued : ∀ k < stops.length,
    (((stops.map (Stop.score t₀ node.relax r.weight)).take k).foldl tally state).2 < r.lookahead

section Walks

variable {t₀ : PseudocostTable α} {r : Reliability α} {cs : List (Candidate α)} {state : α × ℕ}
  {w : Stop α} {stops : List (Stop α)}

/-- A walk that stops at its first candidate. -/
theorem Walks.last (hw : w.Fits t₀ node r.minSamples) (hstate : state.2 < r.lookahead)
    (hstop : r.lookahead ≤ (tally state (w.score t₀ node.relax r.weight)).2) :
    Walks t₀ node r (w.candidate :: cs) state [w] where
  reached := (List.prefix_cons_inj _).mpr List.nil_prefix
  fits := List.forall_mem_singleton.mpr hw
  ended := .inr hstop
  continued k hk := by
    obtain rfl : k = 0 := Nat.lt_one_iff.mp hk
    exact hstate

/-- A walk that goes on after its first candidate. -/
theorem Walks.cons (hw : w.Fits t₀ node r.minSamples) (hstate : state.2 < r.lookahead)
    (h : Walks t₀ node r cs (tally state (w.score t₀ node.relax r.weight)) stops) :
    Walks t₀ node r (w.candidate :: cs) state (w :: stops) where
  reached := (List.prefix_cons_inj _).mpr h.reached
  fits := List.forall_mem_cons.mpr ⟨hw, h.fits⟩
  ended := h.ended.imp (congrArg (w.candidate :: ·)) id
  continued k hk := by
    cases k with
    | zero => exact hstate
    | succ k => exact h.continued k (Nat.lt_of_succ_lt_succ hk)

end Walks

/-- A walk over candidates of different variables, none of which has been walked before, scores its
stops by the table at entry. -/
theorem exists_runs_walk {r : Reliability α} {t₀ : PseudocostTable α} {cs : List (Candidate α)}
    (hcs : ∀ c ∈ cs, Solvable B p P node r.iterationCap t₀ c.fraction)
    (hvars : (cs.map Candidate.var).Nodup) {vars : List ℕ} (hsame : t₀.SameOff vars s.table)
    (hnew : ∀ c ∈ cs, c.var ∉ vars) (hs : P s.oracle.backend.1) (top : α) {stale : ℕ}
    (hstale : stale < r.lookahead) :
    ∃ scores t, Runs (walk (transcribing B) p node r cs top stale) s scores t ∧
      ∃ stops : List (Stop α), Walks t₀ node r cs (top, stale) stops ∧
        scores = stops.map (fun w => (w.candidate.var, w.score t₀ node.relax r.weight)) ∧
        Leaves P (stops.flatMap (Stop.exchanges r.iterationCap)) (stops.flatMap Stop.resolved)
          s t := by
  induction cs generalizing vars s top stale with
  | nil =>
    refine ⟨[], s, runs_pure_iff.mpr ⟨rfl, rfl⟩, [], ?_, rfl, .refl hs⟩
    exact ⟨List.prefix_rfl, nofun, .inl rfl, nofun⟩
  | cons c cs ih =>
    obtain ⟨hc, hrestSolvable⟩ := List.forall_mem_cons.mp hcs
    obtain ⟨hcvar, hrestNew⟩ := List.forall_mem_cons.mp hnew
    rw [List.map_cons, List.nodup_cons] at hvars
    obtain ⟨w, u, rfl, hw, hrun, hleaves⟩ := exists_runs_walkedScore hc hsame hcvar hs
    rw [walk]
    refine exists_runs_bind_of hrun ?_
    rcases htally : tally (top, stale) (w.score t₀ node.relax r.weight) with ⟨top', stale'⟩
    have hstep : (if top < w.score t₀ node.relax r.weight then (w.score t₀ node.relax r.weight, 0)
        else (top, stale + 1)) = (top', stale') := htally
    rw [hstep]
    dsimp only
    split
    · rename_i hstop
      refine exists_runs_bind_of (b := ()) (runs_modify_iff.mpr rfl) ?_
      refine ⟨_, _, runs_pure_iff.mpr ⟨rfl, rfl⟩, [w], ?_, rfl, ?_⟩
      · exact .last hw hstale (by rw [htally]; exact hstop)
      · rw [List.flatMap_singleton, List.flatMap_singleton]
        exact ⟨hleaves.log, hleaves.table, hleaves.backend⟩
    · rename_i hgo
      -- the candidates that are left have other variables
      have hother : ∀ d ∈ cs, d.var ∉ vars ++ w.resolved := by
        intro d hd hmem
        rcases List.mem_append.mp hmem with hmem | hmem
        · exact hrestNew d hd hmem
        · unfold Stop.resolved at hmem
          split at hmem
          · rw [List.mem_singleton] at hmem
            exact hvars.1 (hmem ▸ List.mem_map_of_mem hd)
          · cases hmem
      obtain ⟨scores, t, hrest, stops, hwalks, hscores, hleaves'⟩ := ih hrestSolvable hvars.2
        (hsame.trans hleaves.table) hother hleaves.backend top' (not_le.mp hgo)
      refine exists_runs_bind_of hrest ⟨_, _, runs_pure_iff.mpr ⟨rfl, rfl⟩, w :: stops, ?_, ?_, ?_⟩
      · exact .cons hw hstale (by rw [htally]; exact hwalks)
      · rw [hscores, List.map_cons]
      · rw [List.flatMap_cons, List.flatMap_cons]
        exact hleaves.trans hleaves'

end Steps

/-! ## Reliability branching -/

section Reliability

variable [Scalar α] {B : Backend σ α} {p : Problem α} {P : σ → Prop} {node : NodePoint α}
  {r : Reliability α} {t : PseudocostTable α} {fs : List (ℕ × α)} {cs : List (Candidate α)}

/-- A candidate for a variable at its value, with the blend of the losses that a table predicts. -/
def Predicted (t : PseudocostTable α) (weight : α) (f : ℕ × α) (c : Candidate α) : Prop :=
  c.fraction = f ∧ ∃ down up, t.gains? f.1 f.2 = some (down, up) ∧ c.score = blend down up weight

/-- A walk as the definition of reliability branching has it. All predictions are those of the table
at entry. -/
structure Record (t : PseudocostTable α) (node : NodePoint α) (r : Reliability α)
    (fs : List (ℕ × α)) where
  candidates : List (Candidate α)
  predicted : List.Forall₂ (Predicted t r.weight) fs candidates
  /-- The candidates by falling score, and by rising variable where scores are equal. -/
  order : List (Candidate α)
  perm : order.Perm candidates
  ranked : order.Pairwise fun a b => b.score < a.score ∨ a.score = b.score ∧ a.var < b.var
  /-- The largest predicted score. -/
  top : α
  top_eq : order.head?.map Candidate.score = some top
  /-- The candidates that are walked. -/
  stops : List (Stop α)
  reached : stops.map Stop.candidate <+: order
  fits : ∀ w ∈ stops, w.Fits t node r.minSamples
  /-- No shorter walk would have ended. -/
  continued : ∀ k < stops.length,
    ¬ Stalled r.lookahead top ((stops.map (Stop.score t node.relax r.weight)).take k)
  ended : stops.map Stop.candidate = order ∨
    Stalled r.lookahead top (stops.map (Stop.score t node.relax r.weight))
  /-- The scores after the walk. -/
  final : Candidate α → α
  measured : ∀ w ∈ stops, final w.candidate = w.score t node.relax r.weight
  kept : ∀ c ∈ candidates, c ∉ stops.map Stop.candidate → final c = c.score

/-- The candidate with the largest score after the walk, with the least variable among several. -/
structure Record.Chooses (record : Record t node r fs) (chosen : Candidate α) : Prop where
  mem : ∃ c ∈ record.candidates, chosen = { c with score := record.final c }
  le : ∀ c ∈ record.candidates, record.final c ≤ chosen.score
  lt : ∀ c ∈ record.candidates, c.var < chosen.var → record.final c < chosen.score

/-- A variable that has entries is predicted by them. -/
theorem exists_byBlend? {f : ℕ × α} (hvar : ∀ sense, f.1 < (t.side sense).length) (weight : α) :
    ∃ c, Candidate.byBlend? t weight f = some c ∧ Predicted t weight f c := by
  obtain ⟨down, up, hgains⟩ := PseudocostTable.exists_gains? hvar f.2
  refine ⟨⟨f.1, f.2, blend down up weight⟩, ?_, rfl, down, up, hgains, rfl⟩
  unfold Candidate.byBlend?
  rw [hgains]
  rfl

theorem map_fraction_of_predicted {weight : α} (h : List.Forall₂ (Predicted t weight) fs cs) :
    cs.map Candidate.fraction = fs :=
  Candidate.map_fraction_of_forall₂ (h.imp fun _ _ hc => hc.1)

omit [Scalar α] in
/-- What a walk has scored keeps that score. -/
theorem score_rescored_stop {stops : List (Stop α)} (score : Stop α → α)
    (hvars : ((stops.map Stop.candidate).map Candidate.var).Nodup) {w : Stop α} (hw : w ∈ stops) :
    (rescored (stops.map fun w => (w.candidate.var, score w)) w.candidate).score = score w := by
  have hlookup : (stops.map fun w => (w.candidate.var, score w)).lookup w.candidate.var
      = some (score w) := by
    obtain ⟨before, after, rfl⟩ := List.append_of_mem hw
    refine List.lookup_eq_some_iff.mpr ⟨_, _, List.map_append, fun pair hpair => ?_⟩
    rw [List.map_map, List.map_append, List.map_cons, List.nodup_append] at hvars
    obtain ⟨v, hv, rfl⟩ := List.mem_map.mp hpair
    exact bne_iff_ne.mpr (hvars.2.2 _ (List.mem_map_of_mem hv) _ List.mem_cons_self).symm
  show (List.lookup _ _).getD _ = _
  rw [hlookup]
  rfl

omit [Scalar α] in
/-- What a walk has not reached keeps its score. -/
theorem score_rescored_of_notMem {stops : List (Stop α)} (score : Stop α → α)
    (hcs : (cs.map Candidate.var).Nodup) (hstops : stops.map Stop.candidate ⊆ cs)
    {c : Candidate α} (hc : c ∈ cs) (hnot : c ∉ stops.map Stop.candidate) :
    (rescored (stops.map fun w => (w.candidate.var, score w)) c).score = c.score := by
  have hlookup : (stops.map fun w => (w.candidate.var, score w)).lookup c.var = none := by
    refine List.lookup_eq_none_iff.mpr fun pair hpair => bne_iff_ne.mpr fun heq => hnot ?_
    obtain ⟨w, hw, rfl⟩ := List.mem_map.mp hpair
    -- candidates are told apart by their variables
    rw [List.inj_on_of_nodup_map hcs hc (hstops (List.mem_map_of_mem hw)) heq]
    exact List.mem_map_of_mem hw
  show (List.lookup _ _).getD _ = _
  rw [hlookup]
  rfl

/-- The best candidate by the scores of a walk is the one that its record chooses. -/
theorem Record.chooses_best [RankedScalar α] {record : Record t node r fs} {c : Candidate α}
    {ds : List (Candidate α)} {scores : List (ℕ × α)} (hcandidates : record.candidates = c :: ds)
    (hfinal : record.final = fun d => (rescored scores d).score)
    (hincreasing : (c :: ds).Pairwise fun a b => a.var < b.var) :
    record.Chooses (Candidate.best (rescored scores c) (ds.map (rescored scores))) := by
  have hrescored : (rescored scores c :: ds.map (rescored scores)).Pairwise
      fun a b => a.var < b.var := by
    rw [← List.map_cons (f := rescored scores), List.pairwise_map]
    exact hincreasing
  have hbest : ∀ d ∈ c :: ds, rescored scores d ∈ rescored scores c :: ds.map (rescored scores) :=
    fun d hd => List.mem_map_of_mem (f := rescored scores) hd
  constructor <;> rw [hcandidates, hfinal]
  case mem =>
    have hchosen := Candidate.best_mem (rescored scores c) (ds.map (rescored scores))
    rw [← List.map_cons (f := rescored scores)] at hchosen
    obtain ⟨d, hd, heq⟩ := List.mem_map.mp hchosen
    exact ⟨d, hd, heq.symm⟩
  case le => exact fun d hd => (Candidate.score_le_best hrescored (hbest d hd)).1
  case lt => exact fun d hd => (Candidate.score_le_best hrescored (hbest d hd)).2

/-- Over a backend that writes down its requests, reliability branching makes those of a record. -/
theorem exists_runs_selectReliability [RankedScalar α] {s : Scoring (σ × List (Exchange α)) α}
    {first : ℕ × α} {rest : List (ℕ × α)} (hlookahead : 0 < r.lookahead)
    (hvars : (first :: rest).Pairwise fun f g => f.1 < g.1)
    (hsolvable : ∀ f ∈ first :: rest, Solvable B p P node r.iterationCap s.table f)
    (hs : P s.oracle.backend.1) :
    ∃ chosen u, Runs (selectReliability (transcribing B) p node r first rest) s chosen u ∧
      ∃ record : Record s.table node r (first :: rest), record.Chooses chosen ∧
        Leaves P (record.stops.flatMap (Stop.exchanges r.iterationCap))
          (record.stops.flatMap Stop.resolved) s u := by
  obtain ⟨c, ds, hc, hds, hpredicted⟩ := exists_runs_candidates (s := s) fun f hf =>
    exists_byBlend? (hsolvable f hf).entry r.weight
  have hfractions := map_fraction_of_predicted hpredicted
  have hincreasing : (c :: ds).Pairwise fun a b => a.var < b.var := by
    rw [← hfractions, List.pairwise_map] at hvars
    exact hvars
  have hnodup : ((c :: ds).map Candidate.var).Nodup :=
    List.pairwise_map.mpr (hincreasing.imp fun hlt => hlt.ne)
  have hperm : (Candidate.ranking (c :: ds)).Perm (c :: ds) := List.mergeSort_perm _ _
  have hhead := Candidate.head?_ranking c ds
  have hordered : ∀ d ∈ Candidate.ranking (c :: ds),
      Solvable B p P node r.iterationCap s.table d.fraction := fun d hd =>
    hsolvable _ (Candidate.fraction_mem_of_mem hfractions (hperm.mem_iff.mp hd))
  obtain ⟨scores, u, hwalk, stops, hwalks, rfl, hleaves⟩ := exists_runs_walk hordered
    ((hperm.map Candidate.var).nodup_iff.mpr hnodup) (.refl [] s.table)
    (fun _ _ => List.not_mem_nil) hs (Candidate.best c ds).score hlookahead
  have hmem : stops.map Stop.candidate ⊆ c :: ds := fun d hd =>
    hperm.mem_iff.mp (hwalks.reached.subset hd)
  have hstopvars : ((stops.map Stop.candidate).map Candidate.var).Nodup :=
    ((hperm.map Candidate.var).nodup_iff.mpr hnodup).sublist (hwalks.reached.sublist.map _)
  have hfinal := fun w (hw : w ∈ stops) =>
    score_rescored_stop (Stop.score s.table node.relax r.weight) hstopvars hw
  have hkept := fun d (hd : d ∈ c :: ds) =>
    score_rescored_of_notMem (Stop.score s.table node.relax r.weight) hnodup hmem hd
  generalize stops.map (fun w => (w.candidate.var, w.score s.table node.relax r.weight)) = scores
    at hwalk hfinal hkept
  refine ⟨Candidate.best (rescored scores c) (ds.map (rescored scores)), u, ?_,
    { candidates := c :: ds
      predicted := hpredicted
      order := Candidate.ranking (c :: ds)
      perm := hperm
      ranked := Candidate.pairwise_ranking hincreasing
      top := (Candidate.best c ds).score
      top_eq := by rw [hhead]; rfl
      stops := stops
      reached := hwalks.reached
      fits := hwalks.fits
      continued := fun k hk => by
        rw [stalled_iff, not_le]
        exact hwalks.continued k hk
      ended := hwalks.ended.imp_right stalled_iff.mpr
      final := fun d => (rescored scores d).score
      measured := hfinal
      kept := hkept }, Record.chooses_best rfl rfl hincreasing, hleaves⟩
  unfold selectReliability
  refine runs_bind_iff.mpr ⟨s, s, runs_get_iff.mpr ⟨rfl, rfl⟩, ?_⟩
  refine runs_bind_iff.mpr ⟨c, s, runs_inRange_iff.mpr ⟨hc, rfl⟩, ?_⟩
  refine runs_bind_iff.mpr ⟨ds, s, hds, ?_⟩
  dsimp only
  rw [hhead]
  exact runs_bind_iff.mpr ⟨scores, u, hwalk, runs_pure_iff.mpr ⟨rfl, rfl⟩⟩

/-- Reliability branching meets its definition. With variables in rising order, and a backend that
answers for their children, it chooses by the final scores of a record, makes the requests of that
record and no others, and changes pseudocosts of the variables whose children were solved alone. -/
theorem selectReliability_spec [RankedScalar α] {s : Scoring σ α} {first : ℕ × α}
    {rest : List (ℕ × α)} (hlookahead : 0 < r.lookahead)
    (hvars : (first :: rest).Pairwise fun f g => f.1 < g.1)
    (hsolvable : ∀ f ∈ first :: rest, Solvable B p P node r.iterationCap s.table f)
    (hs : P s.oracle.backend) :
    ∃ chosen t u, Runs (selectReliability B p node r first rest) s chosen t ∧
      Runs (selectReliability (transcribing B) p node r first rest) s.transcribed chosen u ∧
      u.table = t.table ∧
      ∃ record : Record s.table node r (first :: rest), record.Chooses chosen ∧
        u.log = record.stops.flatMap (Stop.exchanges r.iterationCap) ∧
        s.table.SameOff (record.stops.flatMap Stop.resolved) t.table := by
  obtain ⟨chosen, u, hrun, record, hchooses, hleaves⟩ :=
    exists_runs_selectReliability (s := s.transcribed) hlookahead hvars hsolvable hs
  obtain ⟨t, hplain, hafter⟩ := exists_runs_of_transcribed
    (alike_selectReliability (answersLike_transcribing B p) r first rest) hrun
  refine ⟨chosen, t, u, hplain, hrun, hafter.table, record, hchooses, hleaves.log, ?_⟩
  rw [← hafter.table]
  exact hleaves.table

end Reliability

/-! ### Two even things -/

/-- The optimum of the relaxation, where each thing is in by two thirds. -/
def wedgeNode : NodePoint ExtRat :=
  ⟨.root wedge true, [.fin (2 / 3), .fin (2 / 3)], .fin (4 / 3), 0⟩

/-- Scoring at the start of a search. -/
def wedgeScoring : Scoring (SimplexState ExtRat) ExtRat :=
  .new (.reliability .standard) wedge.objective (.new .standard)

/-- The simplex method answers in every box that bounds both things. -/
theorem answersIn_wedge {box : Box ExtRat} (hbox : box.Usable wedge.numVars) (cap : ℕ) :
    simplex.AnswersIn wedge (fun s => s.settings = .standard) cap box := by
  intro s hs
  have hvalid : s.settings.validate = .ok () := by
    rw [hs]
    with_unfolding_all rfl
  obtain ⟨a, ha, hwell⟩ := answers_simplex constructed_wedge.wellFormed hvalid hbox (some cap)
  refine ⟨a, ha, hwell, ?_⟩
  rw [state_simplex]
  exact hs

theorem solvable_wedge {var : ℕ} (hvar : var < 2) :
    Solvable simplex wedge (fun s => s.settings = .standard) wedgeNode
      (Reliability.standard (α := ExtRat)).iterationCap wedgeScoring.table (var, .fin (2 / 3)) := by
  have hroot := Box.usable_root constructed_wedge.wellFormed true
  refine ⟨fun sense => by cases sense <;> exact hvar, ?_, ?_⟩
  · obtain ⟨box, hbox, husable⟩ := hroot.exists_restrict?
      (b := Branch.down var (.fin (2 / 3))) ⟨hvar, rfl⟩
    exact ⟨box, hbox, answersIn_wedge husable _⟩
  · obtain ⟨box, hbox, husable⟩ := hroot.exists_restrict?
      (b := Branch.up var (.fin (2 / 3))) ⟨hvar, rfl⟩
    exact ⟨box, hbox, answersIn_wedge husable _⟩

/-- Nothing is known about either thing and there are too few to stop early, so each is measured
with two solves. -/
theorem selectReliability_spec_wedge : ∃ chosen t u,
    Runs (selectReliability simplex wedge wedgeNode .standard (0, .fin (2 / 3)) [(1, .fin (2 / 3))])
      wedgeScoring chosen t ∧
    Runs (selectReliability (transcribing simplex) wedge wedgeNode .standard (0, .fin (2 / 3))
      [(1, .fin (2 / 3))]) wedgeScoring.transcribed chosen u ∧
    u.table = t.table ∧ u.log.length = 4 ∧
    ∃ record : Record wedgeScoring.table wedgeNode .standard
      [(0, .fin (2 / 3)), (1, .fin (2 / 3))], record.Chooses chosen := by
  have hfs : ∀ f ∈ [((0 : ℕ), ExtRat.fin (2 / 3)), (1, .fin (2 / 3))],
      f.1 < 2 ∧ f.2 = .fin (2 / 3) := by
    decide +kernel
  have hvars : [((0 : ℕ), ExtRat.fin (2 / 3)), (1, .fin (2 / 3))].Pairwise
      fun f g => f.1 < g.1 := by
    decide
  have hsolvable : ∀ f ∈ [((0 : ℕ), ExtRat.fin (2 / 3)), (1, .fin (2 / 3))],
      Solvable simplex wedge (fun s => s.settings = .standard) wedgeNode
        (Reliability.standard (α := ExtRat)).iterationCap wedgeScoring.table f := by
    intro f hf
    rw [← Prod.mk.eta (p := f), (hfs f hf).2]
    exact solvable_wedge (hfs f hf).1
  obtain ⟨chosen, t, u, hrun, hlogged, htable, record, hchooses, hlog, -⟩ :=
    selectReliability_spec (P := fun s => s.settings = .standard) (s := wedgeScoring)
      (r := .standard) (by decide) hvars hsolvable rfl
  refine ⟨chosen, t, u, hrun, hlogged, htable, ?_, record, hchooses⟩
  have horder : record.order.length = 2 :=
    record.perm.length_eq.trans record.predicted.length_eq.symm
  have hstops : record.stops.length = 2 := by
    rcases record.ended with hall | hstalled
    · rw [← horder, ← hall, List.length_map]
    · have hreached := record.reached.length_le
      have hfive : 5 ≤ _ := hstalled.1
      rw [List.length_map] at hreached hfive
      omega
  have htwo : ∀ w ∈ record.stops,
      (w.exchanges (Reliability.standard (α := ExtRat)).iterationCap).length = 2 := by
    intro w hw
    have hmem := record.perm.mem_iff.mp (record.reached.subset (List.mem_map_of_mem hw))
    have hvar := (hfs _ (Candidate.fraction_mem_of_mem
      (map_fraction_of_predicted record.predicted) hmem)).1
    have hunknown : ∀ var < 2, wedgeScoring.table.isReliable? var 4 = some false := by
      decide +kernel
    have hfits := record.fits w hw
    unfold Stop.Fits at hfits
    unfold Stop.exchanges
    cases hprobes : w.probes with
    | none =>
      rw [hprobes] at hfits
      cases (hunknown _ hvar).symm.trans hfits
    | some probes => rfl
  rw [hlog, List.length_flatMap, List.map_congr_left htwo, List.map_const', hstops]
  rfl

end Scoring

end BranchBound
