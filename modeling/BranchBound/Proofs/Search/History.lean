import BranchBound.Proofs.Search.EventStream

/-!
# The rounds of a run

A run is a sequence of rounds, and each of them takes up one node. What is said about the moment at
which a node was taken up, such as the incumbent at that time, is said about its round. The visit of
the last node may have failed, and its round is one like the others.

* `Halts`: why a run stops without an error, with all that was checked before.
* `Dealt`: what the visit of a node leaves behind, whether it succeeds or fails.
* `TakesUp`, `step_cases`: all that a step can do.
* `Round`, `rounds`: the rounds of a run.
* `holds_of_rounds`, `holds_of_running`: what every round keeps is true at all times.
* `halts_of_advance`: a run that ended without an error had a reason to.
* `Dealt.expanded`: a node that gets children was not to be closed.
* `Grows.get?_of_ne`, `Grows.children_of_ne`: what becomes of the other nodes.
* `holds_of_search`: what every round of a search keeps, given the order of its nodes and events.
-/

namespace BranchBound.Search

open Relaxation

variable {σ α : Type} [Scalar α]

/-! ## Steps -/

/-- Why a run stops without an error, and with which status. -/
inductive Halts (ctx : Context σ α) (s : State σ α) : SolveStatus → Prop
  | exhausted {status : SolveStatus} (hpop : s.frontier.pop? = none)
      (hstatus : status = exhausted s) : Halts ctx s status
  | timeLimit (hpop : s.frontier.pop? ≠ none) (htime : timeIsUp ctx s = true) :
      Halts ctx s .timeLimit
  | nodeLimit (hpop : s.frontier.pop? ≠ none) (htime : timeIsUp ctx s = false)
      (hnodes : ctx.settings.maxNodes ≤ s.processed) : Halts ctx s .nodeLimit

/-- A run stops at the limit on the nodes only where that is reached and some node is open. -/
theorem Halts.of_nodeLimit {ctx : Context σ α} {s : State σ α} (h : Halts ctx s .nodeLimit) :
    s.frontier.entries ≠ [] ∧ ctx.settings.maxNodes ≤ s.processed := by
  cases h with
  | exhausted hpop hstatus =>
    unfold Search.exhausted at hstatus
    split at hstatus <;> cases hstatus
  | nodeLimit hpop htime hnodes =>
    exact ⟨fun hnil => hpop (Frontier.pop?_eq_none_iff.mpr hnil), hnodes⟩

/-- What the visit of a node leaves behind, whether it succeeds or fails. -/
inductive Dealt (ctx : Context σ α) (e : Entry α) (s t : State σ α) : Prop
  | visits (h : Visits ctx e.node e.bound s t)
  | breaks {err : SolveError α} (h : Breaks ctx e.node e.bound s err t)

/-- The next node is taken up, and its visit succeeds or fails. -/
structure TakesUp (ctx : Context σ α) (e : Entry α) (rest : Frontier α) (s t : State σ α) :
    Prop where
  pop? : s.frontier.pop? = some (e, rest)
  in_time : timeIsUp ctx s = false
  within_nodes : s.processed < ctx.settings.maxNodes
  dealt : Dealt ctx e { s with frontier := rest } t

/-- A step stops the run where it is, or takes up a node; if its visit fails, the run ends there. -/
theorem step_cases (ctx : Context σ α) (s : State σ α) :
    (∃ status, step ctx s = .ended (.ok status) s ∧ Halts ctx s status) ∨
      ∃ e rest t, TakesUp ctx e rest s t ∧
        (step ctx s = .running t ∨ ∃ err, step ctx s = .ended (.error err) t) := by
  unfold step
  cases hpop : s.frontier.pop? with
  | none => exact .inl ⟨_, rfl, .exhausted hpop rfl⟩
  | some taken =>
    obtain ⟨e, rest⟩ := taken
    have hopen : s.frontier.pop? ≠ none := by
      rw [hpop]
      exact Option.some_ne_none _
    dsimp only
    cases htime : timeIsUp ctx s with
    | true => exact .inl ⟨_, rfl, .timeLimit hopen htime⟩
    | false =>
      rw [if_neg Bool.false_ne_true]
      by_cases hnodes : ctx.settings.maxNodes ≤ s.processed
      · rw [if_pos hnodes]
        exact .inl ⟨_, rfl, .nodeLimit hopen htime hnodes⟩
      · rw [if_neg hnodes]
        right
        cases hrun : (visit ctx e.node e.bound).run.run { s with frontier := rest } with
        | mk result t =>
          have hnodes' := Nat.lt_of_not_le hnodes
          cases result with
          | ok u =>
            exact ⟨e, rest, t, ⟨hpop, htime, hnodes', .visits (visits_of_runs_visit hrun)⟩, .inl rfl⟩
          | error err =>
            exact ⟨e, rest, t, ⟨hpop, htime, hnodes', .breaks (breaks_of_fails_visit hrun)⟩,
              .inr ⟨err, rfl⟩⟩

/-- A run that ends without an error stops for a reason. -/
theorem halts_of_step {ctx : Context σ α} {s t : State σ α} {status : SolveStatus}
    (h : step ctx s = .ended (.ok status) t) : t = s ∧ Halts ctx s status := by
  rcases step_cases ctx s with ⟨status', hstep, hhalts⟩ | ⟨e, rest, u, -, hstep | ⟨err, hstep⟩⟩
  · rw [hstep] at h
    cases h
    exact ⟨rfl, hhalts⟩
  · rw [hstep] at h
    cases h
  · rw [hstep] at h
    cases h

/-! ## Rounds -/

/-- One round of a run: the node taken up, the state in which it is no longer open, and the state
its visit leaves. -/
structure Round (σ α : Type) where
  entry : Entry α
  before : State σ α
  after : State σ α

/-- The rounds in a number of steps, in order; the visit of the last one may have failed. -/
def rounds (ctx : Context σ α) : ℕ → State σ α → List (Round σ α)
  | 0, _ => []
  | n + 1, s =>
    match s.frontier.pop?, step ctx s with
    | some (e, frontier), .running t => ⟨e, { s with frontier }, t⟩ :: rounds ctx n t
    | some (e, frontier), .ended (.error _) t => [⟨e, { s with frontier }, t⟩]
    | _, _ => []

section Rounds

variable {ctx : Context σ α} {s t : State σ α} {e : Entry α} {rest : Frontier α}

theorem rounds_of_running (hstep : step ctx s = .running t)
    (hpop : s.frontier.pop? = some (e, rest)) (n : ℕ) :
    rounds ctx (n + 1) s = ⟨e, { s with frontier := rest }, t⟩ :: rounds ctx n t := by
  rw [rounds, hpop, hstep]

theorem rounds_of_failed {err : SolveError α} (hstep : step ctx s = .ended (.error err) t)
    (hpop : s.frontier.pop? = some (e, rest)) (n : ℕ) :
    rounds ctx (n + 1) s = [⟨e, { s with frontier := rest }, t⟩] := by
  rw [rounds, hpop, hstep]

theorem rounds_of_stopped {status : SolveStatus} (hstep : step ctx s = .ended (.ok status) t)
    (n : ℕ) : rounds ctx (n + 1) s = [] := by
  rw [rounds, hstep]
  cases s.frontier.pop? <;> rfl

/-- What every round keeps is true at all times of a run. -/
theorem holds_of_rounds {P : List (Round σ α) → State σ α → Prop}
    (hround : ∀ {done s t e rest}, P done s → TakesUp ctx e rest s t →
      P (done ++ [⟨e, { s with frontier := rest }, t⟩]) t)
    (n : ℕ) {done : List (Round σ α)} (hs : P done s) :
    P (done ++ rounds ctx n s) ((Phase.running s).advance ctx n).state := by
  induction n generalizing done s with
  | zero =>
    rw [rounds, List.append_nil]
    exact hs
  | succ n ih =>
    rw [Phase.advance]
    rcases step_cases ctx s with ⟨status, hstep, -⟩ | ⟨e, rest, t, htakes, hstep | ⟨err, hstep⟩⟩
    · rw [hstep, Phase.advance_ended, rounds_of_stopped hstep, List.append_nil]
      exact hs
    · rw [hstep, rounds_of_running hstep htakes.pop?, List.append_cons]
      exact ih (hround hs htakes)
    · rw [hstep, Phase.advance_ended, rounds_of_failed hstep htakes.pop?]
      exact hround hs htakes

/-- While a run goes on, every visit has succeeded, and what every round with such a visit keeps is
true. -/
theorem holds_of_running {P : List (Round σ α) → State σ α → Prop}
    (hround : ∀ {done s t e rest}, P done s → Takes ctx e rest s t →
      P (done ++ [⟨e, { s with frontier := rest }, t⟩]) t)
    {n : ℕ} {done : List (Round σ α)} (hs : P done s)
    (h : (Phase.running s).advance ctx n = .running t) : P (done ++ rounds ctx n s) t := by
  induction n generalizing done s with
  | zero =>
    cases h
    rw [rounds, List.append_nil]
    exact hs
  | succ n ih =>
    rw [Phase.advance] at h
    cases hstep : step ctx s with
    | running u =>
      rw [hstep] at h
      obtain ⟨e, rest, htakes⟩ := takes_of_step_running hstep
      rw [rounds_of_running hstep htakes.pop?, List.append_cons]
      exact ih (hround hs htakes) h
    | ended result u =>
      rw [hstep, Phase.advance_ended] at h
      cases h

/-- While a run goes on, every step is a round. -/
theorem length_rounds_of_running {n : ℕ} (h : (Phase.running s).advance ctx n = .running t) :
    (rounds ctx n s).length = n := by
  induction n generalizing s with
  | zero => rfl
  | succ n ih =>
    rw [Phase.advance] at h
    rcases step_cases ctx s with ⟨status, hstep, -⟩ | ⟨e, rest, u, htakes, hstep | ⟨err, hstep⟩⟩
    · rw [hstep, Phase.advance_ended] at h
      cases h
    · rw [hstep] at h
      rw [rounds_of_running hstep htakes.pop?, List.length_cons, ih h]
    · rw [hstep, Phase.advance_ended] at h
      cases h

theorem halts_of_advance {n : ℕ} {status : SolveStatus}
    (h : (Phase.running s).advance ctx n = .ended (.ok status) t) : Halts ctx t status := by
  induction n generalizing s with
  | zero => cases h
  | succ n ih =>
    rw [Phase.advance] at h
    cases hstep : step ctx s with
    | running u =>
      rw [hstep] at h
      exact ih h
    | ended result u =>
      rw [hstep, Phase.advance_ended] at h
      cases h
      obtain ⟨rfl, hhalts⟩ := halts_of_step hstep
      exact hhalts

end Rounds

/-! ## What a round does -/

section Dealt

variable {ctx : Context σ α} {s t : State σ α} {e : Entry α}

/-- What the visit of an existing node leaves behind is a turn. -/
theorem Dealt.turn (h : Dealt ctx e s t) {node : Node α} (hnode : s.tree.get? e.node = some node) :
    Turn ctx e s.ledger t.ledger := by
  cases h with
  | visits hvisits => exact turn_of_visits hvisits
  | breaks hbreaks => exact turn_of_breaks hnode hbreaks

theorem Visits.expanded (h : Visits ctx e.node e.bound s t) (hsize : s.tree.size < t.tree.size) :
    ∃ node box a scoring, Asked ctx e.node s node box a scoring ∧ a.isOptimal = true ∧
      ctx.closedBy s.incumbent.objective a.objective = false ∧ ctx.tooDeep node.depth = false := by
  have hmodify : ∀ {g : Node α → Node α}, t.tree = s.tree.modify e.node g → False := by
    intro g htree
    rw [htree, Tree.size_modify] at hsize
    exact Nat.lt_irrefl _ hsize
  cases h with
  | branched hasked hoptimal hlearns hinteger hopen hdepth hinfeasibility hselect hpriorities hdown
      hup journal => exact ⟨_, _, _, _, hasked, hoptimal, hopen, hdepth⟩
  | @integer node box a scoring learned hasked hoptimal hlearns hinteger journal =>
    have hcore := core_offer ((s.solved node learned).record e.node node.depth .integer a.objective
      none) e.node a.x a.objective
    exact (hmodify (congrArg Core.tree hcore)).elim
  | _ => exact (hmodify rfl).elim

/-- A node that gets children had an optimum that did not close it, and was not too deep. -/
theorem Dealt.expanded (h : Dealt ctx e s t) (hsize : s.tree.size < t.tree.size) :
    ∃ node box a scoring, Asked ctx e.node s node box a scoring ∧ a.isOptimal = true ∧
      ctx.closedBy s.incumbent.objective a.objective = false ∧ ctx.tooDeep node.depth = false := by
  cases h with
  | visits hvisits => exact hvisits.expanded hsize
  | breaks hbreaks =>
    cases hbreaks with
    | missing hmissing => exact absurd hsize (Nat.lt_irrefl _)
    | unsolved hnode err scoring => exact absurd hsize (Nat.lt_irrefl _)
    | unbranched hasked hoptimal hlearns infeasibility err last =>
      have hsame : s.tree.size < (s.tree.modify e.node _).size := hsize
      rw [Tree.size_modify] at hsame
      exact absurd hsame (Nat.lt_irrefl _)
    | unreported hvisits => exact hvisits.expanded hsize

end Dealt

/-! ### The other nodes -/

section Grows

variable {ctx : Context σ α} {s t : Ledger α} {e : Entry α} {k : ℕ} {node : Node α}

/-- A node other than the one taken up is as it was, or it is new. -/
theorem Grows.get?_of_ne (h : Grows ctx e s t) (hk : k ≠ e.node)
    (hnode : t.tree.get? k = some node) : s.tree.get? k = some node ∨ node.status = .candidate := by
  cases h with
  | stays hg htree hfrontier =>
    rw [htree, Tree.get?_modify, if_neg hk.symm] at hnode
    exact .inl hnode
  | splits hg hnode' hpriorities hdown hup hfrontier hdepth =>
    rw [Tree.get?_children hnode' hdown hup] at hnode
    split at hnode
    · cases hnode
      exact .inr rfl
    · split at hnode
      · cases hnode
        exact .inr rfl
      · rw [Tree.get?_modify, if_neg hk.symm] at hnode
        exact .inl hnode

/-- No node but the one taken up gets children. -/
theorem Grows.children_of_ne (h : Grows ctx e s t) (hlinked : s.tree.Linked) (hk : k ≠ e.node) :
    t.tree.children k = s.tree.children k := by
  cases h with
  | stays hg htree hfrontier => rw [htree, Tree.children_modify hg]
  | splits hg hnode' hpriorities hdown hup hfrontier hdepth =>
    rw [Tree.children_children (hlinked.modify hg) hnode' hdown hup, if_neg hk, List.append_nil,
      Tree.children_modify hg]

/-- Where the node taken up gets children, the tree grows. -/
theorem Grows.size_lt (h : Grows ctx e s t) (hleaf : s.tree.children e.node = [])
    (hchildren : t.tree.children e.node ≠ []) : s.tree.size < t.tree.size := by
  cases h with
  | stays hg htree hfrontier =>
    rw [htree, Tree.children_modify hg] at hchildren
    exact absurd hleaf hchildren
  | splits hg hnode' hpriorities hdown hup hfrontier hdepth =>
    rw [Tree.size_children hdown hup, Tree.size_modify]
    omega

/-- The node taken up stays at its depth. -/
theorem Grows.depth_eq {before : Node α} (h : Grows ctx e s t)
    (hbefore : s.tree.get? e.node = some before) (hnode : t.tree.get? e.node = some node) :
    node.depth = before.depth := by
  have hmodify : ∀ {g : Node α → Node α}, KeepsPlace g →
      (s.tree.modify e.node g).get? e.node = some node → node.depth = before.depth := by
    intro g hg hget
    obtain ⟨old, hold, -, -, hdepth, -⟩ := Tree.exists_of_keepsPlace hg hget
    cases hbefore.symm.trans hold
    exact hdepth
  cases h with
  | stays hg htree hfrontier =>
    rw [htree] at hnode
    exact hmodify hg hnode
  | splits hg hnode' hpriorities hdown hup hfrontier hdepth =>
    rw [Tree.get?_children_of_lt hnode' hdown hup (Tree.get?_lt_size hnode')] at hnode
    exact hmodify hg hnode

/-- Where every node is looked at, none is pruned. -/
theorem Turn.pruned_eq (h : Turn ctx e s t) (hall : ctx.settings.enumerateAll = true) :
    t.pruned = s.pruned := by
  cases h with
  | pruned hnode hclosed => simp [Context.closedBy, hall] at hclosed
  | integer hnode x relax =>
    obtain ⟨-, -, -, hpruned, -⟩ := place_offer ((s.enter _).tell e.node .integer relax none)
      e.node x relax
    exact hpruned
  | _ => rfl

end Grows

/-! ## Searches -/

section Searches

variable {ctx : Context σ α} {s t : State σ α} {e : Entry α} {rest : Frontier α}

theorem Narrated.takesUp {taken : List (Entry α)} (h : Narrated ctx taken s.ledger)
    (htakes : TakesUp ctx e rest s t) : Narrated ctx (taken ++ [e]) t.ledger := by
  obtain ⟨node, hnode⟩ := h.orderly.exists_node htakes.pop?
  exact h.turn htakes.pop? (htakes.dealt.turn (s := { s with frontier := rest }) hnode)

/-- What every round keeps is true from a state on. A round may rely on the order of the nodes and
the events. -/
theorem holds_of_narrated {P : List (Round σ α) → State σ α → Prop} {taken : List (Entry α)}
    (hround : ∀ {done s t e rest}, Narrated ctx (taken ++ done.map Round.entry) s.ledger →
      P done s → TakesUp ctx e rest s t → P (done ++ [⟨e, { s with frontier := rest }, t⟩]) t)
    (h : Narrated ctx taken s.ledger) (hs : P [] s) (n : ℕ) :
    Narrated ctx (taken ++ (rounds ctx n s).map Round.entry)
        ((Phase.running s).advance ctx n).state.ledger ∧
      P (rounds ctx n s) ((Phase.running s).advance ctx n).state := by
  have hstart : Narrated ctx (taken ++ ([] : List (Round σ α)).map Round.entry) s.ledger ∧ P [] s := by
    rw [List.map_nil, List.append_nil]
    exact ⟨h, hs⟩
  refine holds_of_rounds (P := fun done s =>
    Narrated ctx (taken ++ done.map Round.entry) s.ledger ∧ P done s) ?_ n hstart
  rintro done s t e rest ⟨hnarrated, hs⟩ htakes
  refine ⟨?_, hround hnarrated hs htakes⟩
  rw [List.map_append, ← List.append_assoc]
  exact hnarrated.takesUp htakes

/-- What every round keeps is true at all times of a search. -/
theorem holds_of_search {P : List (Round σ α) → State σ α → Prop} {backend : σ}
    (hround : ∀ {done s t e rest}, Narrated ctx (done.map Round.entry) s.ledger → P done s →
      TakesUp ctx e rest s t → P (done ++ [⟨e, { s with frontier := rest }, t⟩]) t)
    (hstart : P [] (initial ctx backend)) (n : ℕ) :
    Narrated ctx ((rounds ctx n (initial ctx backend)).map Round.entry)
        ((Phase.running (initial ctx backend)).advance ctx n).state.ledger ∧
      P (rounds ctx n (initial ctx backend))
        ((Phase.running (initial ctx backend)).advance ctx n).state :=
  holds_of_narrated hround (narrated_initial ctx backend) hstart n

end Searches

end BranchBound.Search
