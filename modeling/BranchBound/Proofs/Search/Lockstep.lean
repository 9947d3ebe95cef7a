import BranchBound.Proofs.Search.Path
import BranchBound.Proofs.Search.Runs
import BranchBound.Search.Run

/-!
# Computations in lockstep

Two computations from related states give the same result, be it a value or an error, and end in
related states. Each way of building a computation has one lemma that couples it with its like, and
these couple whole visits and whole runs.

* `Coupled`: the relation between two computations.
* `coupled_bind`, `coupled_get_bind`, …: the monad.
* `coupled_onScoring`, …: the operations of scoring and search, for states that agree in all but
  scoring (`State.Agrees`).
* `coupled_visit`: visits, provided that choosing a variable and asking the oracle are coupled. The
  backends may be two different ones.
* `agrees_advance`: runs.
-/

namespace BranchBound

open Relaxation

/-- From related states two computations give equal results and end in related states. -/
def Coupled {ε σ τ β : Type} (R : σ → τ → Prop) (x : ExceptT ε (StateM σ) β)
    (y : ExceptT ε (StateM τ) β) : Prop :=
  ∀ s t, R s t → (x.run.run s).1 = (y.run.run t).1 ∧ R (x.run.run s).2 (y.run.run t).2

/-! ## The monad -/

section Monad

variable {ε σ τ β γ : Type} {R : σ → τ → Prop} {x : ExceptT ε (StateM σ) β}
  {y : ExceptT ε (StateM τ) β}

theorem coupled_pure (b : β) :
    Coupled R (pure b : ExceptT ε (StateM σ) β) (pure b : ExceptT ε (StateM τ) β) :=
  fun _ _ h => ⟨rfl, h⟩

/-- The same error ends both computations. -/
theorem coupled_throw (e : ε) :
    Coupled R (throw e : ExceptT ε (StateM σ) β) (throw e : ExceptT ε (StateM τ) β) :=
  fun _ _ h => ⟨rfl, h⟩

/-- What comes second is coupled for every value that the first can give. -/
theorem coupled_bind_of_runs {P : β → Prop} {g : β → ExceptT ε (StateM σ) γ}
    {h : β → ExceptT ε (StateM τ) γ} (hxy : Coupled R x y) (hP : ∀ s b u, Runs x s b u → P b)
    (hgh : ∀ b, P b → Coupled R (g b) (h b)) : Coupled R (x >>= g) (y >>= h) := by
  intro s t hst
  obtain ⟨hresult, hstates⟩ := hxy s t hst
  rw [run_bind, run_bind]
  rcases hx : x.run.run s with ⟨result, u⟩
  rcases hy : y.run.run t with ⟨result', v⟩
  rw [hx, hy] at hresult hstates
  obtain rfl : result = result' := hresult
  cases result with
  | error e => exact ⟨rfl, hstates⟩
  | ok b => exact hgh b (hP s b u hx) u v hstates

/-- Two steps are coupled if the first are, and the second for every value. -/
theorem coupled_bind {g : β → ExceptT ε (StateM σ) γ} {h : β → ExceptT ε (StateM τ) γ}
    (hxy : Coupled R x y) (hgh : ∀ b, Coupled R (g b) (h b)) : Coupled R (x >>= g) (y >>= h) :=
  coupled_bind_of_runs hxy (fun _ _ _ _ => trivial) fun b _ => hgh b

/-- What is done with a state that was read may rely on the states being related. -/
theorem coupled_get_bind {g : σ → ExceptT ε (StateM σ) γ} {h : τ → ExceptT ε (StateM τ) γ}
    (hgh : ∀ s t, R s t → Coupled R (g s) (h t)) : Coupled R (get >>= g) (get >>= h) :=
  fun s t hst => hgh s t hst s t hst

theorem coupled_modify {f : σ → σ} {g : τ → τ} (hfg : ∀ s t, R s t → R (f s) (g t)) :
    Coupled R (modify f : ExceptT ε (StateM σ) PUnit) (modify g : ExceptT ε (StateM τ) PUnit) :=
  fun s t hst => ⟨rfl, hfg s t hst⟩

theorem coupled_set {s : σ} {t : τ} (hst : R s t) :
    Coupled R (set s : ExceptT ε (StateM σ) PUnit) (set t : ExceptT ε (StateM τ) PUnit) :=
  fun _ _ _ => ⟨rfl, hst⟩

/-- A condition that both sides share chooses the same branch. -/
theorem coupled_ite {x' : ExceptT ε (StateM σ) β} {y' : ExceptT ε (StateM τ) β} {c : Prop}
    [Decidable c] (hxy : Coupled R x y) (hxy' : Coupled R x' y') :
    Coupled R (if c then x else x') (if c then y else y') := by
  split
  · exact hxy
  · exact hxy'

theorem coupled_map (f : β → γ) (hxy : Coupled R x y) : Coupled R (f <$> x) (f <$> y) := by
  rw [map_eq_pure_bind, map_eq_pure_bind]
  exact coupled_bind hxy fun b => coupled_pure (f b)

/-- Two passes over one list are coupled if their steps are. -/
theorem coupled_mapM {α : Type} {g : α → ExceptT ε (StateM σ) γ} {h : α → ExceptT ε (StateM τ) γ}
    (hgh : ∀ a, Coupled R (g a) (h a)) (l : List α) : Coupled R (l.mapM g) (l.mapM h) := by
  induction l with
  | nil =>
    rw [List.mapM_nil, List.mapM_nil]
    exact coupled_pure []
  | cons a l ih =>
    rw [List.mapM_cons, List.mapM_cons]
    exact coupled_bind (hgh a) fun b => coupled_bind ih fun bs => coupled_pure (b :: bs)

end Monad

/-! ## Operations of scoring and search -/

namespace Scoring

variable {σ τ α β : Type} {R : Scoring σ α → Scoring τ α → Prop}

/-- A look-up gives the same value or the same error on both sides. -/
theorem coupled_inRange (index : ℕ) (o : Option β) :
    Coupled R (inRange index o : ScoringM σ α β) (inRange index o : ScoringM τ α β) := by
  cases o with
  | none => exact coupled_throw _
  | some b => exact coupled_pure b

end Scoring

namespace Search

variable {σ τ α β : Type} {R : Scoring σ α → Scoring τ α → Prop}

/-- Two states agree in all but scoring, and scoring is related. -/
def State.Agrees (R : Scoring σ α → Scoring τ α → Prop) (s : State σ α) (t : State τ α) : Prop :=
  ∃ scoring, s = { t with scoring } ∧ R scoring t.scoring

theorem coupled_inRange (index : ℕ) (o : Option β) :
    Coupled (State.Agrees R) (inRange index o) (inRange index o) := by
  cases o with
  | none => exact coupled_throw _
  | some b => exact coupled_pure b

/-- Values that exist together and are related may be read in lockstep. -/
theorem coupled_inRange_bind {γ δ : Type} {S : State σ α → State τ α → Prop} {Q : β → γ → Prop}
    {o : Option β} {o' : Option γ} {g : β → SearchM σ α δ} {h : γ → SearchM τ α δ} (index : ℕ)
    (ho : Option.Rel Q o o') (hgh : ∀ b c, Q b c → Coupled S (g b) (h c)) :
    Coupled S (inRange index o >>= g) (inRange index o' >>= h) := by
  cases ho with
  | none => exact fun _ _ hst => ⟨rfl, hst⟩
  | some hbc => exact hgh _ _ hbc

/-- A child is added on both sides or on neither, since the trees are equal. -/
theorem State.Agrees.addChild? {s : State σ α} {t : State τ α} (h : s.Agrees R t) (parent depth : ℕ)
    (b : Branch α) (priority bound : α) :
    Option.Rel (State.Agrees R) (s.addChild? parent depth b priority bound)
      (t.addChild? parent depth b priority bound) := by
  obtain ⟨scoring, rfl, hscoring⟩ := h
  show Option.Rel _ ((t.tree.addChild? parent b).map _) ((t.tree.addChild? parent b).map _)
  cases t.tree.addChild? parent b with
  | none => exact .none
  | some tree => exact .some ⟨scoring, rfl, hscoring⟩

/-- A scoring computation only touches the part in which the states may differ. -/
theorem coupled_onScoring {x : ScoringM σ α β} {y : ScoringM τ α β} (hxy : Coupled R x y) :
    Coupled (State.Agrees R) (onScoring x) (onScoring y) := by
  rintro _ t ⟨scoring, rfl, hscoring⟩
  obtain ⟨hresult, hafter⟩ := hxy _ _ hscoring
  rw [run_onScoring, run_onScoring]
  exact ⟨hresult, _, rfl, hafter⟩

/-- Two runs are both going or ended with the same result, and their states agree. -/
inductive Phase.Agrees (R : Scoring σ α → Scoring τ α → Prop) : Phase σ α → Phase τ α → Prop
  | running {s : State σ α} {t : State τ α} (h : s.Agrees R t) : Agrees R (.running s) (.running t)
  | ended {result : Except (SolveError α) SolveStatus} {s : State σ α} {t : State τ α}
    (h : s.Agrees R t) : Agrees R (.ended result s) (.ended result t)

/-- What a run tells of its steps and of its result, counts of the work apart. -/
def Outcome.report (o : Outcome σ α) :
    Array (Event α) × Except (SolveError α) (SolveStatus × List α × α × α × α) :=
  (o.state.events,
    o.result.map fun sol => (sol.status, sol.x, sol.objective, sol.bound, sol.gap))

/-- The report of a run that stands like this at the end. -/
def Phase.report [Scalar α] (phase : Phase σ α) :
    Array (Event α) × Except (SolveError α) (SolveStatus × List α × α × α × α) :=
  let (result, s) := phase.outcome
  (s.events, result.map fun status =>
    (status, s.incumbent.point.getD [], s.incumbent.objective, s.bestBound,
      s.incumbent.gap s.bestBound))

/-- What a relation between scorings has to respect for visits to be coupled, the second ones over
another backend. -/
structure Respects [Scalar α] (ctx : Context σ α) (B : Backend τ α)
    (R : Scoring σ α → Scoring τ α → Prop) : Prop where
  journal : ∀ {s t} (j k : Array (Note α)), R s t →
    R { s with journal := j } { t with journal := k }
  table : ∀ {s t}, R s t → s.table = t.table
  learn : ∀ branch parent child,
    Coupled R (Scoring.learn branch parent child) (Scoring.learn branch parent child)
  ask : ∀ {box}, ctx.rootBox.Reaches box →
    Coupled R (Scoring.ask (Oracle.solveNode ctx.backend ctx.problem box))
      (Scoring.ask (Oracle.solveNode B ctx.problem box))
  select : ∀ {box a s t} (depth : ℕ), ctx.rootBox.Reaches box →
    Runs (Scoring.ask (Oracle.solveNode ctx.backend ctx.problem box)) s a t → a.isOptimal = true →
    Coupled R
      (Scoring.select ctx.backend ctx.problem (Scoring.switchDepth ctx.problem.numVars)
        ⟨box, a.x, a.objective, depth⟩)
      (Scoring.select B ctx.problem (Scoring.switchDepth ctx.problem.numVars)
        ⟨box, a.x, a.objective, depth⟩)

variable [Scalar α] {ctx : Context σ α} {B : Backend τ α} {s : State σ α} {t : State τ α}

/-- The same search under another rule, with a clock of its own. Of all a visit does, only the
reports depend on these. -/
def Context.under (ctx : Context σ α) (rule : BranchingRule α) (clock : ℕ → ℕ) : Context σ α :=
  { ctx with settings := ctx.settings.withRule rule, clock }

/-- The same search over another backend, with a rule, a limit on the nodes and a clock of its own.
A visit depends on none of the three, its reports apart. -/
def Context.variant (ctx : Context σ α) (B : Backend τ α) (rule : BranchingRule α) (maxNodes : ℕ)
    (clock : ℕ → ℕ) : Context τ α :=
  ⟨ctx.problem, { ctx.settings with rule, maxNodes }, B, clock⟩

omit [Scalar α] in
/-- The time is up in both of two states that agree, where there is no limit or the clock is the
same. -/
theorem timeIsUp_eq_of_agrees {clock : ℕ → ℕ}
    (htime : ctx.settings.timeLimit = none ∨ clock = ctx.clock) (h : s.Agrees R t)
    (rule : BranchingRule α) (maxNodes : ℕ) :
    timeIsUp (ctx.variant B rule maxNodes clock) t = timeIsUp ctx s := by
  obtain ⟨scoring, rfl, -⟩ := h
  unfold timeIsUp Context.variant
  rcases htime with htime | rfl
  · rw [htime]
    rfl
  · rfl

section Respects

variable (hR : Respects ctx B R)

include hR

/-! ## Changes of the state -/

/-- Notes are kept with scoring, so they may even differ. -/
theorem Respects.agrees_note (h : s.Agrees R t) (m n : Note α) :
    (s.note m).Agrees R (t.note n) := by
  obtain ⟨scoring, rfl, hscoring⟩ := h
  exact ⟨_, rfl, hR.journal _ _ hscoring⟩

/-- The fate of a node is written into a tree that both sides share. -/
theorem Respects.agrees_prune (h : s.Agrees R t) (id : ℕ) (inherited : α) :
    (s.prune id inherited).Agrees R (t.prune id inherited) := by
  obtain ⟨scoring, rfl, hscoring⟩ := h
  exact ⟨_, rfl, hR.journal _ _ hscoring⟩

theorem Respects.agrees_closeInfeasible (h : s.Agrees R t) (id : ℕ) (node : Node α) :
    (s.closeInfeasible id node).Agrees R (t.closeInfeasible id node) := by
  obtain ⟨scoring, rfl, hscoring⟩ := h
  exact ⟨_, rfl, hR.journal _ _ hscoring⟩

/-- What a relaxation says about a node is written into the shared tree as well. -/
theorem Respects.agrees_record (h : s.Agrees R t) (id depth : ℕ) (status : NodeStatus) (relax : α)
    (infeasibility : Option (Infeasibility α)) :
    (s.record id depth status relax infeasibility).Agrees R
      (t.record id depth status relax infeasibility) := by
  obtain ⟨scoring, rfl, hscoring⟩ := h
  exact ⟨_, rfl, hR.journal _ _ hscoring⟩

/-- The incumbent is shared, so both sides accept a point or neither does. -/
theorem Respects.agrees_offer (h : s.Agrees R t) (id : ℕ) (x : List α) (objective : α) :
    (s.offer id x objective).Agrees R (t.offer id x objective) := by
  obtain ⟨scoring, rfl, hscoring⟩ := h
  unfold State.offer
  split
  · exact ⟨_, rfl, hR.journal _ _ hscoring⟩
  · exact ⟨_, rfl, hscoring⟩

/-! ## Visits -/

theorem Respects.coupled_note (m n : Note α) :
    Coupled (State.Agrees R) (note m) (note n) :=
  coupled_modify fun _ _ h => hR.agrees_note h m n

/-- Reports of progress only write notes, and may differ in the averages they quote. -/
theorem Respects.coupled_reportProgress (rule : BranchingRule α) (maxNodes : ℕ) (clock : ℕ → ℕ) :
    Coupled (State.Agrees R) (reportProgress ctx)
      (reportProgress (ctx.variant B rule maxNodes clock)) := by
  unfold reportProgress
  refine coupled_ite (coupled_get_bind ?_) (coupled_pure _)
  rintro _ t ⟨scoring, rfl, hscoring⟩
  have hreport : ∀ m n : Note α, Coupled (State.Agrees R)
      (if t.processed % ctx.settings.logInterval = 0 then note m else pure () : SearchM σ α Unit)
      (if t.processed % ctx.settings.logInterval = 0 then note n else pure () : SearchM τ α Unit) :=
    fun m n => coupled_ite (hR.coupled_note m n) (coupled_pure _)
  refine coupled_ite ?_ (coupled_pure _)
  exact coupled_ite (coupled_bind (coupled_throw _) fun _ => hreport _ _) (hreport _ _)

theorem Respects.coupled_noteFathomed (rule : BranchingRule α) (maxNodes : ℕ) (clock : ℕ → ℕ)
    (id depth : ℕ) (status : NodeStatus) (relax : α) :
    Coupled (State.Agrees R) (noteFathomed ctx id depth status relax)
      (noteFathomed (ctx.variant B rule maxNodes clock) id depth status relax) := by
  unfold noteFathomed
  refine coupled_ite (coupled_get_bind ?_) (coupled_pure _)
  rintro _ t ⟨scoring, rfl, hscoring⟩
  have hearly : Coupled (State.Agrees R)
      (if t.incumbent.hasPoint then pure () else note (.fathomedEarly id) : SearchM σ α Unit)
      (if t.incumbent.hasPoint then pure () else note (.fathomedEarly id) : SearchM τ α Unit) :=
    coupled_ite (coupled_pure _) (hR.coupled_note _ _)
  exact coupled_ite (coupled_bind (hR.coupled_note _ _) fun _ => hearly)
    (coupled_bind (hR.coupled_note _ _) fun _ => hearly)

section Asked

-- an optimum of a box that branches lead to
variable {box : Box α} {a : Answer α} {before after : Scoring σ α}
  (hbox : ctx.rootBox.Reaches box)
  (hask : Runs (Scoring.ask (Oracle.solveNode ctx.backend ctx.problem box)) before a after)
  (hoptimal : a.isOptimal = true)

include hbox hask hoptimal

/-- Branching on the variable that both sides choose adds the same children. -/
theorem Respects.coupled_branch (rule : BranchingRule α) (maxNodes : ℕ) (clock : ℕ → ℕ)
    (id depth : ℕ) (bound : α) :
    Coupled (State.Agrees R) (branch ctx id ⟨box, a.x, a.objective, depth⟩ bound)
      (branch (ctx.variant B rule maxNodes clock) id ⟨box, a.x, a.objective, depth⟩ bound) := by
  unfold branch
  refine coupled_bind (coupled_onScoring (hR.select depth hbox hask hoptimal)) fun choice => ?_
  cases choice with
  | none => exact coupled_throw _
  | some c =>
    refine coupled_bind (hR.coupled_note _ _) fun _ => coupled_get_bind fun s t hst => ?_
    have htable : s.scoring.table = t.scoring.table := by
      obtain ⟨scoring, rfl, hscoring⟩ := hst
      exact hR.table hscoring
    rw [htable]
    refine coupled_bind (coupled_inRange _ _) fun priorities => ?_
    refine coupled_inRange_bind id (hst.addChild? id depth c.down priorities.1 bound) ?_
    intro s t hst
    refine coupled_inRange_bind id (hst.addChild? id depth c.up priorities.2 bound) ?_
    intro s t hst
    exact coupled_set hst

/-- An answer has the same consequences on both sides. -/
theorem Respects.coupled_settle (rule : BranchingRule α) (maxNodes : ℕ) (clock : ℕ → ℕ) (id : ℕ)
    (node : Node α) :
    Coupled (State.Agrees R) (settle ctx id node box a)
      (settle (ctx.variant B rule maxNodes clock) id node box a) := by
  unfold settle
  extract_lets relax rest rest'
  have hbranch : ∀ status : NodeStatus,
      Coupled (State.Agrees R)
        (if status = .candidate then do
            let s ← get
            branch ctx id ⟨box, a.x, relax, node.depth⟩ (childBound ctx s.incumbent.objective relax)
          else pure () : SearchM σ α Unit)
        (if status = .candidate then do
            let s ← get
            branch (ctx.variant B rule maxNodes clock) id ⟨box, a.x, relax, node.depth⟩
              (childBound ctx s.incumbent.objective relax)
          else pure () : SearchM τ α Unit) := by
    intro status
    refine coupled_ite (coupled_get_bind ?_) (coupled_pure _)
    rintro _ t ⟨scoring, rfl, -⟩
    exact hR.coupled_branch hbox hask hoptimal rule maxNodes clock id node.depth _
  have hrest : ∀ u, Coupled (State.Agrees R) (rest u) (rest' u) := by
    intro u
    refine coupled_bind (coupled_inRange _ _) fun integer => coupled_get_bind ?_
    rintro _ t ⟨scoring, rfl, -⟩
    refine coupled_bind (hR.coupled_noteFathomed rule maxNodes clock id node.depth _ relax)
      fun _ => ?_
    refine coupled_ite (coupled_bind (coupled_pure _) ?_)
      (coupled_bind (coupled_map _ (coupled_inRange _ _)) ?_)
    all_goals
      intro infeasibility
      refine coupled_bind (coupled_modify fun s t h => hR.agrees_record h _ _ _ _ _) fun _ => ?_
      exact coupled_ite
        (coupled_bind (coupled_modify fun s t h => hR.agrees_offer h _ _ _) fun _ => hbranch _)
        (hbranch _)
  cases node.branch with
  | none => exact hrest ()
  | some b => exact coupled_bind (coupled_onScoring (hR.learn b node.bound relax)) hrest

end Asked

/-- So has the visit of a node from its relaxation on. -/
theorem Respects.coupled_expand (rule : BranchingRule α) (maxNodes : ℕ) (clock : ℕ → ℕ) (id : ℕ)
    (node : Node α) :
    Coupled (State.Agrees R) (expand ctx id node)
      (expand (ctx.variant B rule maxNodes clock) id node) := by
  unfold expand
  refine coupled_bind (coupled_modify ?_) fun _ => coupled_get_bind ?_
  · rintro _ t ⟨scoring, rfl, hscoring⟩
    exact ⟨scoring, rfl, hscoring⟩
  rintro _ t ⟨scoring, rfl, -⟩
  refine coupled_bind_of_runs (P := (ctx.rootBox.Reaches ·)) (coupled_inRange _ _) ?_ ?_
  · intro s box u hbox
    exact Tree.reaches_of_box? (runs_inRange_iff.mp hbox).1
  intro box hbox
  refine coupled_bind_of_runs
    (P := fun a => ∃ before after,
      Runs (Scoring.ask (Oracle.solveNode ctx.backend ctx.problem box)) before a after)
    (coupled_onScoring (hR.ask hbox)) ?_ ?_
  · intro s a u ha
    obtain ⟨after, hask, -⟩ := scoring_of_runs_onScoring ha
    exact ⟨_, after, hask⟩
  rintro a ⟨before, after, hask⟩
  have hreport : ∀ _ : PUnit, _ := fun _ => hR.coupled_reportProgress rule maxNodes clock
  by_cases hoptimal : a.isOptimal = true
  · rw [if_pos hoptimal, if_pos hoptimal]
    exact coupled_bind (hR.coupled_settle hbox hask hoptimal rule maxNodes clock id node) hreport
  · rw [if_neg hoptimal, if_neg hoptimal]
    exact coupled_bind (coupled_modify fun s t h => hR.agrees_closeInfeasible h id node) hreport

/-- Visits from states that agree in all but scoring have the same result and end in such states. -/
theorem Respects.coupled_visit (rule : BranchingRule α) (maxNodes : ℕ) (clock : ℕ → ℕ) (id : ℕ)
    (inherited : α) :
    Coupled (State.Agrees R) (visit ctx id inherited)
      (visit (ctx.variant B rule maxNodes clock) id inherited) := by
  unfold visit
  refine coupled_get_bind ?_
  rintro _ t ⟨scoring, rfl, -⟩
  refine coupled_bind (coupled_inRange _ _) fun node => ?_
  exact coupled_ite (coupled_modify fun s t h => hR.agrees_prune h id inherited)
    (hR.coupled_expand rule maxNodes clock id node)

/-! ## Runs -/

/-- One visit from states that agree leads to states that agree, and both runs go on or both fail
there. -/
theorem Respects.agrees_take (h : s.Agrees R t) (rule : BranchingRule α) (maxNodes : ℕ)
    (clock : ℕ → ℕ) (e : Entry α) (rest : Frontier α) :
    Phase.Agrees R
      (match (visit ctx e.node e.bound).run.run { s with frontier := rest } with
        | (.ok (), u) => .running u
        | (.error err, u) => .ended (.error err) u)
      (match (visit (ctx.variant B rule maxNodes clock) e.node e.bound).run.run
          { t with frontier := rest } with
        | (.ok (), u) => .running u
        | (.error err, u) => .ended (.error err) u) := by
  obtain ⟨scoring, rfl, hscoring⟩ := h
  obtain ⟨hresult, hstates⟩ := hR.coupled_visit rule maxNodes clock e.node e.bound
    { t with scoring, frontier := rest } { t with frontier := rest } ⟨scoring, rfl, hscoring⟩
  revert hresult hstates
  rcases (visit ctx e.node e.bound).run.run { t with scoring, frontier := rest } with ⟨r, u⟩
  rcases (visit (ctx.variant B rule maxNodes clock) e.node e.bound).run.run
    { t with frontier := rest } with ⟨r', v⟩
  rintro rfl hstates
  cases r with
  | error e => exact .ended hstates
  | ok b => exact .running hstates

/-- With the same limit on the nodes, and without a time limit or with the same clock, one step from
states that agree leads to states that agree. -/
theorem Respects.agrees_step {clock : ℕ → ℕ}
    (htime : ctx.settings.timeLimit = none ∨ clock = ctx.clock) (rule : BranchingRule α)
    (h : s.Agrees R t) :
    (step ctx s).Agrees R (step (ctx.variant B rule ctx.settings.maxNodes clock) t) := by
  have htimeIsUp := timeIsUp_eq_of_agrees (B := B) htime h rule ctx.settings.maxNodes
  have htake := hR.agrees_take h rule ctx.settings.maxNodes clock
  unfold step
  rw [htimeIsUp]
  obtain ⟨scoring, rfl, hscoring⟩ := h
  dsimp only
  cases t.frontier.pop? with
  | none => exact .ended ⟨scoring, rfl, hscoring⟩
  | some popped =>
    obtain ⟨e, rest⟩ := popped
    dsimp only
    have hsame : (ctx.variant B rule ctx.settings.maxNodes clock).settings.maxNodes
        = ctx.settings.maxNodes := rfl
    rw [hsame]
    split
    · exact .ended ⟨scoring, rfl, hscoring⟩
    · split
      · exact .ended ⟨scoring, rfl, hscoring⟩
      · exact htake e rest

/-- Runs from states that agree stay in agreement for any number of steps. -/
theorem Respects.agrees_advance {clock : ℕ → ℕ}
    (htime : ctx.settings.timeLimit = none ∨ clock = ctx.clock) (rule : BranchingRule α) (n : ℕ)
    {p : Phase σ α} {q : Phase τ α} (h : p.Agrees R q) :
    (p.advance ctx n).Agrees R (q.advance (ctx.variant B rule ctx.settings.maxNodes clock) n) := by
  induction n generalizing p q with
  | zero => exact h
  | succ n ih =>
    cases h with
    | running h => exact ih (hR.agrees_step htime rule h)
    | ended h => exact .ended h

end Respects

omit [Scalar α] in
theorem events_foldl_note (notes : List (Note α)) (s : State σ α) :
    (notes.foldl State.note s).events = s.events := by
  induction notes generalizing s with
  | nil => rfl
  | cons n notes ih => exact ih (s.note n)

/-- What a run reports is read off how it stands at the end. -/
theorem report_search (ctx : Context σ α) (backend : σ) :
    (search ctx backend).report
      = ((Phase.running (initial ctx backend)).advance ctx (stepBound ctx.settings)).report := by
  unfold search Phase.report
  cases ((Phase.running (initial ctx backend)).advance ctx (stepBound ctx.settings)).outcome with
  | mk result s =>
    cases result with
    | error e => rfl
    | ok status =>
      unfold Outcome.report
      rw [events_foldl_note]
      rfl

/-- Phases that agree report the same. -/
theorem Phase.Agrees.report_eq {p : Phase σ α} {q : Phase τ α} (h : p.Agrees R q) :
    p.report = q.report := by
  cases h with
  | running h =>
    obtain ⟨scoring, rfl, -⟩ := h
    rfl
  | ended h =>
    obtain ⟨scoring, rfl, -⟩ := h
    rfl

/-- Without a time limit, runs from states that agree report the same. -/
theorem Respects.report_search_eq {R : Scoring σ α → Scoring σ α → Prop}
    (hR : Respects ctx ctx.backend R) (htime : ctx.settings.timeLimit = none)
    {rule : BranchingRule α} {clock : ℕ → ℕ} {backend : σ}
    (h : (initial ctx backend).Agrees R (initial (ctx.under rule clock) backend)) :
    (search ctx backend).report = (search (ctx.under rule clock) backend).report := by
  rw [report_search, report_search]
  exact (hR.agrees_advance (.inl htime) rule (stepBound ctx.settings) (.running h)).report_eq

end Search

end BranchBound
