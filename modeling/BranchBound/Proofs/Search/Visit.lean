import BranchBound.Proofs.Search.Path
import BranchBound.Proofs.Search.Selection

/-!
# What a visit can do

A successful visit closes its node by its bound, closes it because there is no optimum, closes it
with an optimum that is integer or not worth branching on, or branches. Which of the five it is and
what becomes of the tree, the open nodes and the incumbent is all that most proofs need to know.

* `OnlyNotes`: computations that change nothing but the journal.
* `Visits`: the five ways a visit can end, with all that changes but the journal.
* `visits_of_runs_visit`: every successful visit ends in one of them.
* `Core`, `State.core`: tree, frontier and incumbent.
* `Visited`, `visited_of_runs_visit`: what the five ways do to the core.
* `Context.over`, `Visits.visited_over`: only the answers of the backend count.
* `Visited.extends`, `Visited.get?_of_ne`: every node keeps its place, and all but one stay as they
  are.
-/

namespace BranchBound.Search

open Relaxation

variable {σ α : Type} [Scalar α]

/-! ## Computations that only note something down -/

/-- A state with another journal. -/
def State.withJournal {α : Type} (s : State σ α) (journal : Array (Note α)) : State σ α :=
  { s with scoring := { s.scoring with journal } }

/-- A computation that leaves all but the journal as it is. -/
def OnlyNotes {α β : Type} (x : SearchM σ α β) : Prop :=
  ∀ s b t, Runs x s b t → ∃ journal, t = s.withJournal journal

section OnlyNotes

omit [Scalar α]

variable {β γ : Type} {x y : SearchM σ α β} {g : β → SearchM σ α γ}

theorem onlyNotes_pure (b : β) : OnlyNotes (pure b : SearchM σ α β) := by
  intro s c t h
  obtain ⟨-, rfl⟩ := runs_pure_iff.mp h
  exact ⟨s.scoring.journal, rfl⟩

theorem onlyNotes_throw (e : SolveError α) : OnlyNotes (throw e : SearchM σ α β) :=
  fun _ _ _ h => absurd h not_runs_throw

theorem onlyNotes_get : OnlyNotes (get : SearchM σ α (State σ α)) := by
  intro s b t h
  obtain ⟨-, rfl⟩ := runs_get_iff.mp h
  exact ⟨s.scoring.journal, rfl⟩

theorem onlyNotes_note (n : Note α) : OnlyNotes (note n : SearchM σ α Unit) := by
  intro s b t h
  exact ⟨s.scoring.journal.push n, (runs_note_iff.mp h).symm⟩

/-- Computations that only write notes may follow one another. -/
theorem onlyNotes_bind (hx : OnlyNotes x) (hg : ∀ b, OnlyNotes (g b)) : OnlyNotes (x >>= g) := by
  intro s c t h
  obtain ⟨b, u, hb, hc⟩ := runs_bind_iff.mp h
  obtain ⟨_, rfl⟩ := hx s b u hb
  obtain ⟨journal, rfl⟩ := hg b _ c t hc
  exact ⟨journal, rfl⟩

theorem onlyNotes_ite {c : Prop} [Decidable c] (hx : OnlyNotes x) (hy : OnlyNotes y) :
    OnlyNotes (if c then x else y) := by
  split
  · exact hx
  · exact hy

end OnlyNotes

/-- Reports of progress only write notes. -/
theorem onlyNotes_reportProgress (ctx : Context σ α) : OnlyNotes (reportProgress ctx) := by
  unfold reportProgress
  refine onlyNotes_ite (onlyNotes_bind onlyNotes_get fun s => ?_) (onlyNotes_pure _)
  refine onlyNotes_ite ?_ (onlyNotes_pure _)
  exact onlyNotes_ite (onlyNotes_bind (onlyNotes_throw _) fun _ => onlyNotes_ite (onlyNotes_note _)
    (onlyNotes_pure _)) (onlyNotes_ite (onlyNotes_note _) (onlyNotes_pure _))

/-- So does the remark on a node that is fathomed. -/
theorem onlyNotes_noteFathomed (ctx : Context σ α) (id depth : ℕ) (status : NodeStatus)
    (relax : α) : OnlyNotes (noteFathomed ctx id depth status relax) := by
  unfold noteFathomed
  have hearly : ∀ s : State σ α, OnlyNotes (if s.incumbent.hasPoint then pure ()
      else note (.fathomedEarly id) : SearchM σ α Unit) :=
    fun s => onlyNotes_ite (onlyNotes_pure _) (onlyNotes_note _)
  refine onlyNotes_ite (onlyNotes_bind onlyNotes_get fun s => ?_) (onlyNotes_pure _)
  exact onlyNotes_ite (onlyNotes_bind (onlyNotes_note _) fun _ => hearly s)
    (onlyNotes_bind (onlyNotes_note _) fun _ => hearly s)

/-! ## The five ways a visit ends -/

/-- The relaxation of a node that its bound did not close was answered, and what scoring knows
after that. -/
structure Asked (ctx : Context σ α) (id : ℕ) (s : State σ α) (node : Node α) (box : Box α)
    (a : Answer α) (scoring : Scoring σ α) : Prop where
  get? : s.tree.get? id = some node
  not_closed : ctx.closedBy s.incumbent.objective node.bound = false
  box? : s.tree.box? id ctx.rootBox = some box
  ask : Runs (Scoring.ask (Oracle.solveNode ctx.backend ctx.problem box)) s.scoring a scoring

/-- What scoring learns from the optimum of a node about the branch to it. -/
def Learns (node : Node α) (relax : α) (before after : Scoring σ α) : Prop :=
  match node.branch with
  | none => after = before
  | some branch => Runs (Scoring.learn branch node.bound relax) before () after

/-- The node was counted, and this is what scoring knows now. -/
def State.solved (s : State σ α) (node : Node α) (scoring : Scoring σ α) : State σ α :=
  { s.enter node.depth with scoring }

/-- The point a node is branched at. -/
def branchPoint (node : Node α) (box : Box α) (a : Answer α) : NodePoint α :=
  ⟨box, a.x, a.objective, node.depth⟩

/-- What a visit of node `id` can do to a state. -/
inductive Visits (ctx : Context σ α) (id : ℕ) (inherited : α) (s : State σ α) : State σ α → Prop
  /-- The node is closed by the bound it inherited. -/
  | pruned {node : Node α} (hnode : s.tree.get? id = some node)
      (hclosed : ctx.closedBy s.incumbent.objective node.bound = true) :
      Visits ctx id inherited s (s.prune id inherited)
  /-- The node has no optimum. -/
  | infeasible {node : Node α} {box : Box α} {a : Answer α} {scoring : Scoring σ α}
      (hasked : Asked ctx id s node box a scoring) (hnot : a.isOptimal = false)
      (journal : Array (Note α)) :
      Visits ctx id inherited s
        (((s.solved node scoring).closeInfeasible id node).withJournal journal)
  /-- The optimum of the node is integer. -/
  | integer {node : Node α} {box : Box α} {a : Answer α} {scoring learned : Scoring σ α}
      (hasked : Asked ctx id s node box a scoring) (hoptimal : a.isOptimal = true)
      (hlearns : Learns node a.objective scoring learned)
      (hinteger : ctx.problem.integerFeasible? a.x ctx.settings.integralityTol = some true)
      (journal : Array (Note α)) :
      Visits ctx id inherited s
        ((((s.solved node learned).record id node.depth .integer a.objective none).offer id a.x
          a.objective).withJournal journal)
  /-- The optimum of the node is fractional, and its value or its depth closes it. -/
  | fathomed {node : Node α} {box : Box α} {a : Answer α} {scoring learned : Scoring σ α}
      (hasked : Asked ctx id s node box a scoring) (hoptimal : a.isOptimal = true)
      (hlearns : Learns node a.objective scoring learned)
      (hinteger : ctx.problem.integerFeasible? a.x ctx.settings.integralityTol = some false)
      (hclosed : ctx.closedBy s.incumbent.objective a.objective = true ∨
        ctx.tooDeep node.depth = true)
      {infeasibility : Infeasibility α}
      (hinfeasibility : ctx.problem.infeasibility? a.x = some infeasibility)
      (journal : Array (Note α)) :
      Visits ctx id inherited s
        (((s.solved node learned).record id node.depth .fathomed a.objective
          (some infeasibility)).withJournal journal)
  /-- The node gets two children. -/
  | branched {node : Node α} {box : Box α} {a : Answer α} {scoring learned chosen : Scoring σ α}
      {c : Candidate α} {down up : α} {t u : State σ α}
      (hasked : Asked ctx id s node box a scoring) (hoptimal : a.isOptimal = true)
      (hlearns : Learns node a.objective scoring learned)
      (hinteger : ctx.problem.integerFeasible? a.x ctx.settings.integralityTol = some false)
      (hopen : ctx.closedBy s.incumbent.objective a.objective = false)
      (hdepth : ctx.tooDeep node.depth = false)
      {infeasibility : Infeasibility α}
      (hinfeasibility : ctx.problem.infeasibility? a.x = some infeasibility)
      {noted : Array (Note α)}
      (hselect : Runs (Scoring.select ctx.backend ctx.problem
        (Scoring.switchDepth ctx.problem.numVars) (branchPoint node box a))
        { learned with journal := noted } (some c) chosen)
      (hpriorities : childPriorities? ctx.settings.selection chosen.table node.depth
        (childBound ctx s.incumbent.objective a.objective) c = some (down, up))
      (hdown : ((s.solved node chosen).record id node.depth .candidate a.objective
        (some infeasibility)).addChild? id node.depth c.down down
        (childBound ctx s.incumbent.objective a.objective) = some t)
      (hup : t.addChild? id node.depth c.up up
        (childBound ctx s.incumbent.objective a.objective) = some u)
      (journal : Array (Note α)) : Visits ctx id inherited s (u.withJournal journal)

/-- Where nodes may be pruned, the children of a node are bounded by its optimum. -/
theorem childBound_eq {ctx : Context σ α} (hpruning : ctx.settings.enumerateAll = false)
    (incumbent relax : α) : childBound ctx incumbent relax = relax :=
  if_neg (ne_true_of_eq_false hpruning)

/-! ## Inversion -/

section Inversion

variable {ctx : Context σ α} {id : ℕ} {inherited : α} {s t : State σ α}

omit [Scalar α] in
/-- The journal takes no part in adding a child. -/
theorem addChild?_withJournal (s : State σ α) (journal : Array (Note α)) (parent depth : ℕ)
    (b : Branch α) (priority bound : α) :
    (s.withJournal journal).addChild? parent depth b priority bound
      = (s.addChild? parent depth b priority bound).map (·.withJournal journal) := by
  show (s.tree.addChild? parent b).map _ = ((s.tree.addChild? parent b).map _).map _
  rw [Option.map_map]
  rfl

omit [Scalar α] in
/-- What is recorded of a node does not depend on earlier notes. -/
theorem record_withJournal (s : State σ α) (journal : Array (Note α)) (id depth : ℕ)
    (status : NodeStatus) (relax : α) (infeasibility : Option (Infeasibility α)) :
    (s.withJournal journal).record id depth status relax infeasibility
      = (s.record id depth status relax infeasibility).withJournal
        (journal.push (.classified id depth status relax s.incumbent.objective)) :=
  rfl

/-- Whether a point is accepted does not depend on notes either. -/
theorem offer_withJournal (s : State σ α) (journal last : Array (Note α)) (id : ℕ) (x : List α)
    (objective : α) :
    ((s.withJournal journal).offer id x objective).withJournal last
      = (s.offer id x objective).withJournal last := by
  unfold State.offer
  show State.withJournal (if s.incumbent.improvedBy objective then _ else _) last = _
  split <;> rfl

/-- Branching chooses a candidate and adds both children. -/
theorem exists_of_runs_branch {node : NodePoint α} {bound : α} {b : Unit}
    (h : Runs (branch ctx id node bound) s b t) :
    ∃ c chosen down up u v, Runs (Scoring.select ctx.backend ctx.problem
        (Scoring.switchDepth ctx.problem.numVars) node) s.scoring (some c) chosen ∧
      childPriorities? ctx.settings.selection chosen.table node.depth bound c = some (down, up) ∧
      State.addChild? { s with scoring := chosen } id node.depth c.down down bound = some u ∧
      u.addChild? id node.depth c.up up bound = some v ∧ ∃ journal, t = v.withJournal journal := by
  unfold branch at h
  obtain ⟨choice, _, hscoring, h⟩ := runs_bind_iff.mp h
  obtain ⟨chosen, hselect, rfl⟩ := scoring_of_runs_onScoring hscoring
  cases choice with
  | none => exact absurd h not_runs_throw
  | some c =>
    obtain ⟨_, _, hnote, h⟩ := runs_bind_iff.mp h
    cases runs_note_iff.mp hnote
    obtain ⟨_, _, hget, h⟩ := runs_bind_iff.mp h
    obtain ⟨rfl, rfl⟩ := runs_get_iff.mp hget
    obtain ⟨⟨down, up⟩, _, hrange, h⟩ := runs_bind_iff.mp h
    obtain ⟨hpriorities, rfl⟩ := runs_inRange_iff.mp hrange
    obtain ⟨_, _, hfirst, h⟩ := runs_bind_iff.mp h
    obtain ⟨hdown, rfl⟩ := runs_inRange_iff.mp hfirst
    obtain ⟨_, _, hsecond, h⟩ := runs_bind_iff.mp h
    obtain ⟨hup, rfl⟩ := runs_inRange_iff.mp hsecond
    cases runs_set_iff.mp h
    -- the note about the choice is all that came between it and the children
    rw [show State.note _ _ = State.withJournal { s with scoring := chosen } _ from rfl,
      addChild?_withJournal] at hdown
    obtain ⟨u, hu, rfl⟩ := Option.map_eq_some_iff.mp hdown
    rw [addChild?_withJournal] at hup
    obtain ⟨v, hv, rfl⟩ := Option.map_eq_some_iff.mp hup
    exact ⟨c, chosen, down, up, u, v, hselect, hpriorities, hu, hv, _, rfl⟩

/-- A node with a fractional optimum is branched on, or its value or its depth closes it. -/
theorem classify_fractional (ctx : Context σ α) (depth : ℕ) (incumbent relax : α) :
    (ctx.classify false depth incumbent relax = .candidate ∧
        ctx.closedBy incumbent relax = false ∧ ctx.tooDeep depth = false) ∨
      (ctx.classify false depth incumbent relax = .fathomed ∧
        (ctx.closedBy incumbent relax = true ∨ ctx.tooDeep depth = true)) := by
  unfold Context.classify
  rw [if_neg Bool.false_ne_true]
  cases hclosed : ctx.closedBy incumbent relax with
  | true =>
    rw [if_pos rfl]
    exact .inr ⟨rfl, .inl rfl⟩
  | false =>
    rw [if_neg Bool.false_ne_true]
    cases hdeep : ctx.tooDeep depth with
    | true =>
      rw [if_pos rfl]
      exact .inr ⟨rfl, .inr rfl⟩
    | false =>
      rw [if_neg Bool.false_ne_true]
      exact .inl ⟨rfl, rfl, rfl⟩

/-- Going on from the optimum of a node records it, then offers it, closes the node or branches.
What is noted down afterwards makes no difference. -/
theorem visits_of_runs_settle {node : Node α} {box : Box α} {a : Answer α} {scoring : Scoring σ α}
    {b : Unit} (h : Runs (settle ctx id node box a) (s.solved node scoring) b t)
    (hasked : Asked ctx id s node box a scoring) (hoptimal : a.isOptimal = true)
    (journal : Array (Note α)) : Visits ctx id inherited s (t.withJournal journal) := by
  unfold settle at h
  extract_lets relax rest at h
  -- learning from the branch to this node changes what scoring knows, and nothing else
  have hrest : ∃ learned, Learns node a.objective scoring learned ∧
      Runs (rest ()) (s.solved node learned) () t := by
    unfold Learns
    cases hbranch : node.branch with
    | none =>
      rw [hbranch] at h
      exact ⟨scoring, rfl, h⟩
    | some branch =>
      rw [hbranch] at h
      obtain ⟨_, _, hscoring, h⟩ := runs_bind_iff.mp h
      obtain ⟨learned, hlearn, rfl⟩ := scoring_of_runs_onScoring hscoring
      exact ⟨learned, hlearn, h⟩
  clear h
  obtain ⟨learned, hlearns, h⟩ := hrest
  simp only [rest] at h
  obtain ⟨integer, _, hcheck, h⟩ := runs_bind_iff.mp h
  obtain ⟨hinteger, rfl⟩ := runs_inRange_iff.mp hcheck
  obtain ⟨_, _, hget, h⟩ := runs_bind_iff.mp h
  obtain ⟨rfl, rfl⟩ := runs_get_iff.mp hget
  obtain ⟨_, u, hnote, h⟩ := runs_bind_iff.mp h
  obtain ⟨noted, rfl⟩ := onlyNotes_noteFathomed _ _ _ _ _ _ _ _ hnote
  cases integer with
  | true =>
    simp only [if_true] at h
    obtain ⟨infeasibility, _, hpure, h⟩ := runs_bind_iff.mp h
    obtain ⟨rfl, rfl⟩ := runs_pure_iff.mp hpure
    obtain ⟨_, _, hrecord, h⟩ := runs_bind_iff.mp h
    cases runs_modify_iff.mp hrecord
    obtain ⟨_, _, hoffer, h⟩ := runs_bind_iff.mp h
    cases runs_modify_iff.mp hoffer
    rw [if_neg (show ctx.classify true _ _ _ ≠ .candidate from NodeStatus.noConfusion)] at h
    obtain ⟨-, rfl⟩ := runs_pure_iff.mp h
    rw [record_withJournal, offer_withJournal]
    exact .integer hasked hoptimal hlearns hinteger journal
  | false =>
    simp only [Bool.false_eq_true, if_false] at h
    obtain ⟨_, _, hcount, h⟩ := runs_bind_iff.mp h
    obtain ⟨infeasibility, hrange, rfl⟩ := runs_map_iff.mp hcount
    obtain ⟨hinfeasibility, rfl⟩ := runs_inRange_iff.mp hrange
    obtain ⟨_, _, hrecord, h⟩ := runs_bind_iff.mp h
    cases runs_modify_iff.mp hrecord
    rcases classify_fractional ctx node.depth s.incumbent.objective relax with
      ⟨hstatus, hopen, hdepth⟩ | ⟨hstatus, hclosed⟩
    · replace hstatus : ctx.classify false node.depth (s.solved node learned).incumbent.objective
        relax = .candidate := hstatus
      rw [hstatus, if_pos rfl] at h
      obtain ⟨_, _, hget, h⟩ := runs_bind_iff.mp h
      obtain ⟨rfl, rfl⟩ := runs_get_iff.mp hget
      obtain ⟨c, chosen, down, up, u, v, hselect, hpriorities, hdown, hup, last, rfl⟩ :=
        exists_of_runs_branch h
      replace hdown : (((s.solved node chosen).record id node.depth .candidate a.objective
          (some infeasibility)).withJournal chosen.journal).addChild? id node.depth c.down down
          (childBound ctx s.incumbent.objective a.objective) = some u := hdown
      rw [addChild?_withJournal] at hdown
      obtain ⟨u, hu, rfl⟩ := Option.map_eq_some_iff.mp hdown
      rw [addChild?_withJournal] at hup
      obtain ⟨v, hv, rfl⟩ := Option.map_eq_some_iff.mp hup
      exact .branched hasked hoptimal hlearns hinteger hopen hdepth hinfeasibility hselect
        hpriorities hu hv journal
    · replace hstatus : ctx.classify false node.depth (s.solved node learned).incumbent.objective
        relax = .fathomed := hstatus
      rw [hstatus, if_neg NodeStatus.noConfusion] at h
      obtain ⟨-, rfl⟩ := runs_pure_iff.mp h
      exact .fathomed hasked hoptimal hlearns hinteger hclosed hinfeasibility journal

/-- A visit that asks for the relaxation does one of the things a visit can do. -/
theorem visits_of_runs_expand {node : Node α} {b : Unit} (hnode : s.tree.get? id = some node)
    (hclosed : ctx.closedBy s.incumbent.objective node.bound = false)
    (h : Runs (expand ctx id node) s b t) : Visits ctx id inherited s t := by
  unfold expand at h
  obtain ⟨_, _, henter, h⟩ := runs_bind_iff.mp h
  cases runs_modify_iff.mp henter
  obtain ⟨_, _, hget, h⟩ := runs_bind_iff.mp h
  obtain ⟨rfl, rfl⟩ := runs_get_iff.mp hget
  obtain ⟨box, _, hrange, h⟩ := runs_bind_iff.mp h
  obtain ⟨hbox, rfl⟩ := runs_inRange_iff.mp hrange
  obtain ⟨a, _, hscoring, h⟩ := runs_bind_iff.mp h
  obtain ⟨scoring, hask, rfl⟩ := scoring_of_runs_onScoring hscoring
  have hasked : Asked ctx id s node box a scoring := ⟨hnode, hclosed, hbox, hask⟩
  cases hoptimal : a.isOptimal with
  | true =>
    rw [hoptimal, if_pos rfl] at h
    obtain ⟨_, u, hsettle, h⟩ := runs_bind_iff.mp h
    obtain ⟨journal, rfl⟩ := onlyNotes_reportProgress ctx _ _ _ h
    exact visits_of_runs_settle hsettle hasked hoptimal journal
  | false =>
    rw [hoptimal, if_neg Bool.false_ne_true] at h
    obtain ⟨_, u, hclose, h⟩ := runs_bind_iff.mp h
    cases runs_modify_iff.mp hclose
    obtain ⟨journal, rfl⟩ := onlyNotes_reportProgress ctx _ _ _ h
    exact .infeasible hasked hoptimal journal

/-- Every successful visit ends in one of five ways. -/
theorem visits_of_runs_visit {b : Unit} (h : Runs (visit ctx id inherited) s b t) :
    Visits ctx id inherited s t := by
  unfold visit at h
  obtain ⟨_, _, hget, h⟩ := runs_bind_iff.mp h
  obtain ⟨rfl, rfl⟩ := runs_get_iff.mp hget
  obtain ⟨node, _, hfound, h⟩ := runs_bind_iff.mp h
  obtain ⟨hnode, rfl⟩ := runs_inRange_iff.mp hfound
  split at h
  · rename_i hclosed
    cases runs_modify_iff.mp h
    exact .pruned hnode hclosed
  · rename_i hopen
    exact visits_of_runs_expand hnode (eq_false_of_ne_true hopen) h

end Inversion

/-! ## The core of a state -/

/-- What is known about the nodes: all of them, the open ones, and the best point. -/
structure Core (α : Type) where
  tree : Tree α
  frontier : Frontier α
  incumbent : Incumbent α

/-- The part of a state that decides what is still open. -/
def State.core {α : Type} (s : State σ α) : Core α := ⟨s.tree, s.frontier, s.incumbent⟩

omit [Scalar α] in
@[simp] theorem core_note (s : State σ α) (n : Note α) : (s.note n).core = s.core := rfl

omit [Scalar α] in
@[simp] theorem core_withJournal (s : State σ α) (journal : Array (Note α)) :
    (s.withJournal journal).core = s.core := rfl

@[simp] theorem core_offer (s : State σ α) (id : ℕ) (x : List α) (objective : α) :
    (s.offer id x objective).core
      = ⟨s.tree, s.frontier, s.incumbent.offer x objective⟩ := by
  unfold State.offer
  split
  · rfl
  · rename_i hworse
    rw [Incumbent.offer, if_neg hworse]
    rfl

/-- The backend answered the relaxation of node `id`. -/
structure Solved (ctx : Context σ α) (id : ℕ) (s : Core α) (node : Node α) (box : Box α)
    (a : Answer α) : Prop where
  get? : s.tree.get? id = some node
  box? : s.tree.box? id ctx.rootBox = some box
  answered : ∃ backend, (ctx.backend.solve ctx.problem box none backend).1.outcome = .ok a

/-- The tree after the optimum of a node was recorded. -/
def recorded (s : Core α) (id : ℕ) (relax : α) (status : NodeStatus)
    (infeasibility : Option (Infeasibility α)) : Tree α :=
  s.tree.modify id fun n => { n with bound := relax, status, infeasibility }

/-- What a visit of node `id` can do to the core of a state. -/
inductive Visited (ctx : Context σ α) (id : ℕ) (s : Core α) : Core α → Prop
  /-- The node is closed by the bound it inherited. -/
  | pruned {node : Node α} (hnode : s.tree.get? id = some node)
      (hclosed : ctx.closedBy s.incumbent.objective node.bound = true) :
      Visited ctx id s
        ⟨s.tree.modify id fun n => { n with status := .fathomed }, s.frontier, s.incumbent⟩
  /-- The node has no optimum. -/
  | infeasible {node : Node α} {box : Box α} {a : Answer α} (hsolved : Solved ctx id s node box a)
      (hnot : a.isOptimal = false) (infeasibility : Option (Infeasibility α)) :
      Visited ctx id s
        ⟨s.tree.modify id fun n => { n with status := .infeasible, infeasibility }, s.frontier,
          s.incumbent⟩
  /-- The optimum of the node is integer. -/
  | integer {node : Node α} {box : Box α} {a : Answer α} (hsolved : Solved ctx id s node box a)
      (hoptimal : a.isOptimal = true)
      (hinteger : ctx.problem.integerFeasible? a.x ctx.settings.integralityTol = some true)
      (infeasibility : Option (Infeasibility α)) :
      Visited ctx id s
        ⟨recorded s id a.objective .integer infeasibility, s.frontier,
          s.incumbent.offer a.x a.objective⟩
  /-- The optimum of the node is fractional, and its value or its depth closes it. -/
  | fathomed {node : Node α} {box : Box α} {a : Answer α} (hsolved : Solved ctx id s node box a)
      (hoptimal : a.isOptimal = true)
      (hinteger : ctx.problem.integerFeasible? a.x ctx.settings.integralityTol = some false)
      (hclosed : ctx.closedBy s.incumbent.objective a.objective = true ∨
        ctx.tooDeep node.depth = true) (infeasibility : Option (Infeasibility α)) :
      Visited ctx id s
        ⟨recorded s id a.objective .fathomed infeasibility, s.frontier, s.incumbent⟩
  /-- The node gets two children. -/
  | branched {node : Node α} {box : Box α} {a : Answer α} {c : Candidate α} {fs : List (ℕ × α)}
      {tree tree' : Tree α} (hsolved : Solved ctx id s node box a) (hoptimal : a.isOptimal = true)
      (hfs : ctx.problem.fractional? a.x = some fs) (hc : c.fraction ∈ fs)
      (infeasibility : Option (Infeasibility α))
      (hdown : (recorded s id a.objective .candidate infeasibility).addChild? id c.down = some tree)
      (hup : tree.addChild? id c.up = some tree') (priority priority' : α) :
      Visited ctx id s
        ⟨tree', (s.frontier.push s.tree.size priority
            (childBound ctx s.incumbent.objective a.objective)).push tree.size priority'
            (childBound ctx s.incumbent.objective a.objective), s.incumbent⟩


variable {ctx : Context σ α} {id : ℕ} {inherited : α} {s t : State σ α}

omit [Scalar α] in
/-- What an oracle answers about a node is what its backend answered. -/
theorem outcome_of_solveNode {B : Backend σ α} {p : Problem α} {box : Box α} {o : Oracle σ}
    {a : Answer α} (h : (Oracle.solveNode B p box o).1.outcome = .ok a) :
    (B.solve p box none o.backend).1.outcome = .ok a := by
  unfold Oracle.solveNode Oracle.call at h
  dsimp only at h
  split at h
  · cases h
  · rename_i b hb
    split at h
    · cases h
      exact hb
    · cases h

omit [Scalar α] in
/-- An answered request for the relaxation of a node was answered by the backend, in the state it
was in. -/
theorem outcome_of_runs_solveNode {box : Box α} {a : Answer α} {sc sc' : Scoring σ α}
    (h : Runs (Scoring.ask (Oracle.solveNode ctx.backend ctx.problem box)) sc a sc') :
    (ctx.backend.solve ctx.problem box none sc.oracle.backend).1.outcome = .ok a :=
  outcome_of_solveNode (Scoring.outcome_of_runs_ask h)

/-- The request of a visit, without its scoring. -/
theorem Asked.solved {node : Node α} {box : Box α} {a : Answer α} {scoring : Scoring σ α}
    (h : Asked ctx id s node box a scoring) : Solved ctx id s.core node box a :=
  ⟨h.get?, h.box?, _, outcome_of_runs_solveNode h.ask⟩

/-- The same search over another backend. -/
def Context.over {τ : Type} (ctx : Context σ α) (B : Backend τ α) : Context τ α :=
  ⟨ctx.problem, ctx.settings, B, ctx.clock⟩

/-- What a visit does to the core depends on the backend only through its answers, so it might have
been a visit over any backend that answers like this. -/
theorem Visits.visited_over {τ : Type} {B : Backend τ α} (h : Visits ctx id inherited s t)
    (hsolved : ∀ {node box a scoring}, Asked ctx id s node box a scoring →
      Solved (ctx.over B) id s.core node box a) : Visited (ctx.over B) id s.core t.core := by
  cases h with
  | pruned hnode hclosed => exact .pruned hnode hclosed
  | infeasible hasked hnot journal => exact .infeasible (hsolved hasked) hnot _
  | integer hasked hoptimal hlearns hinteger journal =>
    rw [core_withJournal, core_offer]
    exact .integer (hsolved hasked) hoptimal hinteger none
  | fathomed hasked hoptimal hlearns hinteger hclosed hinfeasibility journal =>
    exact .fathomed (hsolved hasked) hoptimal hinteger hclosed _
  | branched hasked hoptimal hlearns hinteger hopen hdepth hinfeasibility hselect hpriorities hdown
      hup journal =>
    obtain ⟨fs, hfs, hc⟩ := Scoring.fraction_mem_of_runs_select hselect
    obtain ⟨tree, htree, rfl⟩ := Option.map_eq_some_iff.mp hdown
    obtain ⟨tree', htree', rfl⟩ := Option.map_eq_some_iff.mp hup
    show Visited (ctx.over B) id s.core ⟨tree', (s.frontier.push
      (recorded s.core id _ _ _).size _ _).push tree.size _ _, s.incumbent⟩
    rw [recorded, Tree.size_modify]
    exact .branched (hsolved hasked) hoptimal hfs hc _ htree htree' _ _

/-- What a visit does to the tree, the open nodes and the incumbent. -/
theorem Visits.visited (h : Visits ctx id inherited s t) : Visited ctx id s.core t.core :=
  h.visited_over fun hasked => hasked.solved

/-- What every successful visit does to the core. -/
theorem visited_of_runs_visit {b : Unit} (h : Runs (visit ctx id inherited) s b t) :
    Visited ctx id s.core t.core :=
  (visits_of_runs_visit h).visited

/-! ## Places in the tree -/

section Recorded

omit [Scalar α]

variable (s : Core α) (id : ℕ) (relax : α) (status : NodeStatus)
  (infeasibility : Option (Infeasibility α))

/-- What is recorded of a node leaves every node in its place. -/
theorem extends_recorded : s.tree.Extends (recorded s id relax status infeasibility) :=
  Tree.extends_modify fun _ => ⟨rfl, rfl, rfl, rfl⟩

theorem size_recorded : (recorded s id relax status infeasibility).size = s.tree.size :=
  Tree.size_modify _ _ _

/-- The node itself shows what was recorded. -/
theorem get?_recorded {node : Node α} (hnode : s.tree.get? id = some node) :
    (recorded s id relax status infeasibility).get? id
      = some { node with bound := relax, status, infeasibility } := by
  rw [recorded, Tree.get?_modify, if_pos rfl, hnode, Option.map_some]

end Recorded

/-- A visit leaves every node in its place. -/
theorem Visited.extends {s t : Core α} (h : Visited ctx id s t) : s.tree.Extends t.tree := by
  cases h with
  | branched hsolved hoptimal hfs hc infeasibility hdown hup =>
    exact ((extends_recorded _ _ _ _ _).trans (Tree.extends_addChild? hdown)).trans
      (Tree.extends_addChild? hup)
  | _ => exact Tree.extends_modify fun _ => ⟨rfl, rfl, rfl, rfl⟩

/-- A visit changes no node but its own. -/
theorem Visited.get?_of_ne {s t : Core α} {k : ℕ} {other : Node α} (h : Visited ctx id s t)
    (hk : s.tree.get? k = some other) (hne : k ≠ id) : t.tree.get? k = some other := by
  have hkeep : ∀ g, (s.tree.modify id g).get? k = some other := by
    intro g
    rw [Tree.get?_modify, if_neg hne.symm]
    exact hk
  cases h with
  | branched hsolved hoptimal hfs hc infeasibility hdown hup =>
    rw [Tree.get?_children_of_lt (get?_recorded _ _ _ _ _ hsolved.get?) hdown hup]
    · exact hkeep _
    · rw [size_recorded]
      exact Tree.get?_lt_size hk
  | _ => exact hkeep _

/-- A visit takes no node from the open ones. -/
theorem Visited.mem_entries {s t : Core α} {e : Entry α} (h : Visited ctx id s t)
    (he : e ∈ s.frontier.entries) : e ∈ t.frontier.entries := by
  cases h with
  | branched => exact List.mem_append_left _ (List.mem_append_left _ he)
  | _ => exact he

end BranchBound.Search
