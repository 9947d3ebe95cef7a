import BranchBound.Proofs.Search.Delivers
import BranchBound.Proofs.Search.Termination
import BranchBound.Proofs.Search.ZeroOne

/-!
# Searches that succeed

Over a backend that answers every request in a usable box, no computation of a search fails: every
index it uses exists, the box of every node is usable, and where it branches there is a variable to
branch on. So a search with an interval between its reports ends with a solution.

* `Stuck`: the one way a visit can fail, where an optimum is not integer and yet not fractional.
* `Ready`, `exists_runs_settle`: what a visit keeps, and that going on from an optimum succeeds.
* `Visitable`, `exists_runs_visit`, `not_stuck`: visits succeed.
* `exists_visitable`: every open node can be visited.
* `Phase.Sound`, `sound_of_run`, `search_succeeds`: runs and searches succeed.
-/

namespace BranchBound

open Relaxation

/-! ## Visits -/

namespace Search

variable {σ : Type} {P : σ → Prop} {ctx : Context σ ExtRat} {id : ℕ}

/-- Scoring is fit, and a node exists. -/
structure Ready (ctx : Context σ ExtRat) (P : σ → Prop) (id : ℕ) (s : State σ ExtRat) : Prop where
  scoring : s.scoring.Fit ctx.problem.numVars P
  exists_node : id < s.tree.size

theorem delivers_inRange {α β : Type} {I : State σ α → Prop} {R : β → Prop} {index : ℕ}
    {o : Option β} (h : ∃ b, o = some b ∧ R b) :
    Delivers I (inRange index o : SearchM σ α β) R := by
  obtain ⟨b, rfl, hb⟩ := h
  exact delivers_pure hb

theorem delivers_onScoring {β : Type} {act : ScoringM σ ExtRat β} {R : β → Prop}
    (h : Delivers (Scoring.Fit ctx.problem.numVars P) act R) :
    Delivers (Ready ctx P id) (onScoring act) R := by
  intro s hs
  obtain ⟨b, scoring, hrun, hfit, hb⟩ := h s.scoring hs.scoring
  have hrun' := run_onScoring act s
  rw [hrun] at hrun'
  exact ⟨b, _, hrun', ⟨hfit, hs.exists_node⟩, hb⟩

/-- Notes change neither scoring nor the tree. -/
theorem delivers_of_onlyNotes {β : Type} {x : SearchM σ ExtRat β} (hx : OnlyNotes x)
    (hnot : ∀ s e t, ¬ Fails x s e t) : Delivers (Ready ctx P id) x fun _ => True := by
  intro s hs
  cases hrun : x.run.run s with
  | mk result t =>
    cases result with
    | error e => exact absurd hrun (hnot s e t)
    | ok b =>
      obtain ⟨journal, rfl⟩ := hx s b t hrun
      exact ⟨b, _, hrun, ⟨⟨hs.scoring.table, hs.scoring.backend⟩, hs.exists_node⟩, trivial⟩

theorem delivers_note (n : Note ExtRat) :
    Delivers (Ready ctx P id) (note n : SearchM σ ExtRat Unit) fun _ => True :=
  delivers_of_onlyNotes (onlyNotes_note n) fun _ _ _ => not_fails_note

/-- Where there is an interval between reports, no report fails. -/
theorem delivers_reportProgress (hlog : ctx.settings.logInterval ≠ 0) :
    Delivers (Ready ctx P id) (reportProgress ctx) fun _ => True := by
  unfold reportProgress
  refine delivers_ite (fun _ => delivers_bind delivers_get fun s _ => ?_) fun _ =>
    delivers_pure trivial
  refine delivers_ite (fun _ => ?_) fun _ => delivers_pure trivial
  rw [if_neg hlog]
  exact delivers_ite (fun _ => delivers_note _) fun _ => delivers_pure trivial

theorem Ready.record {s : State σ ExtRat} (hs : Ready ctx P id s) (k depth : ℕ)
    (status : NodeStatus) (relax : ExtRat) (infeasibility : Option (Infeasibility ExtRat)) :
    Ready ctx P id (s.record k depth status relax infeasibility) :=
  ⟨⟨hs.scoring.table, hs.scoring.backend⟩,
    lt_of_lt_of_eq hs.exists_node (Tree.size_modify _ _ _).symm⟩

theorem Ready.offer {s : State σ ExtRat} (hs : Ready ctx P id s) (k : ℕ) (x : List ExtRat)
    (objective : ExtRat) : Ready ctx P id (s.offer k x objective) := by
  unfold State.offer
  split
  · exact ⟨⟨hs.scoring.table, hs.scoring.backend⟩, hs.exists_node⟩
  · exact hs

theorem Ready.closeInfeasible {s : State σ ExtRat} (hs : Ready ctx P id s) (k : ℕ)
    (node : Node ExtRat) : Ready ctx P id (s.closeInfeasible k node) :=
  ⟨⟨hs.scoring.table, hs.scoring.backend⟩,
    lt_of_lt_of_eq hs.exists_node (Tree.size_modify _ _ _).symm⟩

/-- A node that exists can be given a child. -/
theorem Ready.exists_addChild? {s : State σ ExtRat} (hs : Ready ctx P id s) (depth : ℕ)
    (b : Branch ExtRat) (priority bound : ExtRat) :
    ∃ t, s.addChild? id depth b priority bound = some t ∧ Ready ctx P id t := by
  unfold State.addChild?
  cases htree : s.tree.addChild? id b with
  | none => exact absurd hs.exists_node (Nat.not_lt.mpr (Tree.addChild?_eq_none_iff.mp htree))
  | some tree =>
    refine ⟨_, rfl, ⟨hs.scoring.table, hs.scoring.backend⟩, ?_⟩
    exact lt_of_lt_of_eq (Nat.lt_succ_of_lt hs.exists_node) (Tree.size_addChild? htree).symm

theorem exists_childPriorities? {n : ℕ} {table : PseudocostTable ExtRat} (ht : table.Covers n)
    {c : Candidate ExtRat} (hc : Splits n c.fraction) (selection : NodeSelection) (depth : ℕ)
    (bound : ExtRat) : ∃ priorities, childPriorities? selection table depth bound c
      = some priorities := by
  cases selection with
  | depthFirst => exact ⟨_, rfl⟩
  | bestFirst => exact ⟨_, rfl⟩
  | bestEstimate =>
    obtain ⟨gains, hgains⟩ := ht.exists_gains? hc.var c.value
    exact ⟨_, congrArg (Option.map _) hgains⟩

/-- Fractional variables can be branched on. -/
theorem splits_of_mem_fractional? {p : Problem ExtRat} (hp : p.WellFormed) {x : List ExtRat}
    {fs : List (ℕ × ExtRat)} (hfs : p.fractional? x = some fs) {f : ℕ × ExtRat} (hf : f ∈ fs) :
    Splits p.numVars f := by
  obtain ⟨hvar, -, hfrac⟩ := Problem.fractional?_spec hfs hf
  obtain ⟨a, ha, -⟩ := exists_fin_of_fractional hfrac
  exact ⟨hp.lt_numVars hvar, by rw [ha]; rfl⟩

/-- What a visit relies on: the node exists, its box is usable, and so is the branch to it. -/
structure Visitable (ctx : Context σ ExtRat) (tree : Tree ExtRat) (id : ℕ) (node : Node ExtRat)
    (box : Box ExtRat) : Prop where
  get? : tree.get? id = some node
  box? : tree.box? id ctx.rootBox = some box
  usable : box.Usable ctx.problem.numVars
  branch : ∀ b, node.branch = some b → b.var < ctx.problem.numVars

/-- An optimum gives a value to every variable. -/
theorem length_of_wellFormed {p : Problem ExtRat} {a : Answer ExtRat}
    (hwell : Oracle.wellFormed p a = true) (hoptimal : a.isOptimal = true) :
    a.x.length = p.numVars := by
  unfold Oracle.wellFormed at hwell
  rw [Answer.hasBound_of_isOptimal hoptimal] at hwell
  exact of_decide_eq_true hwell

/-- A node is stuck where its optimum is neither integer nor closed, by its value or its depth, but
no integer variable counts as fractional. -/
def Stuck (ctx : Context σ ExtRat) (id : ℕ) (s : State σ ExtRat) : Prop :=
  ∃ node box a scoring, Asked ctx id s node box a scoring ∧ a.isOptimal = true ∧
    ctx.problem.integerFeasible? a.x ctx.settings.integralityTol = some false ∧
    ctx.closedBy s.incumbent.objective a.objective = false ∧ ctx.tooDeep node.depth = false ∧
    ctx.problem.fractional? a.x = some []

section Visits

variable {tol : ExtRat} (hB : ctx.backend.Dependable ctx.problem tol P)

include hB

/-- A node with a fractional variable gets its two children. -/
theorem delivers_branch {node : NodePoint ExtRat} (hbox : node.box.Usable ctx.problem.numVars)
    {fs : List (ℕ × ExtRat)} (hx : ctx.problem.fractional? node.x = some fs) (hne : fs ≠ [])
    (hfs : ∀ f ∈ fs, Splits ctx.problem.numVars f) (bound : ExtRat) :
    Delivers (Ready ctx P id) (branch ctx id node bound) fun _ => True := by
  unfold branch
  refine delivers_bind (delivers_onScoring (Scoring.delivers_select hB.replies hbox _ hx hne hfs)) ?_
  rintro _ ⟨c, rfl, hc⟩
  refine delivers_bind (delivers_note _) fun _ _ => ?_
  refine delivers_bind delivers_get fun s hs => ?_
  obtain ⟨priorities, hpriorities⟩ := exists_childPriorities? hs.scoring.table hc
    ctx.settings.selection node.depth bound
  refine delivers_bind (delivers_inRange ⟨priorities, hpriorities, rfl⟩) fun _ _ => ?_
  refine delivers_bind (delivers_inRange (hs.exists_addChild? _ _ _ _)) fun t ht => ?_
  refine delivers_bind (delivers_inRange (ht.exists_addChild? _ _ _ _)) fun u hu => ?_
  exact delivers_set hu

/-- Going on from the optimum of a node succeeds, if every variable has a value and an optimum that
is neither integer nor closed has a fractional variable. -/
theorem exists_runs_settle (hp : ctx.problem.WellFormed) {node : Node ExtRat} {box : Box ExtRat}
    {a : Answer ExtRat} {s : State σ ExtRat} (hs : Ready ctx P id s)
    (hbox : box.Usable ctx.problem.numVars)
    (hbranch : ∀ b, node.branch = some b → b.var < ctx.problem.numVars)
    (hlength : a.x.length = ctx.problem.numVars)
    (hfractional : ctx.problem.integerFeasible? a.x ctx.settings.integralityTol = some false →
      ctx.closedBy s.incumbent.objective a.objective = false → ctx.tooDeep node.depth = false →
      ctx.problem.fractional? a.x ≠ some []) :
    ∃ t, Runs (settle ctx id node box a) s () t ∧ Ready ctx P id t := by
  have hvars := hp.lt_length hlength
  obtain ⟨integer, hinteger⟩ : ∃ integer, ctx.problem.integerFeasible? a.x
      ctx.settings.integralityTol = some integer := Problem.exists_wholeAt? hvars
  obtain ⟨fs, hfs, -⟩ := Problem.exists_fractional? hvars
  unfold settle
  extract_lets relax rest
  -- what is left after learning from the branch to this node, which changes only scoring
  have hrest : ∀ {u : State σ ExtRat}, Ready ctx P id u → u.incumbent = s.incumbent →
      ∃ t, Runs (rest ()) u () t ∧ Ready ctx P id t := by
    intro u hu hincumbent
    simp only [rest]
    refine exists_runs_bind (runs_inRange_iff.mpr ⟨hinteger, rfl⟩) ?_
    refine exists_runs_bind (runs_get_iff.mpr ⟨rfl, rfl⟩) ?_
    refine (delivers_bind (delivers_of_onlyNotes (onlyNotes_noteFathomed _ _ _ _ _)
      fun _ _ _ => not_fails_noteFathomed) fun _ _ => ?_).exists_runs hu
    cases integer with
    | true =>
      simp only [if_true]
      refine delivers_bind (delivers_pure rfl) ?_
      rintro _ rfl
      refine delivers_bind (delivers_modify fun _ hs => hs.record _ _ _ _ _) fun _ _ => ?_
      refine delivers_bind (delivers_modify fun _ hs => hs.offer _ _ _) fun _ _ => ?_
      rw [if_neg (show ctx.classify true _ _ _ ≠ .candidate from NodeStatus.noConfusion)]
      exact delivers_pure trivial
    | false =>
      simp only [Bool.false_eq_true, if_false]
      have hcount : ctx.problem.infeasibility? a.x = some _ := congrArg (Option.map _) hfs
      refine delivers_bind (delivers_map (Q := fun _ => True)
        (delivers_inRange ⟨_, hcount, trivial⟩)) fun _ _ => ?_
      refine delivers_bind (delivers_modify fun _ hs => hs.record _ _ _ _ _) fun _ _ => ?_
      refine delivers_ite (fun hstatus => delivers_bind delivers_get fun _ _ => ?_) fun _ =>
        delivers_pure trivial
      have hne : fs ≠ [] := by
        rw [hincumbent] at hstatus
        rcases classify_fractional ctx node.depth s.incumbent.objective relax with
          ⟨-, hopen, hdepth⟩ | ⟨hclosed, -⟩
        · rintro rfl
          exact hfractional hinteger hopen hdepth hfs
        · rw [hstatus] at hclosed
          cases hclosed
      exact delivers_branch hB hbox hfs hne (fun f hf => splits_of_mem_fractional? hp hfs hf) _
  cases hnode : node.branch with
  | none => exact hrest hs rfl
  | some b =>
    obtain ⟨⟨⟩, u, hrun, hu, -⟩ :=
      delivers_onScoring (Scoring.delivers_learn (hbranch b hnode) node.bound relax) s hs
    obtain ⟨learned, -, rfl⟩ := scoring_of_runs_onScoring hrun
    exact exists_runs_bind hrun (hrest hu rfl)

theorem exists_runs_expand (hp : ctx.problem.WellFormed) (hlog : ctx.settings.logInterval ≠ 0)
    {s : State σ ExtRat} {node : Node ExtRat} {box : Box ExtRat}
    (hv : Visitable ctx s.tree id node box) (hs : s.scoring.Fit ctx.problem.numVars P)
    (hclosed : ctx.closedBy s.incumbent.objective node.bound = false) (hstuck : ¬ Stuck ctx id s) :
    ∃ t, Runs (expand ctx id node) s () t ∧ Ready ctx P id t := by
  unfold expand
  refine exists_runs_bind (b := ⟨⟩) (runs_modify_iff.mpr rfl) ?_
  refine exists_runs_bind (runs_get_iff.mpr ⟨rfl, rfl⟩) ?_
  refine exists_runs_bind (runs_inRange_iff.mpr ⟨hv.box?, rfl⟩) ?_
  have hentered : Ready ctx P id (s.enter node.depth) := ⟨hs, Tree.get?_lt_size hv.get?⟩
  obtain ⟨a, _, hrun, hu, hwell, -⟩ :=
    delivers_onScoring (Scoring.delivers_solveNode hB.replies hv.usable) _ hentered
  refine exists_runs_bind hrun ?_
  obtain ⟨scoring, hask, rfl⟩ := scoring_of_runs_onScoring hrun
  by_cases hoptimal : a.isOptimal = true
  · rw [if_pos hoptimal]
    obtain ⟨t, hsettle, ht⟩ := exists_runs_settle hB hp hu hv.usable hv.branch
      (length_of_wellFormed hwell hoptimal) fun hinteger hopen hdepth hfs =>
        hstuck ⟨node, box, a, scoring, ⟨hv.get?, hclosed, hv.box?, hask⟩, hoptimal, hinteger, hopen,
          hdepth, hfs⟩
    exact exists_runs_bind hsettle ((delivers_reportProgress hlog).exists_runs ht)
  · rw [if_neg hoptimal]
    refine exists_runs_bind (b := ⟨⟩) (runs_modify_iff.mpr rfl) ?_
    exact (delivers_reportProgress hlog).exists_runs (hu.closeInfeasible _ _)

/-- A visit of a node that is in order and not stuck succeeds. -/
theorem exists_runs_visit (hp : ctx.problem.WellFormed) (hlog : ctx.settings.logInterval ≠ 0)
    {s : State σ ExtRat} {node : Node ExtRat} {box : Box ExtRat}
    (hv : Visitable ctx s.tree id node box) (hs : s.scoring.Fit ctx.problem.numVars P)
    (hstuck : ¬ Stuck ctx id s) (inherited : ExtRat) :
    ∃ t, Runs (visit ctx id inherited) s () t ∧ Ready ctx P id t := by
  unfold visit
  refine exists_runs_bind (runs_get_iff.mpr ⟨rfl, rfl⟩) ?_
  refine exists_runs_bind (runs_inRange_iff.mpr ⟨hv.get?, rfl⟩) ?_
  split
  · refine ⟨_, runs_modify_iff.mpr rfl, ⟨hs.table, hs.backend⟩, ?_⟩
    exact lt_of_lt_of_eq (Tree.get?_lt_size hv.get?) (Tree.size_modify _ _ _).symm
  · rename_i hopen
    exact exists_runs_expand hB hp hlog hv hs (eq_false_of_ne_true hopen) hstuck

end Visits

/-- Over a backend that is dependable for the tolerance of the search, no node is stuck. -/
theorem not_stuck (hB : ctx.backend.Dependable ctx.problem ctx.settings.integralityTol P)
    {s : State σ ExtRat} {node : Node ExtRat} {box : Box ExtRat}
    (hv : Visitable ctx s.tree id node box) (hs : s.scoring.Fit ctx.problem.numVars P) :
    ¬ Stuck ctx id s := by
  rintro ⟨node', box', a, scoring, hasked, hoptimal, hinteger, -, -, hfs⟩
  cases hv.box?.symm.trans hasked.box?
  exact hB.fractional hv.usable hs.backend (outcome_of_runs_solveNode hasked.ask) hoptimal hinteger
    hfs rfl

/-! ## Runs -/

/-- The branch to a node is on its path. -/
theorem mem_path_of_branch {tree : Tree ExtRat} {node : Node ExtRat} {bs : List (Branch ExtRat)}
    {b : Branch ExtRat} (hpath : tree.Path id bs) (hlinked : tree.Linked)
    (hnode : tree.get? id = some node) (hb : node.branch = some b) : b ∈ bs := by
  cases hpath with
  | root hnode' hid hdepth =>
    cases hnode.symm.trans hnode'
    -- a node at no depth is the first one, which has no branch
    cases id with
    | zero =>
      rw [(hlinked.root hnode).2.2] at hb
      cases hb
    | succ k =>
      obtain ⟨_, above, _, -, -, -, hbelow, -⟩ := hlinked.child hnode
      omega
  | child hnode' hid hparent hbranch =>
    cases hnode.symm.trans hnode'
    cases hb.symm.trans hbranch
    exact List.mem_cons_self

/-- Every open node of a search can be visited. -/
theorem exists_visitable (hp : ctx.problem.WellFormed) {backend : σ} {n : ℕ} {s : State σ ExtRat}
    {e : Entry ExtRat} {rest : Frontier ExtRat}
    (h : (Phase.running (initial ctx backend)).advance ctx n = .running s)
    (hpop : s.frontier.pop? = some (e, rest)) :
    ∃ node box, Visitable ctx s.tree e.node node box := by
  have hnarrated := narrated_of_run ctx backend n
  rw [h] at hnarrated
  obtain ⟨node, hnode⟩ := hnarrated.orderly.exists_node hpop
  have hbranches : Branches ctx fun bs => ∀ b ∈ bs, b.Usable ctx.problem.numVars := by
    intro s id node box a fs bs c hsolved hoptimal hfs hc hpath hbs
    have hsplits := splits_of_mem_fractional? hp hfs hc
    exact ⟨List.forall_mem_cons.mpr ⟨hsplits.down, hbs⟩,
      List.forall_mem_cons.mpr ⟨hsplits.up, hbs⟩⟩
  obtain ⟨bs, hpath, hbs⟩ := forall_path_of_grown (fun b hb => (List.not_mem_nil hb).elim)
    hbranches (grown_of_reachable (reachable_of_advance h)) e.node node hnode
  obtain ⟨box, hbox, husable⟩ := (Box.usable_root hp ctx.settings.binaryVars).exists_replay? hbs
  refine ⟨node, box, hnode, (hpath.box?_eq hnode _).trans hbox, husable, ?_⟩
  intro b hb
  exact (hbs b (mem_path_of_branch hpath hnarrated.orderly.placed.linked hnode hb)).var

/-- A run that has not failed, in a state whose scoring is fit. -/
inductive Phase.Sound (ctx : Context σ ExtRat) (P : σ → Prop) : Phase σ ExtRat → Prop
  | running {s : State σ ExtRat} (hs : s.scoring.Fit ctx.problem.numVars P) : Sound ctx P (.running s)
  | ended {s : State σ ExtRat} (status : SolveStatus)
      (hs : s.scoring.Fit ctx.problem.numVars P) : Sound ctx P (.ended (.ok status) s)

section Run

variable (hB : ctx.backend.Dependable ctx.problem ctx.settings.integralityTol P)
  (hp : ctx.problem.WellFormed) (hlog : ctx.settings.logInterval ≠ 0)

include hB hp hlog

/-- A step of a search does not fail. -/
theorem sound_step {backend : σ} {n : ℕ} {s : State σ ExtRat}
    (h : (Phase.running (initial ctx backend)).advance ctx n = .running s)
    (hs : s.scoring.Fit ctx.problem.numVars P) : (step ctx s).Sound ctx P := by
  unfold step
  cases hpop : s.frontier.pop? with
  | none => exact .ended _ hs
  | some popped =>
    obtain ⟨e, rest⟩ := popped
    dsimp only
    split
    · exact .ended _ hs
    · split
      · exact .ended _ hs
      · obtain ⟨node, box, hv⟩ := exists_visitable hp h hpop
        obtain ⟨t, hrun, ht⟩ := exists_runs_visit hB hp hlog (s := { s with frontier := rest }) hv hs
          (not_stuck hB hv hs) e.bound
        rw [hrun]
        exact .running ht.scoring

/-- Steps of a search do not fail. -/
theorem sound_of_run {backend : σ}
    (hbackend : P (ctx.backend.setMode ctx.settings.lpMode backend).2) (n : ℕ) :
    ((Phase.running (initial ctx backend)).advance ctx n).Sound ctx P := by
  induction n with
  | zero => exact .running ⟨⟨List.length_map _, List.length_map _⟩, hbackend⟩
  | succ n ih =>
    rw [Phase.advance_add]
    cases hphase : (Phase.running (initial ctx backend)).advance ctx n with
    | running s =>
      rw [hphase] at ih
      cases ih with
      | running hs => exact sound_step hB hp hlog hphase hs
    | ended result s =>
      rw [hphase] at ih
      exact ih

/-- Over a dependable backend a search ends with a solution, and what requests keep is true of the
backend at its end. -/
theorem search_succeeds (backend : σ)
    (hbackend : P (ctx.backend.setMode ctx.settings.lpMode backend).2) :
    (∃ sol, (search ctx backend).result = .ok sol) ∧
      P (search ctx backend).state.scoring.oracle.backend := by
  obtain ⟨result, s, hended⟩ := endsWithin_stepBound ctx backend
  have hs := hended _ (Nat.le_refl _)
  obtain ⟨hresult, journal, hstate⟩ := search_of_ended hs
  have hsound := sound_of_run hB hp hlog hbackend (stepBound ctx.settings)
  rw [hs] at hsound
  cases hsound with
  | ended status hfit =>
    rw [hresult, hstate]
    exact ⟨⟨_, rfl⟩, hfit.backend⟩

end Run

end Search

end BranchBound
