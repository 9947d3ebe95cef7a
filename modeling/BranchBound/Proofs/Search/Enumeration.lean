import BranchBound.Proofs.Search.Kept

/-!
# Bounds where every node is looked at

Where every node is looked at, open nodes get a bound below the incumbent, so that the order of
nodes does not follow the relaxations. The best of these bounds is what a run that is stopped early
reports. It says nothing about the points of the open nodes, whose relaxations are only remembered
in the tree.

* `Underbid`: open nodes have bounds below the incumbent.
* `counted_of_reachable`: this holds from the first node on.
* `bound_of_enumeration`: the bound that is reported, and what it covers.
* `enumeration_hides_point`: a run that reports a bound below a point of an open node.
-/

namespace BranchBound

/-- The best bound of open nodes is one of theirs, if there are any. -/
theorem Frontier.bestBound_le {f : Frontier ExtRat} {v : ExtRat}
    (h : ∀ e ∈ f.entries, e.bound ≤ v) : f.bestBound ≤ v := by
  obtain ⟨-, -, hnone | ⟨e, he, hfound⟩⟩ :
      _ ∧ _ ∧ (f.bestBound = -Scalar.infinity ∨ ∃ e ∈ f.entries, f.bestBound = e.bound) :=
    ComparableScalar.foldl_maxNum Entry.bound rfl fun _ _ => rfl
  · exact hnone.trans_le (ExtRat.negInf_le v)
  · exact hfound.trans_le (h e he)

namespace Search

open Relaxation

variable {σ : Type} {ctx : Context σ ExtRat} {y : List ℚ}

/-! ## Bounds of open nodes -/

/-- No open node has a bound above the incumbent. -/
def Underbid (s : Core ExtRat) : Prop :=
  ∀ e ∈ s.frontier.entries, e.bound ≤ s.incumbent.objective

theorem Underbid.bestBound_eq {s : State σ ExtRat} (h : Underbid s.core) :
    s.bestBound = s.incumbent.objective := by
  rw [State.bestBound_eq_max, max_eq_right]
  exact Frontier.bestBound_le h

/-- A visit only adds nodes with bounds below the incumbent. -/
theorem underbid_visited {s t : Core ExtRat} {id : ℕ} (hall : ctx.settings.enumerateAll = true)
    (h : Underbid s) (hvisited : Visited ctx id s t) : Underbid t := by
  have hold : ∀ e ∈ s.frontier.entries, e.bound ≤ t.incumbent.objective :=
    fun e he => (h e he).trans hvisited.objective_le
  cases hvisited with
  | branched =>
    have hchild : ∀ relax, childBound ctx s.incumbent.objective relax ≤ s.incumbent.objective := by
      intro relax
      rw [childBound, if_pos hall]
      exact ExtRat.sub_le_of_nonneg _ (by decide)
    intro e he
    rcases List.mem_append.mp he with he | he
    · rcases List.mem_append.mp he with he | he
      · exact hold e he
      · rw [List.mem_singleton.mp he]
        exact hchild _
    · rw [List.mem_singleton.mp he]
      exact hchild _
  | _ => exact hold

/-! ## Runs -/

/-- Where every node is looked at, a visit solves its node. -/
theorem Visits.processed_eq {id : ℕ} {inherited : ExtRat} {s t : State σ ExtRat}
    (h : Visits ctx id inherited s t) (hall : ctx.settings.enumerateAll = true) :
    t.processed = s.processed + 1 := by
  cases h with
  | pruned hnode hclosed =>
    rw [Context.closedBy, hall] at hclosed
    cases hclosed
  | infeasible => rfl
  | integer =>
    show (State.offer _ _ _ _).processed = _
    unfold State.offer
    split <;> rfl
  | fathomed => rfl
  | branched hasked hoptimal hlearns hinteger hopen hdepth hinfeasibility hselect hpriorities hdown
      hup journal =>
    obtain ⟨tree, -, rfl⟩ := Option.map_eq_some_iff.mp hdown
    obtain ⟨tree', -, rfl⟩ := Option.map_eq_some_iff.mp hup
    rfl

/-- A run that has not begun, or the open nodes of one that has. -/
inductive Counted (s : State σ ExtRat) : Prop
  | fresh (hprocessed : s.processed = 0) (hcore : s.core = .start)
  | begun (hprocessed : 0 < s.processed) (hunderbid : Underbid s.core)

/-- Nothing but the root is open at first, so that nothing is left when it is taken. -/
theorem Counted.underbid_pop {s : State σ ExtRat} (h : Counted s) {e : Entry ExtRat}
    {rest : Frontier ExtRat} (hpop : s.frontier.pop? = some (e, rest)) :
    Underbid ⟨s.tree, rest, s.incumbent⟩ := by
  obtain ⟨-, hrest, -⟩ := Frontier.pop?_eq_some hpop
  cases h with
  | fresh hprocessed hcore =>
    have hfrontier : s.frontier = (Core.start : Core ExtRat).frontier :=
      congrArg Core.frontier hcore
    rw [hfrontier] at hpop
    cases hpop
    exact fun d hd => (List.not_mem_nil hd).elim
  | begun hprocessed hunderbid =>
    intro d hd
    replace hd : d ∈ rest.entries := hd
    rw [hrest] at hd
    exact hunderbid d (List.mem_of_mem_filter hd)

theorem counted_of_reachable (hall : ctx.settings.enumerateAll = true) {backend : σ}
    {s : State σ ExtRat} (h : Reachable ctx (initial ctx backend) s) : Counted s := by
  induction h with
  | start => exact .fresh rfl rfl
  | take hs htake ih =>
    have hvisits := visits_of_runs_visit htake.visit
    have hprocessed := hvisits.processed_eq hall
    refine .begun ?_ (underbid_visited hall (ih.underbid_pop htake.pop?) hvisits.visited)
    omega

/-- The bound of a run that looks at every node. Before the first node it is infinite, and from then
on it is the objective of the incumbent, whatever is still open. Over a backend that can be trusted
and without a limit on the depth, an integer point is no better than this bound, or it lies in the
box of an open node whose optimum in the tree, though not its bound in the frontier, covers it. -/
theorem bound_of_enumeration {backend : σ} {out : Outcome σ ExtRat} {sol : Solution ExtRat}
    (hsolve : solveWith ctx backend = .ok out) (hok : out.result = .ok sol)
    (hall : ctx.settings.enumerateAll = true) (hlimit : ctx.settings.depthLimit = none)
    (hbackend : ctx.backend.SoundOn ctx.problem) :
    sol.bound = (if sol.stats.nodesProcessed = 0 then .posInf else sol.objective) ∧
    ∀ y, ctx.problem.IntegerPoint ctx.rootBox y →
      ctx.problem.objectiveValue (y.map .fin) ≤ sol.bound ∨
        ∃ e ∈ out.state.frontier.entries, ∃ node box, out.state.tree.get? e.node = some node ∧
          out.state.tree.box? e.node ctx.rootBox = some box ∧ box.Contains (y.map .fin) ∧
          ctx.problem.objectiveValue (y.map .fin) ≤ node.bound := by
  obtain ⟨hvalid, rfl⟩ := search_of_solveWith hsolve
  obtain ⟨s, hreach, -, hsol, hstate⟩ := reachable_of_search hok
  have hcore : (search ctx backend).state.core = s.core := by
    rw [hstate]
    exact core_foldl_note _ s
  have htree : (search ctx backend).state.tree = s.tree := congrArg Core.tree hcore
  have hfrontier : (search ctx backend).state.frontier = s.frontier :=
    congrArg Core.frontier hcore
  rw [htree, hfrontier, hsol]
  constructor
  · show s.bestBound = if s.processed = 0 then .posInf else s.incumbent.objective
    cases counted_of_reachable hall hreach with
    | fresh hprocessed hstart =>
      rw [if_pos hprocessed]
      show Scalar.maxNum s.core.frontier.bestBound s.core.incumbent.objective = _
      rw [hstart]
      rfl
    | begun hprocessed hunderbid =>
      rw [if_neg (Nat.ne_of_gt hprocessed)]
      exact hunderbid.bestBound_eq
  · intro y hy
    have hinv := invariant_of_reachable hbackend hlimit (integralityTol_pos_of_validate hvalid)
      hreach
    have hpartition := (partition_of_reachable hreach).leaves
    rcases hinv.covered y hy with hle | ⟨e, he, node, bs, hnode, hpath, hholds, hbound, -⟩
    · left
      show _ ≤ s.bestBound
      rw [State.bestBound_eq_max]
      exact hle.trans (le_max_right _ _)
    · right
      obtain ⟨box, hbox, hinside⟩ := (hpartition.contains_box?_iff ⟨hy.inside, hy.whole⟩
        ((hpartition.isLeaf_iff e.node).mpr (.inl (List.mem_map_of_mem he)))).mpr
        ⟨bs, hpath, hholds⟩
      exact ⟨e, he, node, box, hnode, hbox, hinside, hbound⟩

/-! ## One variable -/

/-- The search for the largest whole number whose double is within a limit, which looks at every
node but is stopped after one. -/
def enumeratingContext (b : ℚ) : Context Unit ExtRat :=
  { doubledContext b with
    settings := Settings.standard.generalInteger.completeEnumeration.withMaxNodes 1 }

theorem solveWith_enumerating :
    solveWith (enumeratingContext 3) () = .ok (search (enumeratingContext 3) ()) := by
  with_unfolding_all rfl

/-- The run is stopped after its root, without a point. -/
theorem result_enumerating : ∃ sol, (search (enumeratingContext 3) ()).result = .ok sol ∧
    sol.status = .nodeLimit ∧ sol.bound = .negInf := by
  have hrun : (search (enumeratingContext 3) ()).result.toOption.map
      (fun sol => (sol.status, sol.bound)) = some (.nodeLimit, .negInf) := by
    decide +kernel
  obtain ⟨sol, hok, hread⟩ := exists_ok_of_toOption_map hrun
  obtain ⟨hstatus, hbound⟩ := Prod.mk.inj hread
  exact ⟨sol, hok, hstatus, hbound⟩

/-- One is such a whole number, and it is in the box of an open node. -/
theorem bound_of_enumeration_doubled :
    ∃ out sol, solveWith (enumeratingContext 3) () = .ok out ∧ out.result = .ok sol ∧
      sol.status = .nodeLimit ∧ sol.bound = .negInf ∧
      ∃ e ∈ out.state.frontier.entries, ∃ node box, out.state.tree.get? e.node = some node ∧
        out.state.tree.box? e.node (enumeratingContext 3).rootBox = some box ∧
        box.Contains [.fin 1] ∧ .fin 1 ≤ node.bound := by
  obtain ⟨sol, hok, hstatus, hbound⟩ := result_enumerating
  refine ⟨_, sol, solveWith_enumerating, hok, hstatus, hbound, ?_⟩
  have hcovered := (bound_of_enumeration solveWith_enumerating hok rfl rfl (soundOn_doubled 3)).2
    [1] integerPoint_doubled
  rw [hbound, List.map_singleton, show (enumeratingContext 3).problem = doubled 3 from rfl,
    objectiveValue_doubled] at hcovered
  exact hcovered.resolve_left id

/-- A run that looks at every node and is stopped early can report a bound below the objective of a
point that it has not come to: the backend can be trusted, and one is a whole number whose double is
at most three. -/
theorem enumeration_hides_point :
    (enumeratingContext 3).settings.enumerateAll = true ∧
      (enumeratingContext 3).settings.depthLimit = none ∧
      (enumeratingContext 3).backend.SoundOn (enumeratingContext 3).problem ∧
      ∃ out sol, solveWith (enumeratingContext 3) () = .ok out ∧ out.result = .ok sol ∧
        sol.status = .nodeLimit ∧ ∃ y, (enumeratingContext 3).problem.IntegerPoint
            (enumeratingContext 3).rootBox y ∧
          ¬ (enumeratingContext 3).problem.objectiveValue (y.map .fin) ≤ sol.bound := by
  obtain ⟨sol, hok, hstatus, hbound⟩ := result_enumerating
  refine ⟨rfl, rfl, soundOn_doubled 3, _, sol, solveWith_enumerating, hok, hstatus, [1],
    integerPoint_doubled, ?_⟩
  rw [hbound, List.map_singleton, show (enumeratingContext 3).problem = doubled 3 from rfl,
    objectiveValue_doubled]
  exact id

end Search

end BranchBound
