import BranchBound.Proofs.Relaxation.Dependable
import BranchBound.Proofs.Search.Bound
import BranchBound.Proofs.Search.Exhaustive
import BranchBound.Proofs.Search.Incumbents
import BranchBound.Proofs.Search.ZeroOne

/-!
# The depth of a binary search needs no limit

Where all domains end at one, a search without a limit on the depth is given one, the number of
variables. It is never used: each branch of a path fixes a variable that was not fixed before, so a
node as deep as that has all its variables fixed, and an optimum in its box is integer.

* `ZeroOnePath.fixed_of_replay?`: the variables of a path are fixed in the box of its node.
* `forall_path_dealt`: what branching keeps is true of all paths, also where a visit fails.
* `Visited.closedBy_of_fathomed`: a node that is left fathomed is closed by its bound.
* `Unlimited`, `unlimited_of_run`: the depth closes no node, at all times of a run.
* `depth_guard_unused`: the same, with the variables of each path fixed in the box of its node.
-/

namespace BranchBound

open Relaxation

/-! ## Boxes of paths -/

section Boxes

variable {α : Type} [Scalar α] {box restricted : Box α} {b : Branch α} {bs : List (Branch α)}
  {j : ℕ}

/-- A branch leaves the bounds of the other variables as they are. -/
theorem Branch.getElem?_of_restrict?_of_ne (h : b.restrict? box = some restricted)
    (hj : j ≠ b.var) :
    restricted.lower[j]? = box.lower[j]? ∧ restricted.upper[j]? = box.upper[j]? := by
  obtain ⟨hlower, hupper⟩ := Branch.getElem?_of_restrict? h j
  rw [hlower, hupper]
  simp [hj.symm]

/-- So do the branches of a path. -/
theorem Box.getElem?_of_replay? (h : box.replay? bs = some restricted)
    (hj : j ∉ bs.map Branch.var) :
    restricted.lower[j]? = box.lower[j]? ∧ restricted.upper[j]? = box.upper[j]? := by
  induction bs generalizing box with
  | nil =>
    cases h
    exact ⟨rfl, rfl⟩
  | cons b bs ih =>
    obtain ⟨next, hnext, hrest⟩ := Option.bind_eq_some_iff.mp h
    rw [List.map_cons, List.mem_cons, not_or] at hj
    obtain ⟨hlower, hupper⟩ := Branch.getElem?_of_restrict?_of_ne hnext hj.1
    obtain ⟨hlower', hupper'⟩ := ih hrest hj.2
    exact ⟨hlower'.trans hlower, hupper'.trans hupper⟩

end Boxes

section Fixed

variable {n : ℕ} {box restricted : Box ExtRat} {b : Branch ExtRat} {bs : List (Branch ExtRat)}

namespace Branch.Fixes

theorem rhs_eq (h : b.Fixes) : b.rhs = 0 ∨ b.rhs = 1 := by
  rcases h with ⟨-, hrhs⟩ | ⟨-, hrhs⟩
  · exact .inl hrhs
  · exact .inr hrhs

theorem usable (h : b.Fixes) (hvar : b.var < n) : b.Usable n := by
  refine ⟨hvar, ?_⟩
  rcases h.rhs_eq with hrhs | hrhs
  · rw [hrhs]
    rfl
  · rw [hrhs]
    rfl

/-- A branch that fixes a variable between zero and one leaves it one value, which is its bound. -/
theorem bounds_eq (h : b.Fixes) (hrestrict : b.restrict? box = some restricted)
    (hlower : box.lower[b.var]? = some 0) (hupper : box.upper[b.var]? = some 1) :
    restricted.lower[b.var]? = some b.rhs ∧ restricted.upper[b.var]? = some b.rhs := by
  have hmin : Scalar.minNum (1 : ExtRat) 0 = 0 := by decide +kernel
  have hmax : Scalar.maxNum (0 : ExtRat) 1 = 1 := by decide +kernel
  obtain ⟨hlower', hupper'⟩ := getElem?_of_restrict? hrestrict b.var
  rw [hlower', hupper', hlower, hupper]
  rcases h with ⟨hsense, hrhs⟩ | ⟨hsense, hrhs⟩
  · simp [hsense, hrhs, hmin]
  · simp [hsense, hrhs, hmax]

end Branch.Fixes

/-- The variables of a path are fixed in the box it leads to, each at the bound of its branch. -/
theorem ZeroOnePath.fixed_of_replay? (h : ZeroOnePath n bs)
    (hbox : ∀ b ∈ bs, box.lower[b.var]? = some 0 ∧ box.upper[b.var]? = some 1)
    (hreplay : box.replay? bs = some restricted) :
    ∀ b ∈ bs, restricted.lower[b.var]? = some b.rhs ∧ restricted.upper[b.var]? = some b.rhs := by
  induction bs generalizing box with
  | nil => exact fun b hb => (List.not_mem_nil hb).elim
  | cons b bs ih =>
    obtain ⟨next, hnext, hrest⟩ := Option.bind_eq_some_iff.mp hreplay
    obtain ⟨hfirst, hothers⟩ := List.forall_mem_cons.mp hbox
    obtain ⟨hb, hfixes⟩ := List.forall_mem_cons.mp h.fixes
    obtain ⟨-, hlt⟩ := List.forall_mem_cons.mp h.lt
    obtain ⟨hnew, hnodup⟩ := List.nodup_cons.mp h.nodup
    refine List.forall_mem_cons.mpr ⟨?_, ?_⟩
    · -- the rest of the path leaves this variable alone
      obtain ⟨hlower, hupper⟩ := Box.getElem?_of_replay? hrest hnew
      rw [hlower, hupper]
      exact hb.bounds_eq hnext hfirst.1 hfirst.2
    · -- this branch leaves the variables of the rest alone
      apply ih ⟨hnodup, hlt, hfixes⟩ ?_ hrest
      intro c hc
      have hne : c.var ≠ b.var := fun heq => hnew (heq ▸ List.mem_map_of_mem hc)
      obtain ⟨hlower, hupper⟩ := Branch.getElem?_of_restrict?_of_ne hnext hne
      rw [hlower, hupper]
      exact hothers c hc

/-- At the root of a problem whose domains end at one, all bounds are zero and one. -/
theorem Box.getElem?_root {p : Problem ExtRat} {binaryVars : Bool} (hp : p.WellFormed)
    (hbinary : p.isBinaryDomain binaryVars = true) {j : ℕ} (hj : j < p.numVars) :
    (Box.root p binaryVars).lower[j]? = some 0 ∧ (Box.root p binaryVars).upper[j]? = some 1 := by
  have hj' : j < p.types.length := lt_of_lt_of_eq hj hp.types.symm
  constructor
  · exact List.getElem?_replicate_of_lt hj
  · show (p.types.map _)[j]? = _
    rw [List.getElem?_map, List.getElem?_eq_getElem hj', Option.map_some,
      if_pos (Problem.capped_of_isBinaryDomain hbinary (List.getElem_mem hj'))]

end Fixed

namespace Search

/-! ## Paths of a run -/

section Paths

variable {σ α : Type} [Scalar α] {ctx : Context σ α} {s t : State σ α} {e : Entry α}
  {Q : List (Branch α) → Prop}

/-- What branching keeps is true of all paths, also where a visit fails. -/
theorem forall_path_dealt (hQ : Branches ctx Q) (h : Dealt ctx e s t)
    (hs : ∀ k node, s.tree.get? k = some node → ∃ bs, s.tree.Path k bs ∧ Q bs) :
    ∀ k node, t.tree.get? k = some node → ∃ bs, t.tree.Path k bs ∧ Q bs := by
  cases h with
  | visits hvisits => exact forall_path_visited hQ hvisits.visited hs
  | breaks hbreaks =>
    cases hbreaks with
    | missing hmissing => exact hs
    | unsolved hnode err scoring => exact hs
    | @unbranched node box a scoring learned hasked hoptimal hlearns infeasibility err last =>
      -- the node that was recorded is in its place
      intro k other hk
      obtain ⟨before, hbefore, -⟩ := Tree.exists_of_get?_modify (by exact fun _ => rfl) hk
      obtain ⟨bs, hpath, hbs⟩ := hs k before hbefore
      exact ⟨bs, hpath.mono (extends_recorded s.core e.node _ _ _), hbs⟩
    | unreported hvisits => exact forall_path_visited hQ hvisits.visited hs

/-- A node that is taken up and left fathomed was visited to the end. -/
theorem visited_of_fathomed {node : Node α} (h : Dealt ctx e s t) (hfresh : s.tree.Fresh e.node)
    (hnode : t.tree.get? e.node = some node) (hstatus : node.status = .fathomed) :
    Visited ctx e.node s.core t.core := by
  obtain ⟨⟨before, hbefore, hcandidate⟩, -⟩ := hfresh
  cases h with
  | visits hvisits => exact hvisits.visited
  | breaks hbreaks =>
    cases hbreaks with
    | missing hmissing => cases hmissing.symm.trans hnode
    | unsolved hnode' err scoring =>
      have hsame : s.tree.get? e.node = some node := hnode
      cases hbefore.symm.trans hsame
      cases hcandidate.symm.trans hstatus
    | @unbranched node' box a scoring learned hasked hoptimal hlearns infeasibility err last =>
      have hrecorded := get?_recorded s.core e.node a.objective .candidate (some infeasibility)
        hbefore
      cases hrecorded.symm.trans hnode
      cases hstatus
    | unreported hvisits => exact hvisits.visited

/-- A node that a visit leaves fathomed is closed by its bound, if its depth does not close it. -/
theorem Visited.closedBy_of_fathomed {id : ℕ} {s t : Core α} {node : Node α}
    (h : Visited ctx id s t)
    (hshallow : ∀ {node box a}, Solved ctx id s node box a → a.isOptimal = true →
      ctx.problem.integerFeasible? a.x ctx.settings.integralityTol = some false →
      ctx.tooDeep node.depth = false)
    (hnode : t.tree.get? id = some node) (hstatus : node.status = .fathomed) :
    ctx.closedBy s.incumbent.objective node.bound = true := by
  cases h with
  | pruned hbefore hclosed =>
    rw [Tree.get?_modify, if_pos rfl, hbefore] at hnode
    cases hnode
    exact hclosed
  | infeasible hsolved hnot infeasibility =>
    rw [Tree.get?_modify, if_pos rfl, hsolved.get?] at hnode
    cases hnode
    cases hstatus
  | integer hsolved hoptimal hinteger infeasibility =>
    rw [get?_recorded _ _ _ _ _ hsolved.get?] at hnode
    cases hnode
    cases hstatus
  | fathomed hsolved hoptimal hinteger hclosed infeasibility =>
    rw [get?_recorded _ _ _ _ _ hsolved.get?] at hnode
    cases hnode
    rw [hshallow hsolved hoptimal hinteger] at hclosed
    exact hclosed.resolve_right Bool.false_ne_true
  | @branched node' box a c fs tree tree' hsolved hoptimal hfs hc infeasibility hdown hup =>
    have hrecorded := get?_recorded s id a.objective .candidate infeasibility hsolved.get?
    rw [Tree.get?_children_of_lt hrecorded hdown hup (Tree.get?_lt_size hrecorded), hrecorded]
      at hnode
    cases hnode
    cases hstatus

/-- What is answered about a node that is taken up is an answer to its relaxation. -/
theorem solved_of_answer? {node : Node α} {a : Answer α}
    (hnode : s.tree.get? e.node = some node) (h : Round.answer? ctx ⟨e, s, t⟩ = some a) :
    ∃ box, Solved ctx e.node s.core node box a := by
  obtain ⟨box, hbox, h⟩ := Option.bind_eq_some_iff.mp h
  cases houtcome : (Oracle.solveNode ctx.backend ctx.problem box s.scoring.oracle).1.outcome with
  | error err =>
    rw [houtcome] at h
    cases h
  | ok b =>
    rw [houtcome] at h
    cases h
    exact ⟨box, hnode, hbox, _, outcome_of_solveNode houtcome⟩

end Paths

/-! ## No node is closed for its depth -/

variable {σ : Type} {ctx : Context σ ExtRat}

/-- The depth closes no node: the branches of every path fix different variables, a node with a
fractional optimum is not too deep when it is taken up, and a node that is fathomed was closed by
its bound. -/
structure Unlimited (ctx : Context σ ExtRat) (done : List (Round σ ExtRat))
    (s : State σ ExtRat) : Prop where
  paths : ∀ id node, s.tree.get? id = some node →
    ∃ bs, s.tree.Path id bs ∧ ZeroOnePath ctx.problem.numVars bs
  shallow : ∀ r ∈ done, ∀ node a, r.before.tree.get? r.entry.node = some node →
    r.answer? ctx = some a → a.isOptimal = true →
    ctx.problem.integerFeasible? a.x ctx.settings.integralityTol = some false →
    ctx.tooDeep node.depth = false
  fathomed : ∀ id node, s.tree.get? id = some node → node.status = .fathomed →
    ∃ r ∈ done, r.entry.node = id ∧
      ctx.closedBy r.before.incumbent.objective node.bound = true

section Unlimited

variable {done : List (Round σ ExtRat)} {s t : State σ ExtRat} {e : Entry ExtRat}
  {rest : Frontier ExtRat}
  (hbinary : ctx.problem.isBinaryDomain ctx.settings.binaryVars = true)
  (hbackend : ctx.backend.InsideZeroOne ctx.problem)
  (hlimit : ctx.settings.depthLimit = none) (htol : 0 < ctx.settings.integralityTol)

include hbinary hbackend hlimit htol

theorem Unlimited.round (h : Unlimited ctx done s)
    (hnarrated : Narrated ctx (done.map Round.entry) s.ledger) (htakes : TakesUp ctx e rest s t) :
    Unlimited ctx (done ++ [⟨e, { s with frontier := rest }, t⟩]) t := by
  have hfresh : s.tree.Fresh e.node := (hnarrated.orderly.placed.pop htakes.pop?).2
  obtain ⟨before, hbefore, -⟩ := hfresh.1
  have hgrows := (htakes.dealt.turn (s := { s with frontier := rest }) hbefore).grows
  -- the node taken up is not too deep
  have hshallow : ∀ {node box a}, Solved ctx e.node { s.core with frontier := rest } node box a →
      a.isOptimal = true →
      ctx.problem.integerFeasible? a.x ctx.settings.integralityTol = some false →
      ctx.tooDeep node.depth = false := by
    intro node box a hsolved
    obtain ⟨bs, hpath, hzeroOne⟩ := h.paths e.node node hsolved.get?
    exact hsolved.tooDeep_eq_false hbinary hbackend hlimit htol hpath hzeroOne
  constructor
  case paths =>
    exact forall_path_dealt (s := { s with frontier := rest })
      (branches_zeroOnePath hbinary hbackend) htakes.dealt h.paths
  case shallow =>
    intro r hr node a hnode hanswer
    rcases List.mem_append.mp hr with hr | hr
    · exact h.shallow r hr node a hnode hanswer
    · cases List.mem_singleton.mp hr
      obtain ⟨box, hsolved⟩ := solved_of_answer? hnode hanswer
      exact hshallow hsolved
  case fathomed =>
    intro id node hnode hstatus
    by_cases hid : id = e.node
    · subst hid
      have hvisited := visited_of_fathomed (s := { s with frontier := rest }) htakes.dealt hfresh
        hnode hstatus
      exact ⟨_, List.mem_append_right _ (List.mem_singleton.mpr rfl), rfl,
        hvisited.closedBy_of_fathomed hshallow hnode hstatus⟩
    · have hcandidate : node.status ≠ .candidate := by
        rw [hstatus]
        exact NodeStatus.noConfusion
      have hold := (hgrows.get?_of_ne hid hnode).resolve_right hcandidate
      obtain ⟨r, hr, hreason⟩ := h.fathomed id node hold hstatus
      exact ⟨r, List.mem_append_left _ hr, hreason⟩

/-- The depth closes no node, at all times of a run. -/
theorem unlimited_of_run (backend : σ) (n : ℕ) :
    Unlimited ctx (rounds ctx n (initial ctx backend))
      ((Phase.running (initial ctx backend)).advance ctx n).state := by
  refine (holds_of_search ?_ ⟨?_, ?_, ?_⟩ n).2
  · intro done s t e rest hnarrated h htakes
    exact h.round hbinary hbackend hlimit htol hnarrated htakes
  · exact forall_path_of_grown (zeroOnePath_nil _) (branches_zeroOnePath hbinary hbackend) .start
  · exact fun r hr => absurd hr List.not_mem_nil
  · intro id node hnode hstatus
    have hid : id = 0 := Nat.lt_one_iff.mp (Tree.get?_lt_size hnode)
    subst hid
    cases hnode
    cases hstatus

end Unlimited

/-- The variables of a path that fixes different ones are fixed in the box of its node. -/
theorem exists_fixed_box {tree : Tree ExtRat} {id : ℕ} {node : Node ExtRat}
    {bs : List (Branch ExtRat)} (hp : ctx.problem.WellFormed)
    (hbinary : ctx.problem.isBinaryDomain ctx.settings.binaryVars = true)
    (hpath : tree.Path id bs) (hnode : tree.get? id = some node)
    (hzeroOne : ZeroOnePath ctx.problem.numVars bs) :
    ∃ box, tree.box? id ctx.rootBox = some box ∧ ∀ b ∈ bs, (b.rhs = 0 ∨ b.rhs = 1) ∧
      box.lower[b.var]? = some b.rhs ∧ box.upper[b.var]? = some b.rhs := by
  have husable : ∀ b ∈ bs, b.Usable ctx.problem.numVars := by
    intro b hb
    exact (hzeroOne.fixes b hb).usable (hzeroOne.lt b hb)
  obtain ⟨box, hreplay, -⟩ :=
    (Box.usable_root hp ctx.settings.binaryVars).exists_replay? husable
  have hroot : ∀ b ∈ bs, ctx.rootBox.lower[b.var]? = some 0 ∧
      ctx.rootBox.upper[b.var]? = some 1 := by
    intro b hb
    exact Box.getElem?_root hp hbinary (hzeroOne.lt b hb)
  refine ⟨box, (hpath.box?_eq hnode _).trans hreplay, ?_⟩
  intro b hb
  exact ⟨(hzeroOne.fixes b hb).rhs_eq, hzeroOne.fixed_of_replay? hroot hreplay b hb⟩

/-- Where all domains end at one and no limit on the depth is set, the number of variables is the
limit, and no search uses it, whatever its rule and its order of nodes, as long as the optima lie
inside the boxes they were asked for. At all times of a run, the branches from a node to the root
are on different variables, and each of these is fixed in the box of the node, at zero or at one; a
node that was fathomed was closed by its bound; and no node taken up with a fractional optimum was
as deep as the limit. -/
theorem depth_guard_unused {backend : σ} {n : ℕ} {s : State σ ExtRat}
    (hp : ctx.problem.Constructed) (hvalid : ctx.settings.validate = .ok ())
    (hbinary : ctx.problem.isBinaryDomain ctx.settings.binaryVars = true)
    (hlimit : ctx.settings.depthLimit = none) (hbackend : ctx.backend.InsideZeroOne ctx.problem)
    (hs : ((Phase.running (initial ctx backend)).advance ctx n).state = s) :
    (∀ id node, s.tree.get? id = some node →
      (∃ bs box, s.tree.Path id bs ∧ s.tree.box? id ctx.rootBox = some box ∧
        (bs.map Branch.var).Nodup ∧ ∀ b ∈ bs, (b.rhs = 0 ∨ b.rhs = 1) ∧
          box.lower[b.var]? = some b.rhs ∧ box.upper[b.var]? = some b.rhs) ∧
      (node.status = .fathomed → ∃ r ∈ rounds ctx n (initial ctx backend), r.entry.node = id ∧
        ctx.closedBy r.before.incumbent.objective node.bound = true)) ∧
    ∀ r ∈ rounds ctx n (initial ctx backend), ∀ node a,
      r.before.tree.get? r.entry.node = some node → r.answer? ctx = some a →
      a.isOptimal = true →
      ctx.problem.integerFeasible? a.x ctx.settings.integralityTol = some false →
      ctx.tooDeep node.depth = false := by
  have hrun := unlimited_of_run hbinary hbackend hlimit (integralityTol_pos_of_validate hvalid)
    backend n
  rw [hs] at hrun
  refine ⟨?_, hrun.shallow⟩
  intro id node hnode
  obtain ⟨bs, hpath, hzeroOne⟩ := hrun.paths id node hnode
  obtain ⟨box, hbox, hfixed⟩ := exists_fixed_box hp.wellFormed hbinary hpath hnode hzeroOne
  exact ⟨⟨bs, box, hpath, hbox, hzeroOne.nodup, hfixed⟩, hrun.fathomed id node hnode⟩

/-! ## Two things -/

/-- Two things of the same weight, of which not both fit. -/
def evenThings : Problem ExtRat :=
  ⟨[.fin 2, .fin 1], [⟨"c0", [(0, .fin 2), (1, .fin 2)], .fin 3⟩], [.integer, .integer]⟩

/-- The search for the better one. -/
def evenContext : Context Unit ExtRat := fixedContext evenThings .mostFractional .depthFirst id

theorem constructed_evenThings : evenThings.Constructed :=
  .ofRows (show Problem.ofRows [.fin 2, .fin 1] [("c0", [.fin 2, .fin 2])] [.fin 3] = _ by
    with_unfolding_all rfl)

/-- The worse one is branched on first. With it in, half of the better one fits, and that is worth
no more than the better one alone, so its node is fathomed above the limit. -/
theorem depth_guard_unused_even : ∃ s node,
    ((Phase.running (initial evenContext ())).advance evenContext 3).state = s ∧
      s.tree.get? 2 = some node ∧ node.status = .fathomed ∧ evenContext.tooDeep node.depth = false ∧
      (∃ bs box, s.tree.Path 2 bs ∧ s.tree.box? 2 evenContext.rootBox = some box ∧
        bs.map Branch.var = [1] ∧ ∀ b ∈ bs, (b.rhs = 0 ∨ b.rhs = 1) ∧
          box.lower[b.var]? = some b.rhs ∧ box.upper[b.var]? = some b.rhs) ∧
      ∃ r ∈ rounds evenContext 3 (initial evenContext ()), r.entry.node = 2 ∧
        evenContext.closedBy r.before.incumbent.objective node.bound = true := by
  generalize hs : ((Phase.running (initial evenContext ())).advance evenContext 3).state = s
  have hread : (s.tree.get? 2).map (fun node => (node.status, node.depth))
      = some (.fathomed, 1) := by
    rw [← hs]
    decide +kernel
  have hvars : (s.tree.path? 2).map (List.map Branch.var) = some [1] := by
    rw [← hs]
    decide +kernel
  obtain ⟨node, hnode, hpair⟩ := Option.map_eq_some_iff.mp hread
  obtain ⟨hstatus, hdepth⟩ := Prod.mk.inj hpair
  obtain ⟨hnodes, -⟩ := depth_guard_unused constructed_evenThings (by with_unfolding_all rfl)
    (by decide +kernel) rfl insideZeroOne_fixedSimplex hs
  obtain ⟨⟨bs, box, hpath, hbox, -, hfixed⟩, hclosed⟩ := hnodes 2 node hnode
  rw [hpath.path?_eq hnode] at hvars
  refine ⟨s, node, rfl, hnode, hstatus, ?_, ⟨bs, box, hpath, hbox, Option.some.inj hvars, hfixed⟩,
    hclosed hstatus⟩
  rw [hdepth]
  decide +kernel

end Search

end BranchBound
