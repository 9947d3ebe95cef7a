import BranchBound.Proofs.Scalar.Ordered
import BranchBound.Proofs.Search.Fractional
import BranchBound.Proofs.Search.Reachable
import BranchBound.Proofs.Search.Visit

/-!
# Open nodes cover the integer points

At every moment of a search over a backend that can be trusted, an integer point of the root box is
no better than the incumbent or lies in an open node whose bounds are at least its objective.

* `Backend.BoundsOn`, `Backend.SoundOn`: what it means to trust a backend.
* `Covers`, `Invariant`: open nodes and the points they stand for.
* `invariant_visited`: a visit keeps the invariant, whichever of its ways it ends in.
* `invariant_of_reachable`: it holds along a whole run.
-/

namespace BranchBound

/-! ## Backends -/

namespace Relaxation

/-- Solves without a limit give upper bounds: an optimum is at least the objective of every integer
point of the box, there is none where the answer says so, and every solve ends. -/
structure Backend.BoundsOn {σ : Type} (B : Backend σ ExtRat) (p : Problem ExtRat) : Prop where
  le_optimum : ∀ {box backend a}, (B.solve p box none backend).1.outcome = .ok a →
    a.status = .optimal → ∀ y, p.IntegerPoint box y → p.objectiveValue (y.map .fin) ≤ a.objective
  infeasible : ∀ {box backend a}, (B.solve p box none backend).1.outcome = .ok a →
    a.status = .infeasible → ∀ y, ¬ p.IntegerPoint box y
  not_limited : ∀ {box backend a}, (B.solve p box none backend).1.outcome = .ok a →
    a.status ≠ .iterationLimit

/-- Moreover, an optimum lies in its box. -/
structure Backend.SoundOn {σ : Type} (B : Backend σ ExtRat) (p : Problem ExtRat) : Prop
    extends B.BoundsOn p where
  inside : ∀ {box backend a}, (B.solve p box none backend).1.outcome = .ok a →
    a.status = .optimal → box.Contains a.x

end Relaxation

/-! ## Serial numbers -/

/-- Serial numbers tell open nodes apart. -/
structure Frontier.Numbered {α : Type} (f : Frontier α) : Prop where
  serial_lt : ∀ e ∈ f.entries, e.serial < f.added
  serial_inj : ∀ e ∈ f.entries, ∀ d ∈ f.entries, e.serial = d.serial → e = d

theorem Frontier.numbered_empty {α : Type} : (Frontier.empty : Frontier α).Numbered :=
  ⟨fun _ he => (List.not_mem_nil he).elim, fun _ he => (List.not_mem_nil he).elim⟩

theorem Frontier.Numbered.push {α : Type} {f : Frontier α} (h : f.Numbered) (node : ℕ)
    (priority bound : α) : (f.push node priority bound).Numbered := by
  have hmem : ∀ e ∈ (f.push node priority bound).entries,
      (e ∈ f.entries ∧ e.serial < f.added) ∨ e = ⟨node, priority, f.added, bound⟩ := by
    intro e he
    rcases List.mem_append.mp he with he | he
    · exact .inl ⟨he, h.serial_lt e he⟩
    · exact .inr (List.mem_singleton.mp he)
  constructor
  · intro e he
    show e.serial < f.added + 1
    rcases hmem e he with ⟨-, hlt⟩ | rfl
    · omega
    · exact Nat.lt_succ_self f.added
  · intro e he d hd hserial
    rcases hmem e he with ⟨he, hlt⟩ | rfl
    · rcases hmem d hd with ⟨hd, -⟩ | rfl
      · exact h.serial_inj e he d hd hserial
      · exact absurd hserial (Nat.ne_of_lt hlt)
    · rcases hmem d hd with ⟨-, hlt⟩ | rfl
      · exact absurd hserial.symm (Nat.ne_of_lt hlt)
      · rfl

/-- Taking a node out leaves all the others. -/
theorem Frontier.Numbered.pop? {α : Type} [Scalar α] {f rest : Frontier α} {e : Entry α}
    (h : f.Numbered) (hpop : f.pop? = some (e, rest)) :
    rest.Numbered ∧ ∀ d, d ∈ f.entries ↔ d ∈ e :: rest.entries := by
  obtain ⟨he, hrest, hadded, -⟩ := Frontier.pop?_eq_some hpop
  have hmem : ∀ d, d ∈ rest.entries ↔ d ∈ f.entries ∧ d.serial ≠ e.serial := by
    intro d
    rw [hrest, List.mem_filter, decide_eq_true_iff]
  refine ⟨⟨fun d hd => ?_, fun d hd c hc => ?_⟩, fun d => ?_⟩
  · rw [hadded]
    exact h.serial_lt d ((hmem d).mp hd).1
  · exact h.serial_inj d ((hmem d).mp hd).1 c ((hmem c).mp hc).1
  · rw [List.mem_cons, hmem]
    constructor
    · intro hd
      by_cases hserial : d.serial = e.serial
      · exact .inl (h.serial_inj d hd e he hserial)
      · exact .inr ⟨hd, hserial⟩
    · rintro (rfl | ⟨hd, -⟩)
      · exact he
      · exact hd

/-- What is taken out and what is left are the open nodes, if these are different. -/
theorem Frontier.Numbered.perm_pop? {α : Type} [Scalar α] {f rest : Frontier α} {e : Entry α}
    (h : f.Numbered) (hnodup : f.entries.Nodup) (hpop : f.pop? = some (e, rest)) :
    (e :: rest.entries).Perm f.entries := by
  obtain ⟨-, hmem⟩ := h.pop? hpop
  obtain ⟨-, hentries, -, -⟩ := Frontier.pop?_eq_some hpop
  refine (List.perm_ext_iff_of_nodup ?_ hnodup).mpr fun d => (hmem d).symm
  rw [List.nodup_cons, hentries, List.mem_filter, decide_eq_true_iff]
  exact ⟨fun he => he.2 rfl, hnodup.filter _⟩

namespace Search

open Relaxation

variable {σ : Type} {ctx : Context σ ExtRat}

/-! ## The invariant -/

/-- An open node stands for a point: the point satisfies the branches of its path, and its objective
is at most the bound of the node and, unless every node is looked at, the bound of the entry. -/
def Covers (ctx : Context σ ExtRat) (tree : Tree ExtRat) (e : Entry ExtRat) (y : List ℚ) : Prop :=
  ∃ node bs, tree.get? e.node = some node ∧ tree.Path e.node bs ∧
    (∀ b ∈ bs, b.Holds (y.map .fin)) ∧ ctx.problem.objectiveValue (y.map .fin) ≤ node.bound ∧
    (ctx.settings.enumerateAll = false → ctx.problem.objectiveValue (y.map .fin) ≤ e.bound)

/-- What is true of a search, where the given entries are those still to be dealt with. -/
structure InvariantOn (ctx : Context σ ExtRat) (entries : List (Entry ExtRat)) (s : Core ExtRat) :
    Prop where
  numbered : s.frontier.Numbered
  path : ∀ e ∈ entries, ∃ bs, s.tree.Path e.node bs ∧
    (ctx.problem.isBinaryDomain ctx.settings.binaryVars = true →
      ZeroOnePath ctx.problem.numVars bs)
  covered : ∀ y, ctx.problem.IntegerPoint ctx.rootBox y →
    ctx.problem.objectiveValue (y.map .fin) ≤ s.incumbent.objective ∨
      ∃ e ∈ entries, Covers ctx s.tree e y
  no_point : s.incumbent.point = none → s.incumbent.objective = .negInf

/-- What is true of a search between two nodes. -/
def Invariant (ctx : Context σ ExtRat) (s : Core ExtRat) : Prop :=
  InvariantOn ctx s.frontier.entries s

variable {s : Core ExtRat} {e : Entry ExtRat} {y : List ℚ}

/-- Taking a node out leaves it to be dealt with next to the open ones. -/
theorem invariantOn_pop (h : Invariant ctx s) {rest : Frontier ExtRat}
    (hpop : s.frontier.pop? = some (e, rest)) :
    InvariantOn ctx (e :: rest.entries) ⟨s.tree, rest, s.incumbent⟩ := by
  obtain ⟨hrest, hmem⟩ := h.numbered.pop? hpop
  refine ⟨hrest, fun d hd => h.path d ((hmem d).mpr hd), fun y hy => ?_, h.no_point⟩
  rcases h.covered y hy with hle | ⟨d, hd, hcovers⟩
  · exact .inl hle
  · exact .inr ⟨d, (hmem d).mp hd, hcovers⟩

/-! ## Changes to the tree -/

/-- A change to a node keeps what is covered, if it leaves the node in its place and its bound is
not lowered below a point the node stands for. -/
theorem Covers.modify {tree : Tree ExtRat} {id : ℕ} {g : Node ExtRat → Node ExtRat}
    (h : Covers ctx tree e y)
    (hg : ∀ node, (g node).id = node.id ∧ (g node).parent = node.parent ∧
      (g node).depth = node.depth ∧ (g node).branch = node.branch)
    (hbound : ∀ node bs, tree.get? id = some node → tree.Path id bs →
      (∀ b ∈ bs, b.Holds (y.map .fin)) → ctx.problem.objectiveValue (y.map .fin) ≤ node.bound →
      ctx.problem.objectiveValue (y.map .fin) ≤ (g node).bound) :
    Covers ctx (tree.modify id g) e y := by
  obtain ⟨node, bs, hnode, hpath, hholds, hle, hentry⟩ := h
  have hpath' := hpath.mono (@Tree.extends_modify _ _ id g hg)
  by_cases hid : id = e.node
  · refine ⟨g node, bs, ?_, hpath', hholds, ?_, hentry⟩
    · rw [Tree.get?_modify, if_pos hid, hnode, Option.map_some]
    · exact hbound node bs (hid ▸ hnode) (hid ▸ hpath) hholds hle
  · refine ⟨node, bs, ?_, hpath', hholds, hle, hentry⟩
    rw [Tree.get?_modify, if_neg hid, hnode]

theorem Covers.addChild? {tree tree' : Tree ExtRat} {id : ℕ} {b : Branch ExtRat}
    (h : Covers ctx tree e y) (hchild : tree.addChild? id b = some tree') :
    Covers ctx tree' e y := by
  obtain ⟨node, bs, hnode, hpath, hholds, hle, hentry⟩ := h
  obtain ⟨above, habove, -⟩ := Option.map_eq_some_iff.mp hchild
  refine ⟨node, bs, ?_, hpath.mono (Tree.extends_addChild? hchild), hholds, hle, hentry⟩
  rw [Tree.get?_addChild? habove hchild, if_neg (Nat.ne_of_lt (Tree.get?_lt_size hnode))]
  exact hnode

/-- A new child stands for the points of its parent that satisfy its branch. -/
theorem covers_child {tree tree' : Tree ExtRat} {id : ℕ} {node : Node ExtRat} {b : Branch ExtRat}
    {bs : List (Branch ExtRat)} (hnode : tree.get? id = some node) (hpath : tree.Path id bs)
    (hchild : tree.addChild? id b = some tree') (hb : b.Holds (y.map .fin))
    (hbs : ∀ d ∈ bs, d.Holds (y.map .fin))
    (hle : ctx.problem.objectiveValue (y.map .fin) ≤ node.bound) {bound : ExtRat}
    (hbound : ctx.settings.enumerateAll = false →
      ctx.problem.objectiveValue (y.map .fin) ≤ bound) (serial : ℕ) (priority : ExtRat) :
    Covers ctx tree' ⟨tree.size, priority, serial, bound⟩ y := by
  refine ⟨node.child tree.size b, b :: bs, ?_, hpath.addChild? hnode hchild,
    List.forall_mem_cons.mpr ⟨hb, hbs⟩, hle, hbound⟩
  rw [Tree.get?_addChild? hnode hchild, if_pos rfl]

/-! ## Parts of a visit -/

namespace InvariantOn

variable {entries : List (Entry ExtRat)}

/-- The tree may change in a way that keeps paths and what is covered. -/
theorem of_tree (h : InvariantOn ctx entries s) {tree : Tree ExtRat} (hext : s.tree.Extends tree)
    (hkeep : ∀ d y, ctx.problem.IntegerPoint ctx.rootBox y → Covers ctx s.tree d y →
      Covers ctx tree d y) : InvariantOn ctx entries ⟨tree, s.frontier, s.incumbent⟩ := by
  refine ⟨h.numbered, fun d hd => ?_, fun y hy => ?_, h.no_point⟩
  · obtain ⟨bs, hpath, hzeroOne⟩ := h.path d hd
    exact ⟨bs, hpath.mono hext, hzeroOne⟩
  · rcases h.covered y hy with hle | ⟨d, hd, hcovers⟩
    · exact .inl hle
    · exact .inr ⟨d, hd, hkeep d y hy hcovers⟩

/-- A node may change as long as it keeps its place and its bound. -/
theorem of_modify (h : InvariantOn ctx entries s) {id : ℕ} {g : Node ExtRat → Node ExtRat}
    (hg : ∀ node, (g node).id = node.id ∧ (g node).parent = node.parent ∧
      (g node).depth = node.depth ∧ (g node).branch = node.branch)
    (hbound : ∀ node, (g node).bound = node.bound) :
    InvariantOn ctx entries ⟨s.tree.modify id g, s.frontier, s.incumbent⟩ := by
  refine h.of_tree (Tree.extends_modify hg) fun d y _ hd => hd.modify hg fun node _ _ _ _ hle => ?_
  rw [hbound]
  exact hle

/-- A better incumbent takes over. -/
theorem of_offer (h : InvariantOn ctx entries s) (x : List ExtRat) (objective : ExtRat) :
    InvariantOn ctx entries ⟨s.tree, s.frontier, s.incumbent.offer x objective⟩ := by
  refine ⟨h.numbered, h.path, fun y hy => ?_, ?_⟩
  · rcases h.covered y hy with hle | hcovers
    · refine .inl (hle.trans ?_)
      show _ ≤ (s.incumbent.offer x objective).objective
      rw [Incumbent.objective_offer]
      split
      · exact le_of_lt ‹_›
      · exact le_refl _
    · exact .inr hcovers
  · show (s.incumbent.offer x objective).point = none → _
    unfold Incumbent.offer
    split
    · intro hnone
      cases hnone
    · exact h.no_point

/-- Another node with a path of its own is open. -/
theorem of_push (h : InvariantOn ctx entries s) {id : ℕ} {bs : List (Branch ExtRat)}
    (hpath : s.tree.Path id bs)
    (hzeroOne : ctx.problem.isBinaryDomain ctx.settings.binaryVars = true →
      ZeroOnePath ctx.problem.numVars bs) (priority bound : ExtRat) :
    InvariantOn ctx (entries ++ [⟨id, priority, s.frontier.added, bound⟩])
      ⟨s.tree, s.frontier.push id priority bound, s.incumbent⟩ := by
  refine ⟨h.numbered.push id priority bound, fun d hd => ?_, fun y hy => ?_, h.no_point⟩
  · rcases List.mem_append.mp hd with hd | hd
    · exact h.path d hd
    · rw [List.mem_singleton.mp hd]
      exact ⟨bs, hpath, hzeroOne⟩
  · rcases h.covered y hy with hle | ⟨d, hd, hcovers⟩
    · exact .inl hle
    · exact .inr ⟨d, List.mem_append_left _ hd, hcovers⟩

/-- A node is dealt with once each of its points is no better than the incumbent or in another
node. -/
theorem of_cons (h : InvariantOn ctx (e :: entries) s)
    (hdone : ∀ y, ctx.problem.IntegerPoint ctx.rootBox y → Covers ctx s.tree e y →
      ctx.problem.objectiveValue (y.map .fin) ≤ s.incumbent.objective ∨
        ∃ d ∈ entries, Covers ctx s.tree d y) : InvariantOn ctx entries s := by
  refine ⟨h.numbered, fun d hd => h.path d (List.mem_cons_of_mem e hd), fun y hy => ?_, h.no_point⟩
  rcases h.covered y hy with hle | ⟨d, hd, hcovers⟩
  · exact .inl hle
  · rcases List.mem_cons.mp hd with rfl | hd
    · exact hdone y hy hcovers
    · exact .inr ⟨d, hd, hcovers⟩

end InvariantOn

/-! ## Solved nodes -/

section Solved

variable {node : Node ExtRat} {box : Box ExtRat} {a : Answer ExtRat} {id : ℕ}
  {bs : List (Branch ExtRat)}

/-- A point that a node stands for is an integer point of its box. -/
theorem Solved.integerPoint (h : Solved ctx id s node box a) (hpath : s.tree.Path id bs)
    (hy : ctx.problem.IntegerPoint ctx.rootBox y) (hbs : ∀ b ∈ bs, b.Holds (y.map .fin)) :
    ctx.problem.IntegerPoint box y :=
  ⟨(Tree.contains_box?_iff hpath h.get? h.box? _).mpr ⟨hy.inside, hbs⟩, hy.rows, hy.whole⟩

theorem Solved.le_optimum (h : Solved ctx id s node box a)
    (hbackend : ctx.backend.BoundsOn ctx.problem) (hoptimal : a.isOptimal = true)
    (hpath : s.tree.Path id bs) (hy : ctx.problem.IntegerPoint ctx.rootBox y)
    (hbs : ∀ b ∈ bs, b.Holds (y.map .fin)) :
    ctx.problem.objectiveValue (y.map .fin) ≤ a.objective := by
  obtain ⟨backend, hanswer⟩ := h.answered
  exact hbackend.le_optimum hanswer (of_decide_eq_true hoptimal) y (h.integerPoint hpath hy hbs)

theorem Solved.false_of_not_optimal (h : Solved ctx id s node box a)
    (hbackend : ctx.backend.BoundsOn ctx.problem) (hnot : a.isOptimal = false)
    (hpath : s.tree.Path id bs) (hy : ctx.problem.IntegerPoint ctx.rootBox y)
    (hbs : ∀ b ∈ bs, b.Holds (y.map .fin)) : False := by
  obtain ⟨backend, hanswer⟩ := h.answered
  have hne := of_decide_eq_false hnot
  cases hstatus : a.status with
  | optimal => exact hne hstatus
  | infeasible => exact hbackend.infeasible hanswer hstatus y (h.integerPoint hpath hy hbs)
  | iterationLimit => exact hbackend.not_limited hanswer hstatus

/-- Recording the optimum of a node keeps what is covered. -/
theorem Covers.recorded {d : Entry ExtRat} (h : Covers ctx s.tree d y)
    (hsolved : Solved ctx id s node box a) (hbackend : ctx.backend.BoundsOn ctx.problem)
    (hoptimal : a.isOptimal = true) (hy : ctx.problem.IntegerPoint ctx.rootBox y)
    (status : NodeStatus) (infeasibility : Option (Infeasibility ExtRat)) :
    Covers ctx (Search.recorded s id a.objective status infeasibility) d y :=
  h.modify (fun _ => ⟨rfl, rfl, rfl, rfl⟩) fun _ _ _ hpath hbs _ =>
    hsolved.le_optimum hbackend hoptimal hpath hy hbs

theorem InvariantOn.recorded {entries : List (Entry ExtRat)} (h : InvariantOn ctx entries s)
    (hsolved : Solved ctx id s node box a) (hbackend : ctx.backend.BoundsOn ctx.problem)
    (hoptimal : a.isOptimal = true) (status : NodeStatus)
    (infeasibility : Option (Infeasibility ExtRat)) :
    InvariantOn ctx entries
      ⟨Search.recorded s id a.objective status infeasibility, s.frontier, s.incumbent⟩ :=
  h.of_tree (Tree.extends_modify fun _ => ⟨rfl, rfl, rfl, rfl⟩) fun _ _ hy hcovers =>
    hcovers.recorded hsolved hbackend hoptimal hy status infeasibility

theorem Solved.inside (h : Solved ctx id s node box a) (hbackend : ctx.backend.SoundOn ctx.problem)
    (hoptimal : a.isOptimal = true) : box.Contains a.x := by
  obtain ⟨backend, hanswer⟩ := h.answered
  exact hbackend.inside hanswer (of_decide_eq_true hoptimal)

/-- An optimum inside its box is integer where the depth alone would close the node: no variable is
left to branch on. -/
theorem Solved.integerFeasible?_ne (h : Solved ctx id s node box a) (hinside : box.Contains a.x)
    (hlimit : ctx.settings.depthLimit = none) (htol : 0 < ctx.settings.integralityTol)
    (hdeep : ctx.tooDeep node.depth = true) (hpath : s.tree.Path id bs)
    (hzeroOne : ctx.problem.isBinaryDomain ctx.settings.binaryVars = true →
      ZeroOnePath ctx.problem.numVars bs) :
    ctx.problem.integerFeasible? a.x ctx.settings.integralityTol ≠ some false := by
  obtain ⟨hroot, hbs⟩ := (Tree.contains_box?_iff hpath h.get? h.box? a.x).mp hinside
  rw [← hpath.length_eq h.get?] at hdeep
  exact integerFeasible?_ne_of_tooDeep hlimit htol hzeroOne hdeep hroot hbs

/-- A fractional optimum is branched on unless its value closes the node. -/
theorem Solved.closedBy_of_fathomed (h : Solved ctx id s node box a)
    (hbackend : ctx.backend.SoundOn ctx.problem) (hlimit : ctx.settings.depthLimit = none)
    (htol : 0 < ctx.settings.integralityTol) (hoptimal : a.isOptimal = true)
    (hinteger : ctx.problem.integerFeasible? a.x ctx.settings.integralityTol = some false)
    (hclosed : ctx.closedBy s.incumbent.objective a.objective = true ∨
      ctx.tooDeep node.depth = true)
    (hpath : s.tree.Path id bs)
    (hzeroOne : ctx.problem.isBinaryDomain ctx.settings.binaryVars = true →
      ZeroOnePath ctx.problem.numVars bs) :
    ctx.closedBy s.incumbent.objective a.objective = true := by
  refine hclosed.resolve_right fun hdeep => ?_
  exact h.integerFeasible?_ne (h.inside hbackend hoptimal) hlimit htol hdeep hpath hzeroOne hinteger

end Solved

theorem le_objective_offer {α : Type} [Scalar α] [LinearScalar α] (i : Incumbent α) (x : List α)
    (objective : α) : objective ≤ (i.offer x objective).objective := by
  rw [Incumbent.objective_offer]
  split
  · exact le_refl _
  · exact not_lt.mp ‹_›

theorem le_of_closedBy {α : Type} [Scalar α] {ctx : Context σ α} {incumbent bound : α}
    (h : ctx.closedBy incumbent bound = true) : bound ≤ incumbent := by
  unfold Context.closedBy at h
  exact of_decide_eq_true (Bool.and_eq_true_iff.mp h).2

/-! ## Visits -/

section Branching

variable {node : Node ExtRat} {box : Box ExtRat} {a : Answer ExtRat} {c : Candidate ExtRat}
  {fs : List (ℕ × ExtRat)} {bs : List (Branch ExtRat)}

/-- Where all domains end at one, the branches of a child fix different variables as well. -/
theorem Solved.zeroOnePath_cons {id : ℕ} (h : Solved ctx id s node box a)
    (hinside : box.Contains a.x) (hfs : ctx.problem.fractional? a.x = some fs)
    (hc : c.fraction ∈ fs) (hpath : s.tree.Path id bs)
    (hbinary : ctx.problem.isBinaryDomain ctx.settings.binaryVars = true)
    (hzeroOne : ZeroOnePath ctx.problem.numVars bs) :
    ZeroOnePath ctx.problem.numVars (c.down :: bs) ∧
      ZeroOnePath ctx.problem.numVars (c.up :: bs) := by
  obtain ⟨hroot, hbs⟩ := (Tree.contains_box?_iff hpath h.get? h.box? a.x).mp hinside
  obtain ⟨-, hvalue, hfrac⟩ := Problem.fractional?_spec hfs hc
  have hlen : a.x.length = ctx.problem.numVars := by
    rw [← hroot.1.length_eq]
    exact List.length_replicate
  have hvar : c.var < ctx.problem.numVars :=
    lt_of_lt_of_eq (List.getElem?_eq_some_iff.mp hvalue).1 hlen
  exact hzeroOne.cons hbs (fun _ _ => Box.value_mem_of_root hbinary hroot) hvar hvalue hfrac

/-- Branching deals with a node: its points are shared by its children. -/
theorem invariant_branched (h : InvariantOn ctx (e :: s.frontier.entries) s)
    (hbackend : ctx.backend.SoundOn ctx.problem) (hsolved : Solved ctx e.node s node box a)
    (hoptimal : a.isOptimal = true) (hfs : ctx.problem.fractional? a.x = some fs)
    (hc : c.fraction ∈ fs) {infeasibility : Option (Infeasibility ExtRat)}
    {tree tree' : Tree ExtRat}
    (hdown : (recorded s e.node a.objective .candidate infeasibility).addChild? e.node c.down
      = some tree)
    (hup : tree.addChild? e.node c.up = some tree') (priority priority' : ExtRat) :
    Invariant ctx ⟨tree', (s.frontier.push s.tree.size priority
        (childBound ctx s.incumbent.objective a.objective)).push tree.size priority'
        (childBound ctx s.incumbent.objective a.objective), s.incumbent⟩ := by
  obtain ⟨bs, hpath, hzeroOne⟩ := h.path e List.mem_cons_self
  have hchildren := hsolved.zeroOnePath_cons (hsolved.inside hbackend hoptimal) hfs hc hpath
  -- the parent, with its optimum as its bound, before and after its first child is added
  have hsize := size_recorded s e.node a.objective .candidate infeasibility
  have hrecorded := (h.recorded hsolved hbackend.toBoundsOn hoptimal .candidate infeasibility)
  have hparent := get?_recorded s e.node a.objective .candidate infeasibility hsolved.get?
  have hparent' : tree.get? e.node
      = some { node with bound := a.objective, status := .candidate, infeasibility } := by
    rw [Tree.get?_addChild? hparent hdown, if_neg (Nat.ne_of_lt (Tree.get?_lt_size hparent))]
    exact hparent
  have hpath₁ : (recorded s e.node a.objective .candidate infeasibility).Path e.node bs :=
    hpath.mono (Tree.extends_modify fun _ => ⟨rfl, rfl, rfl, rfl⟩)
  have hpath₂ : tree.Path e.node bs := hpath₁.mono (Tree.extends_addChild? hdown)
  have hpath₃ : tree'.Path e.node bs := hpath₂.mono (Tree.extends_addChild? hup)
  have hpathDown := (hpath₁.addChild? hparent hdown).mono (Tree.extends_addChild? hup)
  have hpathUp := hpath₂.addChild? hparent' hup
  rw [hsize] at hpathDown
  -- both children are added first, then both are opened, and only then the parent is given up
  have htree := (hrecorded.of_tree (Tree.extends_addChild? hdown) fun _ _ _ hd =>
    hd.addChild? hdown).of_tree (Tree.extends_addChild? hup) fun _ _ _ hd => hd.addChild? hup
  have hopen := (htree.of_push hpathDown (fun hbinary => (hchildren hbinary (hzeroOne hbinary)).1)
    priority (childBound ctx s.incumbent.objective a.objective)).of_push hpathUp
    (fun hbinary => (hchildren hbinary (hzeroOne hbinary)).2) priority'
    (childBound ctx s.incumbent.objective a.objective)
  refine InvariantOn.of_cons hopen fun y hy hcovers => .inr ?_
  obtain ⟨_, _, -, hpath', hbs, -, -⟩ := hcovers
  cases hpath₃.unique hpath'
  have hle := hsolved.le_optimum hbackend.toBoundsOn hoptimal hpath hy hbs
  have hbound : ctx.settings.enumerateAll = false → ctx.problem.objectiveValue (y.map .fin)
      ≤ childBound ctx s.incumbent.objective a.objective := by
    intro hsome
    rw [childBound_eq hsome]
    exact hle
  obtain ⟨hvar, -, hfrac⟩ := Problem.fractional?_spec hfs hc
  -- the point is whole at the variable branched on, so it lies on one side of its value
  rcases Branch.holds_down_or_up hfrac (hy.whole _ hvar) with hside | hside
  · have hchild := (covers_child hparent hpath₁ hdown hside hbs hle hbound s.frontier.added
      priority).addChild? hup
    rw [hsize] at hchild
    exact ⟨_, List.mem_append_left _ (List.mem_append_right _ List.mem_cons_self), hchild⟩
  · exact ⟨_, List.mem_append_right _ List.mem_cons_self,
      covers_child hparent' hpath₂ hup hside hbs hle hbound _ _⟩

end Branching

/-- A visit keeps the invariant. -/
theorem invariant_visited (hbackend : ctx.backend.SoundOn ctx.problem)
    (hlimit : ctx.settings.depthLimit = none) (htol : 0 < ctx.settings.integralityTol)
    (h : InvariantOn ctx (e :: s.frontier.entries) s) {t : Core ExtRat}
    (hvisited : Visited ctx e.node s t) : Invariant ctx t := by
  obtain ⟨bs, hpath, hzeroOne⟩ := h.path e List.mem_cons_self
  cases hvisited with
  | pruned hnode hclosed =>
    refine (h.of_cons fun y hy hcovers => .inl ?_).of_modify (fun _ => ⟨rfl, rfl, rfl, rfl⟩)
      fun _ => rfl
    obtain ⟨node, _, hnode', -, -, hle, -⟩ := hcovers
    cases hnode.symm.trans hnode'
    exact hle.trans (le_of_closedBy hclosed)
  | infeasible hsolved hnot infeasibility =>
    refine (h.of_cons fun y hy hcovers => ?_).of_modify (fun _ => ⟨rfl, rfl, rfl, rfl⟩)
      fun _ => rfl
    obtain ⟨_, _, -, hpath', hbs, -, -⟩ := hcovers
    exact (hsolved.false_of_not_optimal hbackend.toBoundsOn hnot hpath' hy hbs).elim
  | integer hsolved hoptimal hinteger infeasibility =>
    refine ((h.of_offer _ _).of_cons fun y hy hcovers => .inl ?_).recorded
      ⟨hsolved.get?, hsolved.box?, hsolved.answered⟩ hbackend.toBoundsOn hoptimal .integer
      infeasibility
    obtain ⟨_, _, -, hpath', hbs, -, -⟩ := hcovers
    exact (hsolved.le_optimum hbackend.toBoundsOn hoptimal hpath' hy hbs).trans
      (le_objective_offer _ _ _)
  | fathomed hsolved hoptimal hinteger hclosed infeasibility =>
    refine (h.of_cons fun y hy hcovers => .inl ?_).recorded hsolved hbackend.toBoundsOn hoptimal
      .fathomed infeasibility
    obtain ⟨_, _, -, hpath', hbs, -, -⟩ := hcovers
    exact (hsolved.le_optimum hbackend.toBoundsOn hoptimal hpath' hy hbs).trans
      (le_of_closedBy (hsolved.closedBy_of_fathomed hbackend hlimit htol hoptimal hinteger hclosed
        hpath hzeroOne))
  | branched hsolved hoptimal hfs hc infeasibility hdown hup priority priority' =>
    exact invariant_branched h hbackend hsolved hoptimal hfs hc hdown hup priority priority'

/-! ## Runs -/

/-- At first the root stands for every point. -/
theorem invariant_initial (backend : σ) : Invariant ctx (initial ctx backend).core := by
  have hroot : (initial ctx backend).core.tree.get? 0 = some .root := rfl
  have hpath : (initial ctx backend).core.tree.Path 0 [] := .root hroot rfl rfl
  refine ⟨Frontier.numbered_empty.push 0 _ _, fun e he => ?_, fun y hy => .inr ?_,
    fun _ => rfl⟩
  · rw [List.mem_singleton.mp he]
    exact ⟨[], hpath, fun _ => zeroOnePath_nil _⟩
  · exact ⟨_, List.mem_cons_self, .root, [], hroot, hpath, nofun, ExtRat.le_posInf _,
      fun _ => ExtRat.le_posInf _⟩

theorem invariant_of_reachable (hbackend : ctx.backend.SoundOn ctx.problem)
    (hlimit : ctx.settings.depthLimit = none) (htol : 0 < ctx.settings.integralityTol)
    {backend : σ} {s : State σ ExtRat} (h : Reachable ctx (initial ctx backend) s) :
    Invariant ctx s.core := by
  induction h with
  | start => exact invariant_initial backend
  | take hs htake ih =>
    exact invariant_visited hbackend hlimit htol (invariantOn_pop ih htake.pop?)
      (visited_of_runs_visit htake.visit)

end Search

end BranchBound
