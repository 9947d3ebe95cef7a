import BranchBound.Proofs.Search.Partition

/-!
# What becomes of a point

A point that is whole at the integer variables is followed through a search whose backend gives it
its due: every box with the point in it has an optimum, worth at least the value of the point. The
search then reaches that value, or still has an open node for the point, or has dropped the point
with a node that was too deep to be branched on. Nothing else can close a node with the point in it.

* `Trusted`: the answers about the boxes of a tree that hold a point.
* `Dropped`: nodes that only their depth has closed.
* `Kept`, `kept_visited`, `kept_of_grown`: the three ways, after one visit and along a run.
-/

namespace BranchBound.Search

open Relaxation

variable {σ : Type} {ctx : Context σ ExtRat} {s t : Core ExtRat} {e : Entry ExtRat} {y : List ℚ}
  {v : ExtRat}

/-! ## A point and its value -/

/-- Every answer about a box of the tree with the point in it is an optimum worth at least `v`. -/
def Trusted (ctx : Context σ ExtRat) (tree : Tree ExtRat) (y : List ℚ) (v : ExtRat) : Prop :=
  ∀ id box, tree.box? id ctx.rootBox = some box → box.Contains (y.map .fin) →
    ∀ backend a, (ctx.backend.solve ctx.problem box none backend).1.outcome = .ok a →
      a.isOptimal = true ∧ v ≤ a.objective

/-- A node with a fractional optimum that was closed at a depth from which on nodes are not branched
on. -/
structure Dropped (ctx : Context σ ExtRat) (s : Core ExtRat) (id : ℕ) (node : Node ExtRat)
    (box : Box ExtRat) (a : Answer ExtRat) : Prop extends Solved ctx id s node box a where
  isOptimal : a.isOptimal = true
  fractional : ctx.problem.integerFeasible? a.x ctx.settings.integralityTol = some false
  bound_eq : node.bound = a.objective
  status_eq : node.status = .fathomed
  tooDeep : ctx.tooDeep node.depth = true

/-- Where a search stands with a point of value `v`, if the given entries are still to be dealt
with. -/
inductive Kept (ctx : Context σ ExtRat) (y : List ℚ) (v : ExtRat) (entries : List (Entry ExtRat))
    (s : Core ExtRat) : Prop
  /-- The incumbent is worth as much. -/
  | reached (hle : v ≤ s.incumbent.objective)
  /-- An open node holds the point, and its bounds do not rule it out. -/
  | pending {e : Entry ExtRat} {node : Node ExtRat} (he : e ∈ entries)
      (hnode : s.tree.get? e.node = some node) (hholds : s.tree.HoldsOn e.node y)
      (hbound : v ≤ node.bound) (hentry : ctx.settings.enumerateAll = false → v ≤ e.bound)
  /-- A dropped node holds the point. -/
  | dropped {id : ℕ} {node : Node ExtRat} {box : Box ExtRat} {a : Answer ExtRat}
      (hdropped : Dropped ctx s id node box a) (hinside : box.Contains (y.map .fin))
      (hbound : v ≤ node.bound)

/-! ## One visit -/

theorem Visited.objective_le {id : ℕ} (h : Visited ctx id s t) :
    s.incumbent.objective ≤ t.incumbent.objective := by
  cases h with
  | integer hsolved hoptimal hinteger infeasibility =>
    show s.incumbent.objective ≤ (s.incumbent.offer _ _).objective
    rw [Incumbent.objective_offer]
    split
    · exact le_of_lt ‹_›
    · exact le_refl _
  | _ => exact le_refl _

variable {pending : List ℕ}

/-- A visit of another node leaves a dropped one as it is. -/
theorem Dropped.visited {id : ℕ} {node : Node ExtRat} {box : Box ExtRat} {a : Answer ExtRat}
    (h : Dropped ctx s id node box a) (hpartition : PartitionOn ctx s.tree (e.node :: pending))
    (hvisited : Visited ctx e.node s t) : Dropped ctx t id node box a := by
  have hne : id ≠ e.node := by
    rintro rfl
    refine hpartition.not_closed e.node List.mem_cons_self ⟨node, h.get?, ?_⟩
    rw [h.status_eq]
    exact NodeStatus.noConfusion
  obtain ⟨bs, hpath, -⟩ := hpartition.path id node h.get?
  refine ⟨⟨hvisited.get?_of_ne h.get? hne, ?_, h.answered⟩, h.isOptimal, h.fractional, h.bound_eq,
    h.status_eq, h.tooDeep⟩
  rw [hpath.box?_of_extends hvisited.extends]
  exact h.box?

/-- The box of a solved node holds the points that satisfy its path. -/
theorem Solved.contains {node : Node ExtRat} {box : Box ExtRat} {a : Answer ExtRat}
    (h : Solved ctx e.node s node box a) (hpartition : PartitionOn ctx s.tree (e.node :: pending))
    (hy : WholePoint ctx y) (hholds : s.tree.HoldsOn e.node y) : box.Contains (y.map .fin) := by
  obtain ⟨box', hbox', hinside⟩ := (hpartition.contains_box?_iff hy
    ((hpartition.isLeaf_iff e.node).mpr (.inl List.mem_cons_self))).mpr hholds
  cases h.box?.symm.trans hbox'
  exact hinside

/-- The visited node itself: what it stood for is reached, shared by its children, or dropped. -/
theorem kept_of_holdsOn (hpartition : PartitionOn ctx s.tree (e.node :: pending))
    (htrusted : Trusted ctx s.tree y v) (hy : WholePoint ctx y) {node : Node ExtRat}
    (hnode : s.tree.get? e.node = some node) (hholds : s.tree.HoldsOn e.node y)
    (hbound : v ≤ node.bound) (hvisited : Visited ctx e.node s t) :
    Kept ctx y v t.frontier.entries t := by
  have hanswer : ∀ {node box a}, Solved ctx e.node s node box a →
      a.isOptimal = true ∧ v ≤ a.objective := by
    intro node box a hsolved
    obtain ⟨backend, houtcome⟩ := hsolved.answered
    have hinside := hsolved.contains hpartition hy hholds
    exact htrusted e.node box hsolved.box? hinside backend a houtcome
  cases hvisited with
  | pruned hnode' hclosed =>
    cases hnode.symm.trans hnode'
    exact .reached (hbound.trans (le_of_closedBy hclosed))
  | infeasible hsolved hnot infeasibility =>
    exact absurd (hanswer hsolved).1 (ne_true_of_eq_false hnot)
  | integer hsolved hoptimal hinteger infeasibility =>
    exact .reached ((hanswer hsolved).2.trans (le_objective_offer _ _ _))
  | @fathomed node' box a hsolved hoptimal hinteger hclosed infeasibility =>
    have hle := (hanswer hsolved).2
    rcases hclosed with hclosed | hdeep
    · exact .reached (hle.trans (le_of_closedBy hclosed))
    · obtain ⟨bs, hpath, -⟩ := hpartition.path e.node node' hsolved.get?
      have hbox : (recorded s e.node a.objective .fathomed infeasibility).box? e.node ctx.rootBox
          = some box := by
        rw [hpath.box?_of_extends (extends_recorded _ _ _ _ _)]
        exact hsolved.box?
      have hsolved' : Solved ctx e.node
          ⟨recorded s e.node a.objective .fathomed infeasibility, s.frontier, s.incumbent⟩
          { node' with bound := a.objective, status := .fathomed, infeasibility } box a :=
        ⟨get?_recorded _ _ _ _ _ hsolved.get?, hbox, hsolved.answered⟩
      exact .dropped ⟨hsolved', hoptimal, hinteger, rfl, rfl, hdeep⟩
        (hsolved.contains hpartition hy hholds) hle
  | @branched node' box a c fs tree tree' hsolved hoptimal hfs hc infeasibility hdown hup priority
      priority' =>
    have hle := (hanswer hsolved).2
    obtain ⟨bs, hpath, -⟩ := hpartition.path e.node node' hsolved.get?
    have hpath' := hpath.mono (extends_recorded s e.node a.objective .candidate infeasibility)
    have hparent := get?_recorded s e.node a.objective .candidate infeasibility hsolved.get?
    have hsize := size_recorded s e.node a.objective .candidate infeasibility
    obtain ⟨hpathDown, hpathUp⟩ := hpath'.children hparent hdown hup
    obtain ⟨⟨down, hdownNode, hdownBound⟩, up, hupNode, hupBound⟩ :=
      Tree.exists_children hparent hdown hup
    rw [hsize] at hpathDown hpathUp hdownNode hupNode
    have hentry : ctx.settings.enumerateAll = false →
        v ≤ childBound ctx s.incumbent.objective a.objective := by
      intro hall
      rw [childBound_eq hall]
      exact hle
    obtain ⟨hvar, -, hfrac⟩ := Problem.fractional?_spec hfs hc
    -- the point is whole at the variable branched on, so it satisfies one of the two branches
    rcases Branch.holds_down_or_up hfrac (hy.whole _ hvar) with hside | hside
    · refine .pending (List.mem_append_left _ (List.mem_append_right _ List.mem_cons_self))
        hdownNode ?_ (hdownBound ▸ hle) hentry
      exact (hpath.holdsOn_cons_iff hpathDown).mpr ⟨hholds, hside⟩
    · have hsecond : tree.size = s.tree.size + 1 := by
        rw [Tree.size_addChild? hdown, hsize]
      rw [← hsecond] at hpathUp hupNode
      refine .pending (List.mem_append_right _ List.mem_cons_self) hupNode ?_ (hupBound ▸ hle)
        hentry
      exact (hpath.holdsOn_cons_iff hpathUp).mpr ⟨hholds, hside⟩

/-- A visit keeps the point. -/
theorem kept_visited
    (hpartition : PartitionOn ctx s.tree (e.node :: s.frontier.entries.map Entry.node))
    (htrusted : Trusted ctx s.tree y v) (hy : WholePoint ctx y)
    (h : Kept ctx y v (e :: s.frontier.entries) s) (hvisited : Visited ctx e.node s t) :
    Kept ctx y v t.frontier.entries t := by
  cases h with
  | reached hle => exact .reached (hle.trans hvisited.objective_le)
  | dropped hdropped hinside hbound =>
    exact .dropped (hdropped.visited hpartition hvisited) hinside hbound
  | @pending d node hd hnode hholds hbound hentry =>
    rcases List.mem_cons.mp hd with rfl | hd
    · exact kept_of_holdsOn hpartition htrusted hy hnode hholds hbound hvisited
    · have hne : d.node ≠ e.node := by
        intro heq
        exact (List.nodup_cons.mp hpartition.nodup).1 (heq ▸ List.mem_map_of_mem hd)
      obtain ⟨bs, hpath, -⟩ := hpartition.path d.node node hnode
      exact .pending (hvisited.mem_entries hd) (hvisited.get?_of_ne hnode hne)
        ((hpath.holdsOn_iff_of_extends hvisited.extends).mpr hholds) hbound hentry

/-! ## Runs -/

/-- Boxes stay as the tree grows, so what is trusted of a later tree is trusted of an earlier
one. -/
theorem Trusted.of_extends {tree tree' : Tree ExtRat} (h : Trusted ctx tree' y v)
    (hpaths : ∀ id node, tree.get? id = some node → ∃ bs, tree.Path id bs)
    (hext : tree.Extends tree') : Trusted ctx tree y v := by
  intro id box hbox
  exact h id box (Tree.box?_of_extends hpaths hext hbox)

/-- At every moment of a search the point is reached, in an open node, or dropped. -/
theorem kept_of_grown (hy : WholePoint ctx y) (h : Grown ctx s)
    (htrusted : Trusted ctx s.tree y v) : Kept ctx y v s.frontier.entries s := by
  induction h with
  | start =>
    have hroot : (Core.start : Core ExtRat).tree.get? 0 = some .root := rfl
    exact .pending List.mem_cons_self hroot ⟨[], .root hroot rfl rfl, nofun⟩ (ExtRat.le_posInf _)
      fun _ => ExtRat.le_posInf _
  | @take s t e rest hs hpop hvisited ih =>
    have hpartition := partition_of_grown hs
    obtain ⟨-, hpending⟩ := hpartition.pop hpop
    have hbefore : Trusted ctx s.tree y v := by
      refine htrusted.of_extends (fun id node hnode => ?_) hvisited.extends
      obtain ⟨bs, hpath, -⟩ := hpending.path id node hnode
      exact ⟨bs, hpath⟩
    refine kept_visited (s := ⟨s.tree, rest, s.incumbent⟩) hpending hbefore hy ?_ hvisited
    -- the node taken out is one of those that were open
    cases ih hbefore with
    | reached hle => exact .reached hle
    | dropped hdropped hinside hbound =>
      exact .dropped ⟨⟨hdropped.get?, hdropped.box?, hdropped.answered⟩, hdropped.isOptimal,
        hdropped.fractional, hdropped.bound_eq, hdropped.status_eq, hdropped.tooDeep⟩ hinside hbound
    | pending hd hnode hholds hbound hentry =>
      exact .pending (((hpartition.numbered.pop? hpop).2 _).mp hd) hnode hholds hbound hentry

end BranchBound.Search
