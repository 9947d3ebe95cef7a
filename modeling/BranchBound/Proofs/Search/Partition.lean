import BranchBound.Proofs.Search.Bound

/-!
# The leaves share the integer points

Between two nodes of a search, a point of the root box that is whole at every integer variable lies
in the box of exactly one node without children, whatever the backend answers. The nodes without
children are the open ones and the closed ones.

* `Branch.not_holds_down_and_up`: no point satisfies both branches on a fractional variable.
* `Tree.IsLeaf`, `Tree.Closed`, `Tree.HoldsOn`: nodes without children, nodes that are done with,
  points that satisfy the path of a node.
* `PartitionOn`: what holds of the tree and the nodes still to be dealt with.
* `PartitionOn.visited`: a visit keeps it.
* `leaves_partition`: it holds along a whole run.
-/

namespace BranchBound

/-- The whole numbers around a fractional value are different, so no point is on both sides. -/
theorem Branch.not_holds_down_and_up {x : List ExtRat} {j : ℕ} {v : ExtRat}
    (hv : Problem.fractionalTol < Scalar.fractionality v) :
    ¬ ((Branch.down j v).Holds x ∧ (Branch.up j v).Holds x) := by
  rintro ⟨⟨w, hw, hle⟩, ⟨w', hw', hge⟩⟩
  cases hw.symm.trans hw'
  obtain ⟨a, rfl, hfloor, hceil⟩ := exists_fin_of_fractional hv
  have hends : Scalar.ceil (ExtRat.fin a) ≤ Scalar.floor (ExtRat.fin a) := le_trans hge hle
  rw [ExtRat.floor_fin, ExtRat.ceil_fin, ExtRat.fin_le_fin] at hends
  exact absurd hends (not_le.mpr (hfloor.trans hceil))

/-! ## Boxes along a path -/

/-- Branches on variables of the box can be replayed. -/
theorem exists_foldlM_restrict? {α : Type} [Scalar α] {bs : List (Branch α)} {root : Box α}
    (h : ∀ b ∈ bs, b.var < root.lower.length ∧ b.var < root.upper.length) :
    ∃ box, bs.foldlM (fun box b => Branch.restrict? b box) root = some box := by
  induction bs generalizing root with
  | nil => exact ⟨root, rfl⟩
  | cons b bs ih =>
    obtain ⟨hlower, hupper⟩ := h b List.mem_cons_self
    obtain ⟨restricted, hb⟩ := Branch.exists_restrict? hlower hupper
    obtain ⟨hlower', hupper'⟩ := Branch.length_of_restrict? hb
    rw [List.foldlM_cons, hb]
    refine ih fun d hd => ?_
    rw [hlower', hupper']
    exact h d (List.mem_cons_of_mem b hd)

/-! ## Leaves -/

namespace Tree

section Shape

variable {α : Type} {t u v : Tree α} {id k : ℕ} {node : Node α} {b c : Branch α}
  {bs : List (Branch α)}

/-- A node without children. -/
def IsLeaf (t : Tree α) (id : ℕ) : Prop :=
  (∃ node, t.get? id = some node) ∧
    ∀ k child, t.get? k = some child → child.parent ≠ some id

/-- A node that is infeasible, integer or fathomed. -/
def Closed (t : Tree α) (id : ℕ) : Prop :=
  ∃ node, t.get? id = some node ∧ node.status ≠ .candidate

/-- A node after a change was there before, with the same link to its parent. -/
theorem exists_of_get?_modify {g : Node α → Node α} (hg : ∀ node, (g node).parent = node.parent)
    (hk : (t.modify id g).get? k = some node) :
    ∃ before, t.get? k = some before ∧ node.parent = before.parent := by
  rw [get?_modify] at hk
  split at hk
  · obtain ⟨before, hbefore, rfl⟩ := Option.map_eq_some_iff.mp hk
    exact ⟨before, hbefore, hg before⟩
  · exact ⟨node, hk, rfl⟩

theorem isLeaf_modify_iff {g : Node α → Node α} (hg : ∀ node, (g node).parent = node.parent) :
    (t.modify id g).IsLeaf k ↔ t.IsLeaf k := by
  -- a change of one node leaves all links as they are
  have hlinks : ∀ j, ((t.modify id g).get? j).map Node.parent = (t.get? j).map Node.parent := by
    intro j
    rw [get?_modify]
    split
    · rw [Option.map_map]
      exact congrArg (fun f => (t.get? j).map f) (funext hg)
    · rfl
  have hchildren : ∀ w : Tree α, w.IsLeaf k ↔ (∃ p, (w.get? k).map Node.parent = some p) ∧
      ∀ j, (w.get? j).map Node.parent ≠ some (some k) := by
    intro w
    unfold IsLeaf
    simp only [Option.map_eq_some_iff, ne_eq, not_exists, not_and]
    constructor
    · rintro ⟨⟨node, hnode⟩, hnone⟩
      exact ⟨⟨_, node, hnode, rfl⟩, hnone⟩
    · rintro ⟨⟨_, node, hnode, -⟩, hnone⟩
      exact ⟨⟨node, hnode⟩, hnone⟩
  rw [hchildren, hchildren]
  simp only [hlinks]

theorem closed_modify_iff {g : Node α → Node α} (hk : k ≠ id) :
    (t.modify id g).Closed k ↔ t.Closed k := by
  unfold Closed
  rw [get?_modify, if_neg hk.symm]

/-! ### Two children -/

/-- A node of the new tree is an old one or an open child of the given node. -/
theorem cases_of_get?_children {child : Node α} (hpath : t.Path id bs)
    (hnode : t.get? id = some node) (hu : t.addChild? id b = some u)
    (hv : u.addChild? id c = some v) (hk : v.get? k = some child) :
    t.get? k = some child ∨
      ((k = t.size ∨ k = t.size + 1) ∧ child.parent = some id ∧ child.status = .candidate) := by
  rw [get?_children hnode hu hv] at hk
  split at hk
  · cases hk
    exact .inr ⟨.inr ‹_›, congrArg some (hpath.id_eq hnode), rfl⟩
  · split at hk
    · cases hk
      exact .inr ⟨.inl ‹_›, congrArg some (hpath.id_eq hnode), rfl⟩
    · exact .inl hk

/-- New children are open. -/
theorem closed_children_iff (hpath : t.Path id bs) (hnode : t.get? id = some node)
    (hu : t.addChild? id b = some u) (hv : u.addChild? id c = some v) :
    v.Closed k ↔ t.Closed k := by
  constructor
  · rintro ⟨child, hk, hstatus⟩
    rcases cases_of_get?_children hpath hnode hu hv hk with hk | ⟨-, -, hopen⟩
    · exact ⟨child, hk, hstatus⟩
    · exact absurd hopen hstatus
  · rintro ⟨old, hk, hstatus⟩
    exact ⟨old, (get?_children_of_lt hnode hu hv (get?_lt_size hk)).trans hk, hstatus⟩

/-- Two children take the place of their parent among the leaves. -/
theorem isLeaf_children_iff (hpath : t.Path id bs) (hnode : t.get? id = some node)
    (hparents : ∀ k child p, t.get? k = some child → child.parent = some p → p < t.size)
    (hu : t.addChild? id b = some u) (hv : u.addChild? id c = some v) :
    v.IsLeaf k ↔ (t.IsLeaf k ∧ k ≠ id) ∨ k = t.size ∨ k = t.size + 1 := by
  have hlt : id < t.size := get?_lt_size hnode
  have hdown : v.get? t.size = some (node.child t.size b) := by
    rw [get?_children hnode hu hv, if_neg (Nat.ne_of_lt (Nat.lt_succ_self _)), if_pos rfl]
  have hup : v.get? (t.size + 1) = some (node.child (t.size + 1) c) := by
    rw [get?_children hnode hu hv, if_pos rfl]
  have hold : ∀ {j}, j < t.size → v.get? j = t.get? j := get?_children_of_lt hnode hu hv
  -- parents are old nodes, so the children have no children
  have hchildless : t.size ≤ k → ∀ j child, v.get? j = some child → child.parent ≠ some k := by
    intro hk j child hj hparent
    rcases cases_of_get?_children hpath hnode hu hv hj with hj | ⟨-, hparent', -⟩
    · have hbelow := hparents j child k hj hparent
      omega
    · have hid := Option.some.inj (hparent.symm.trans hparent')
      omega
  constructor
  · rintro ⟨⟨leaf, hleaf⟩, hnone⟩
    by_cases hk : k < t.size
    · rw [hold hk] at hleaf
      refine .inl ⟨⟨⟨leaf, hleaf⟩, fun j child hj => hnone j child ?_⟩, ?_⟩
      · rw [hold (get?_lt_size hj)]
        exact hj
      · rintro rfl
        exact hnone _ _ hdown (congrArg some (hpath.id_eq hnode))
    · right
      have hsize := get?_lt_size hleaf
      rw [size_addChild? hv, size_addChild? hu] at hsize
      omega
  · rintro (⟨⟨⟨leaf, hleaf⟩, hnone⟩, hne⟩ | rfl | rfl)
    · refine ⟨⟨leaf, (hold (get?_lt_size hleaf)).trans hleaf⟩, fun j child hj hparent => ?_⟩
      rcases cases_of_get?_children hpath hnode hu hv hj with hj | ⟨-, hparent', -⟩
      · exact hnone j child hj hparent
      · exact hne (Option.some.inj (hparent.symm.trans hparent'))
    · exact ⟨⟨_, hdown⟩, hchildless (le_refl _)⟩
    · exact ⟨⟨_, hup⟩, hchildless (Nat.le_succ _)⟩

end Shape

variable {t u : Tree ExtRat} {id : ℕ} {bs : List (Branch ExtRat)} {y : List ℚ}

/-- A point satisfies every branch on the path of a node. -/
def HoldsOn (t : Tree ExtRat) (id : ℕ) (y : List ℚ) : Prop :=
  ∃ bs, t.Path id bs ∧ ∀ b ∈ bs, b.Holds (y.map .fin)

theorem Path.holdsOn_iff (hpath : t.Path id bs) :
    t.HoldsOn id y ↔ ∀ b ∈ bs, b.Holds (y.map .fin) := by
  constructor
  · rintro ⟨cs, hcs, hholds⟩
    rw [hpath.unique hcs]
    exact hholds
  · intro hholds
    exact ⟨bs, hpath, hholds⟩

theorem Path.holdsOn_iff_of_extends (hpath : t.Path id bs) (hext : t.Extends u) :
    u.HoldsOn id y ↔ t.HoldsOn id y := by
  rw [(hpath.mono hext).holdsOn_iff, hpath.holdsOn_iff]

/-- A point satisfies the path of a child if it satisfies the path of the parent and the branch. -/
theorem Path.holdsOn_cons_iff {k : ℕ} {b : Branch ExtRat} (hpath : t.Path id bs)
    (hchild : u.Path k (b :: bs)) :
    u.HoldsOn k y ↔ t.HoldsOn id y ∧ b.Holds (y.map .fin) := by
  rw [hchild.holdsOn_iff, hpath.holdsOn_iff, List.forall_mem_cons, and_comm]

end Tree

/-! ## The invariant -/

/-- Where one of two options takes the place of a possible choice, exactly one choice is left. -/
theorem existsUnique_replace {P : ℕ → Prop} {p q : Prop} (id m n : ℕ) (hP : ∃! k, P k)
    (hor : p ∨ q) (hnot : ¬ (p ∧ q)) :
    ∃! k, (P k ∧ k ≠ id) ∨ (k = m ∧ P id ∧ p) ∨ (k = n ∧ P id ∧ q) := by
  obtain ⟨k, hk, hunique⟩ := hP
  by_cases hid : k = id
  · subst hid
    rcases hor with hp | hq
    · refine ⟨m, .inr (.inl ⟨rfl, hk, hp⟩), ?_⟩
      rintro j (⟨hj, hne⟩ | ⟨rfl, -, -⟩ | ⟨-, -, hq⟩)
      · exact absurd (hunique j hj) hne
      · rfl
      · exact absurd ⟨hp, hq⟩ hnot
    · refine ⟨n, .inr (.inr ⟨rfl, hk, hq⟩), ?_⟩
      rintro j (⟨hj, hne⟩ | ⟨-, -, hp⟩ | ⟨rfl, -, -⟩)
      · exact absurd (hunique j hj) hne
      · exact absurd ⟨hp, hq⟩ hnot
      · rfl
  · refine ⟨k, .inl ⟨hk, hid⟩, ?_⟩
    rintro j (⟨hj, -⟩ | ⟨-, hold, -⟩ | ⟨-, hold, -⟩)
    · exact hunique j hj
    · exact absurd (hunique id hold).symm hid
    · exact absurd (hunique id hold).symm hid

namespace Search

open Relaxation

variable {σ : Type} {ctx : Context σ ExtRat}

/-- A point of the root box that is whole at every integer variable. -/
structure WholePoint (ctx : Context σ ExtRat) (y : List ℚ) : Prop where
  inside : ctx.rootBox.Contains (y.map .fin)
  whole : ∀ j ∈ ctx.problem.integerVars, ∃ k : ℤ, y[j]? = some (k : ℚ)

/-- What is true of a tree, where the given nodes are those still to be dealt with. -/
structure PartitionOn (ctx : Context σ ExtRat) (tree : Tree ExtRat) (pending : List ℕ) :
    Prop where
  path : ∀ id node, tree.get? id = some node →
    ∃ bs, tree.Path id bs ∧ ∀ b ∈ bs, b.var ∈ ctx.problem.integerVars
  parent_lt : ∀ id node parent, tree.get? id = some node → node.parent = some parent →
    parent < tree.size
  nodup : pending.Nodup
  not_closed : ∀ id ∈ pending, ¬ tree.Closed id
  isLeaf_iff : ∀ id, tree.IsLeaf id ↔ id ∈ pending ∨ tree.Closed id
  unique : ∀ y, WholePoint ctx y → ∃! id, tree.IsLeaf id ∧ tree.HoldsOn id y

namespace PartitionOn

variable {tree u v : Tree ExtRat} {id : ℕ} {pending : List ℕ} {g : Node ExtRat → Node ExtRat}
  {node : Node ExtRat} {c : Candidate ExtRat}

theorem exists_of_mem (h : PartitionOn ctx tree pending) (hid : id ∈ pending) :
    ∃ node, tree.get? id = some node :=
  ((h.isLeaf_iff id).mpr (.inl hid)).1

/-- A node may change as long as it keeps its place, and the leaves are still told apart. -/
theorem modify (h : PartitionOn ctx tree pending)
    (hg : ∀ node, (g node).id = node.id ∧ (g node).parent = node.parent ∧
      (g node).depth = node.depth ∧ (g node).branch = node.branch) {pending' : List ℕ}
    (hnodup : pending'.Nodup) (hnot : ∀ k ∈ pending', ¬ (tree.modify id g).Closed k)
    (hiff : ∀ k, k ∈ pending ∨ tree.Closed k ↔ k ∈ pending' ∨ (tree.modify id g).Closed k) :
    PartitionOn ctx (tree.modify id g) pending' := by
  have hext : tree.Extends (tree.modify id g) := Tree.extends_modify hg
  have hleaf : ∀ k, (tree.modify id g).IsLeaf k ↔ tree.IsLeaf k :=
    fun k => Tree.isLeaf_modify_iff fun node => (hg node).2.1
  have hparent : ∀ node, (g node).parent = node.parent := fun node => (hg node).2.1
  refine ⟨fun k node hk => ?_, fun k node p hk hp => ?_, hnodup, hnot, fun k => ?_, fun y hy => ?_⟩
  · obtain ⟨before, hbefore, -⟩ := Tree.exists_of_get?_modify hparent hk
    obtain ⟨bs, hpath, hvars⟩ := h.path k before hbefore
    exact ⟨bs, hpath.mono hext, hvars⟩
  · obtain ⟨before, hbefore, hlink⟩ := Tree.exists_of_get?_modify hparent hk
    rw [Tree.size_modify]
    exact h.parent_lt k before p hbefore (hlink.symm.trans hp)
  · rw [hleaf, h.isLeaf_iff, hiff]
  · refine (existsUnique_congr fun k => ?_).mp (h.unique y hy)
    rw [hleaf]
    refine and_congr_right fun hk => ?_
    obtain ⟨before, hbefore⟩ := hk.1
    obtain ⟨bs, hpath, -⟩ := h.path k before hbefore
    exact (hpath.holdsOn_iff_of_extends hext).symm

/-- Closing a node takes it from those still to be dealt with. -/
theorem close (h : PartitionOn ctx tree (id :: pending))
    (hg : ∀ node, (g node).id = node.id ∧ (g node).parent = node.parent ∧
      (g node).depth = node.depth ∧ (g node).branch = node.branch)
    (hstatus : ∀ node, (g node).status ≠ .candidate) :
    PartitionOn ctx (tree.modify id g) pending := by
  obtain ⟨hnew, hnodup⟩ := List.nodup_cons.mp h.nodup
  obtain ⟨node, hnode⟩ := h.exists_of_mem List.mem_cons_self
  have hclosed : (tree.modify id g).Closed id := by
    refine ⟨g node, ?_, hstatus node⟩
    rw [Tree.get?_modify, if_pos rfl, hnode, Option.map_some]
  refine h.modify hg hnodup (fun k hk => ?_) fun k => ?_
  · rw [Tree.closed_modify_iff (ne_of_mem_of_not_mem hk hnew)]
    exact h.not_closed k (List.mem_cons_of_mem id hk)
  · by_cases hk : k = id
    · subst hk
      exact ⟨fun _ => .inr hclosed, fun _ => .inl List.mem_cons_self⟩
    · rw [Tree.closed_modify_iff hk, List.mem_cons, or_iff_right hk]

/-- A node that is still to be dealt with may change in everything but its place. -/
theorem keep (h : PartitionOn ctx tree (id :: pending))
    (hg : ∀ node, (g node).id = node.id ∧ (g node).parent = node.parent ∧
      (g node).depth = node.depth ∧ (g node).branch = node.branch)
    (hstatus : ∀ node, (g node).status = .candidate) :
    PartitionOn ctx (tree.modify id g) (id :: pending) := by
  have hopen : ¬ (tree.modify id g).Closed id := by
    rintro ⟨node, hnode, hnot⟩
    rw [Tree.get?_modify, if_pos rfl] at hnode
    obtain ⟨before, -, rfl⟩ := Option.map_eq_some_iff.mp hnode
    exact hnot (hstatus before)
  refine h.modify hg h.nodup (fun k hk => ?_) fun k => ?_
  · by_cases hid : k = id
    · rw [hid]
      exact hopen
    · rw [Tree.closed_modify_iff hid]
      exact h.not_closed k hk
  · by_cases hid : k = id
    · rw [hid]
      exact ⟨fun _ => .inl List.mem_cons_self, fun _ => .inl List.mem_cons_self⟩
    · rw [Tree.closed_modify_iff hid]

/-- Two children on either side of a fractional variable share the points of their parent. -/
theorem unique_branch (h : PartitionOn ctx tree (id :: pending))
    (hvar : c.var ∈ ctx.problem.integerVars)
    (hfrac : Problem.fractionalTol < Scalar.fractionality c.value)
    (hdown : tree.addChild? id c.down = some u) (hup : u.addChild? id c.up = some v) {y : List ℚ}
    (hy : WholePoint ctx y) : ∃! k, v.IsLeaf k ∧ v.HoldsOn k y := by
  obtain ⟨node, hnode⟩ := h.exists_of_mem List.mem_cons_self
  obtain ⟨bs, hpath, -⟩ := h.path id node hnode
  obtain ⟨hpathDown, hpathUp⟩ := hpath.children hnode hdown hup
  have hext : tree.Extends v := (Tree.extends_addChild? hdown).trans (Tree.extends_addChild? hup)
  have hid : tree.IsLeaf id := (h.isLeaf_iff id).mpr (.inl List.mem_cons_self)
  have hkeep : ∀ k, tree.IsLeaf k → (v.HoldsOn k y ↔ tree.HoldsOn k y) := by
    intro k hk
    obtain ⟨old, hold⟩ := hk.1
    obtain ⟨cs, hcs, -⟩ := h.path k old hold
    exact hcs.holdsOn_iff_of_extends hext
  have hsplit := Branch.holds_down_or_up hfrac (hy.whole c.var hvar)
  have hnotBoth := Branch.not_holds_down_and_up (x := y.map .fin) (j := c.var) hfrac
  refine (existsUnique_congr fun k => ?_).mp
    (existsUnique_replace id tree.size (tree.size + 1) (h.unique y hy) hsplit hnotBoth)
  rw [Tree.isLeaf_children_iff hpath hnode h.parent_lt hdown hup]
  constructor
  · rintro (⟨⟨hk, hholds⟩, hne⟩ | ⟨rfl, ⟨-, hholds⟩, hb⟩ | ⟨rfl, ⟨-, hholds⟩, hb⟩)
    · exact ⟨.inl ⟨hk, hne⟩, (hkeep k hk).mpr hholds⟩
    · exact ⟨.inr (.inl rfl), (hpath.holdsOn_cons_iff hpathDown).mpr ⟨hholds, hb⟩⟩
    · exact ⟨.inr (.inr rfl), (hpath.holdsOn_cons_iff hpathUp).mpr ⟨hholds, hb⟩⟩
  · rintro ⟨⟨hk, hne⟩ | rfl | rfl, hholds⟩
    · exact .inl ⟨⟨hk, (hkeep k hk).mp hholds⟩, hne⟩
    · obtain ⟨hparent, hb⟩ := (hpath.holdsOn_cons_iff hpathDown).mp hholds
      exact .inr (.inl ⟨rfl, ⟨hid, hparent⟩, hb⟩)
    · obtain ⟨hparent, hb⟩ := (hpath.holdsOn_cons_iff hpathUp).mp hholds
      exact .inr (.inr ⟨rfl, ⟨hid, hparent⟩, hb⟩)

/-- Branching gives up a node for two open children. -/
theorem branch (h : PartitionOn ctx tree (id :: pending)) (hvar : c.var ∈ ctx.problem.integerVars)
    (hfrac : Problem.fractionalTol < Scalar.fractionality c.value)
    (hdown : tree.addChild? id c.down = some u) (hup : u.addChild? id c.up = some v) :
    PartitionOn ctx v (pending ++ [tree.size, tree.size + 1]) := by
  obtain ⟨node, hnode⟩ := h.exists_of_mem List.mem_cons_self
  obtain ⟨bs, hpath, hvars⟩ := h.path id node hnode
  obtain ⟨hnew, hnodup⟩ := List.nodup_cons.mp h.nodup
  have hext : tree.Extends v := (Tree.extends_addChild? hdown).trans (Tree.extends_addChild? hup)
  obtain ⟨hpathDown, hpathUp⟩ := hpath.children hnode hdown hup
  have hleaf := fun k => Tree.isLeaf_children_iff (k := k) hpath hnode h.parent_lt hdown hup
  have hclosed := fun k => Tree.closed_children_iff (k := k) hpath hnode hdown hup
  have hpending : ∀ k ∈ pending, k < tree.size := by
    intro k hk
    obtain ⟨old, hold⟩ := h.exists_of_mem (List.mem_cons_of_mem id hk)
    exact Tree.get?_lt_size hold
  have hnotClosed : ∀ k, tree.size ≤ k → ¬ tree.Closed k := by
    rintro k hk ⟨old, hold, -⟩
    exact absurd (Tree.get?_lt_size hold) (Nat.not_lt.mpr hk)
  have hmem : ∀ k, k ∈ pending ++ [tree.size, tree.size + 1]
      ↔ k ∈ pending ∨ k = tree.size ∨ k = tree.size + 1 := by
    intro k
    simp only [List.mem_append, List.mem_cons, List.not_mem_nil, or_false]
  refine ⟨fun k child hk => ?_, fun k child p hk hp => ?_, ?_, fun k hk => ?_, fun k => ?_,
    fun y hy => h.unique_branch hvar hfrac hdown hup hy⟩
  · rcases Tree.cases_of_get?_children hpath hnode hdown hup hk with hk | ⟨rfl | rfl, -, -⟩
    · obtain ⟨cs, hcs, hmem⟩ := h.path k child hk
      exact ⟨cs, hcs.mono hext, hmem⟩
    · exact ⟨_, hpathDown, List.forall_mem_cons.mpr ⟨hvar, hvars⟩⟩
    · exact ⟨_, hpathUp, List.forall_mem_cons.mpr ⟨hvar, hvars⟩⟩
  · rw [Tree.size_addChild? hup, Tree.size_addChild? hdown]
    rcases Tree.cases_of_get?_children hpath hnode hdown hup hk with hk | ⟨-, hparent, -⟩
    · have hlt := h.parent_lt k child p hk hp
      omega
    · have hlt := Tree.get?_lt_size hnode
      have hid := Option.some.inj (hp.symm.trans hparent)
      omega
  · rw [List.nodup_append]
    refine ⟨hnodup, by simp, fun k hk j hj => ?_⟩
    have hlt := hpending k hk
    simp only [List.mem_cons, List.not_mem_nil, or_false] at hj
    omega
  · rw [hclosed]
    rcases (hmem k).mp hk with hk | rfl | rfl
    · exact h.not_closed k (List.mem_cons_of_mem id hk)
    · exact hnotClosed _ (le_refl _)
    · exact hnotClosed _ (Nat.le_succ _)
  · rw [hleaf, hmem, hclosed, h.isLeaf_iff, List.mem_cons]
    have hid : ¬ tree.Closed id := h.not_closed id List.mem_cons_self
    by_cases hk : k = id
    · subst hk
      simp only [hid, hnew]
      tauto
    · tauto

/-- A visit keeps the partition, whichever of its ways it ends in. -/
theorem visited {s s' : Core ExtRat}
    (h : PartitionOn ctx s.tree (id :: s.frontier.entries.map Entry.node))
    (hvisited : Visited ctx id s s') :
    PartitionOn ctx s'.tree (s'.frontier.entries.map Entry.node) := by
  cases hvisited with
  | pruned hnode hclosed =>
    exact h.close (fun _ => ⟨rfl, rfl, rfl, rfl⟩) fun _ => NodeStatus.noConfusion
  | infeasible hsolved hnot infeasibility =>
    exact h.close (fun _ => ⟨rfl, rfl, rfl, rfl⟩) fun _ => NodeStatus.noConfusion
  | integer hsolved hoptimal hinteger infeasibility =>
    exact h.close (fun _ => ⟨rfl, rfl, rfl, rfl⟩) fun _ => NodeStatus.noConfusion
  | fathomed hsolved hoptimal hinteger hclosed infeasibility =>
    exact h.close (fun _ => ⟨rfl, rfl, rfl, rfl⟩) fun _ => NodeStatus.noConfusion
  | branched hsolved hoptimal hfs hc infeasibility hdown hup priority priority' =>
    obtain ⟨hvar, -, hfrac⟩ := Problem.fractional?_spec hfs hc
    have hrecorded : ∀ relax, PartitionOn ctx (recorded s id relax .candidate infeasibility)
        (id :: s.frontier.entries.map Entry.node) :=
      fun relax => h.keep (fun _ => ⟨rfl, rfl, rfl, rfl⟩) fun _ => rfl
    have hbranched := (hrecorded _).branch hvar hfrac hdown hup
    rw [← Tree.size_addChild? hdown, recorded, Tree.size_modify] at hbranched
    simp only [Frontier.push, List.map_append, List.map_cons, List.map_nil, List.append_assoc,
      List.cons_append, List.nil_append]
    exact hbranched

end PartitionOn

/-! ## Runs -/

/-- What is true of a search between two nodes. -/
structure Partition (ctx : Context σ ExtRat) (s : Core ExtRat) : Prop where
  numbered : s.frontier.Numbered
  leaves : PartitionOn ctx s.tree (s.frontier.entries.map Entry.node)

variable {s : State σ ExtRat} {backend : σ}

/-- Taking a node out leaves it to be dealt with next to the open ones. -/
theorem Partition.pop {s : Core ExtRat} (h : Partition ctx s) {e : Entry ExtRat}
    {rest : Frontier ExtRat} (hpop : s.frontier.pop? = some (e, rest)) :
    rest.Numbered ∧ PartitionOn ctx s.tree (e.node :: rest.entries.map Entry.node) := by
  obtain ⟨hrest, -⟩ := h.numbered.pop? hpop
  have hnodes : (e.node :: rest.entries.map Entry.node).Perm (s.frontier.entries.map Entry.node) :=
    (h.numbered.perm_pop? h.leaves.nodup.of_map hpop).map Entry.node
  refine ⟨hrest, h.leaves.path, h.leaves.parent_lt, hnodes.nodup_iff.mpr h.leaves.nodup,
    fun id hid => h.leaves.not_closed id (hnodes.mem_iff.mp hid), fun id => ?_, h.leaves.unique⟩
  rw [hnodes.mem_iff]
  exact h.leaves.isLeaf_iff id

theorem Visited.numbered {α : Type} [Scalar α] {ctx : Context σ α} {s s' : Core α} {id : ℕ}
    (hvisited : Visited ctx id s s') (h : s.frontier.Numbered) : s'.frontier.Numbered := by
  cases hvisited with
  | branched => exact (h.push _ _ _).push _ _ _
  | _ => exact h

/-- At first the root is the only node, and every point satisfies its empty path. -/
theorem partition_start : Partition ctx .start := by
  have hroot : (Core.start : Core ExtRat).tree.get? 0 = some .root := rfl
  have honly : ∀ k node, (Core.start : Core ExtRat).tree.get? k = some node →
      k = 0 ∧ node = .root := by
    intro k node hk
    have hlt : k < 1 := Tree.get?_lt_size hk
    obtain rfl : k = 0 := by omega
    exact ⟨rfl, Option.some.inj (hk.symm.trans hroot)⟩
  have hpath : (Core.start : Core ExtRat).tree.Path 0 [] := .root hroot rfl rfl
  have hleaf : ∀ k, (Core.start : Core ExtRat).tree.IsLeaf k ↔ k = 0 := by
    intro k
    constructor
    · rintro ⟨⟨node, hk⟩, -⟩
      exact (honly k node hk).1
    · rintro rfl
      refine ⟨⟨_, hroot⟩, fun j child hj => ?_⟩
      rw [(honly j child hj).2]
      exact nofun
  have hclosed : ∀ k, ¬ (Core.start : Core ExtRat).tree.Closed k := by
    rintro k ⟨node, hk, hstatus⟩
    rw [(honly k node hk).2] at hstatus
    exact hstatus rfl
  refine ⟨Frontier.numbered_empty.push 0 _ _, fun k node hk => ?_, fun k node p hk hp => ?_,
    List.nodup_singleton 0, fun k _ => hclosed k, fun k => ?_, fun y _ => ⟨0, ?_, ?_⟩⟩
  · rw [(honly k node hk).1]
    exact ⟨[], hpath, nofun⟩
  · rw [(honly k node hk).2] at hp
    cases hp
  · rw [hleaf, or_iff_left (hclosed k)]
    exact List.mem_singleton.symm
  · exact ⟨(hleaf 0).mpr rfl, [], hpath, nofun⟩
  · rintro k ⟨hk, -⟩
    exact (hleaf k).mp hk

theorem partition_of_grown {s : Core ExtRat} (h : Grown ctx s) : Partition ctx s := by
  induction h with
  | start => exact partition_start
  | take hs hpop hvisited ih =>
    obtain ⟨hrest, hpending⟩ := ih.pop hpop
    exact ⟨hvisited.numbered hrest, hpending.visited hvisited⟩

theorem partition_of_reachable (h : Reachable ctx (initial ctx backend) s) :
    Partition ctx s.core :=
  partition_of_grown (grown_of_reachable h)

/-- The box of a leaf exists and holds the points that satisfy its path. -/
theorem PartitionOn.contains_box?_iff {tree : Tree ExtRat} {pending : List ℕ}
    (h : PartitionOn ctx tree pending) {y : List ℚ} (hy : WholePoint ctx y) {id : ℕ}
    (hid : tree.IsLeaf id) :
    (∃ box, tree.box? id ctx.rootBox = some box ∧ box.Contains (y.map .fin)) ↔
      tree.HoldsOn id y := by
  obtain ⟨node, hnode⟩ := hid.1
  obtain ⟨bs, hpath, hvars⟩ := h.path id node hnode
  -- the point has a value at every variable of the path, so the box has bounds there
  have hinside : ∀ b ∈ bs, b.var < ctx.rootBox.lower.length ∧ b.var < ctx.rootBox.upper.length := by
    intro b hb
    obtain ⟨k, hk⟩ := hy.whole b.var (hvars b hb)
    have hlt : b.var < y.length := (List.getElem?_eq_some_iff.mp hk).1
    rw [hy.inside.1.length_eq, ← hy.inside.2.length_eq, List.length_map]
    exact ⟨hlt, hlt⟩
  obtain ⟨box, hbox⟩ := exists_foldlM_restrict? hinside
  have hbox' : tree.box? id ctx.rootBox = some box := by
    unfold Tree.box?
    rw [hpath.path?_eq hnode]
    exact hbox
  have hcontains := Tree.contains_box?_iff hpath hnode hbox' (y.map .fin)
  rw [hpath.holdsOn_iff]
  constructor
  · rintro ⟨box', hbox'', hy'⟩
    cases hbox'.symm.trans hbox''
    exact (hcontains.mp hy').2
  · intro hholds
    exact ⟨box, hbox', hcontains.mpr ⟨hy.inside, hholds⟩⟩

/-- Between two nodes of a run, whatever the backend answers, the nodes without children are the
open ones, which are different and not closed, and the closed ones, and every point of the root box
that is whole at the integer variables lies in the box of exactly one of them. -/
theorem leaves_partition {n : ℕ}
    (h : (Phase.running (initial ctx backend)).advance ctx n = .running s) :
    (s.frontier.entries.map Entry.node).Nodup ∧
    (∀ e ∈ s.frontier.entries, ¬ s.tree.Closed e.node) ∧
    (∀ id, s.tree.IsLeaf id ↔ (∃ e ∈ s.frontier.entries, e.node = id) ∨ s.tree.Closed id) ∧
    ∀ y, WholePoint ctx y → ∃! id, s.tree.IsLeaf id ∧
      ∃ box, s.tree.box? id ctx.rootBox = some box ∧ box.Contains (y.map .fin) := by
  have hpartition : PartitionOn ctx s.tree (s.frontier.entries.map Entry.node) :=
    (partition_of_reachable (reachable_of_advance h)).leaves
  refine ⟨hpartition.nodup, fun e he => hpartition.not_closed e.node (List.mem_map_of_mem he),
    fun id => ?_, fun y hy => ?_⟩
  · rw [hpartition.isLeaf_iff, List.mem_map]
  · exact (existsUnique_congr fun id => and_congr_right fun hid =>
      hpartition.contains_box?_iff hy hid).mpr (hpartition.unique y hy)

/-- After the root of the search for the largest whole number whose double is at most three was
branched on, both children are open, and one is in exactly one of their boxes. -/
theorem leaves_partition_doubled :
    ∃ s, (Phase.running (initial (doubledContext 3) ())).advance (doubledContext 3) 1 = .running s ∧
      s.frontier.entries.map Entry.node = [1, 2] ∧
      ∃! id, s.tree.IsLeaf id ∧ ∃ box, s.tree.box? id (doubledContext 3).rootBox = some box ∧
        box.Contains [.fin 1] := by
  have hrun : (match (Phase.running (initial (doubledContext 3) ())).advance (doubledContext 3) 1
      with
      | .running s => some (s.frontier.entries.map Entry.node)
      | .ended _ _ => none) = some [1, 2] := by
    decide +kernel
  have hone : WholePoint (doubledContext 3) [1] := by
    refine ⟨⟨.cons (by decide +kernel) .nil, .cons (by decide +kernel) .nil⟩, fun j hj => ?_⟩
    obtain rfl : j = 0 := List.mem_singleton.mp hj
    exact ⟨1, rfl⟩
  cases hphase : (Phase.running (initial (doubledContext 3) ())).advance (doubledContext 3) 1 with
  | ended result s =>
    rw [hphase] at hrun
    cases hrun
  | running s =>
    rw [hphase] at hrun
    exact ⟨s, rfl, Option.some.inj hrun, (leaves_partition hphase).2.2.2 [1] hone⟩

end Search

end BranchBound
