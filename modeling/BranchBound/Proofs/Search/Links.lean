import BranchBound.Proofs.Search.Path

/-!
# Links of a tree

The nodes of a search tree are linked by the numbers of their parents. What a change of one node or
two new children do to these links is said once here, for all that is proved about the shape of the
tree.

* `Tree.Linked`: the first node is the root, and every other one hangs one level below an earlier
  one.
* `Tree.children`, `Tree.parents`: the links read downwards.
* `Tree.card_parents_children`: two new children make one more parent.
-/

namespace BranchBound

/-- A change that leaves a node in its place. -/
def KeepsPlace {α : Type} (g : Node α → Node α) : Prop :=
  ∀ node, (g node).id = node.id ∧ (g node).parent = node.parent ∧ (g node).depth = node.depth ∧
    (g node).branch = node.branch

namespace Tree

variable {α : Type} {t u v : Tree α} {id k p : ℕ} {node : Node α} {b c : Branch α}

/-- Nodes are numbered in order; the first is the root, and each other one hangs one level below an
earlier one. -/
structure Linked (t : Tree α) : Prop where
  id_eq : ∀ {k node}, t.get? k = some node → node.id = k
  root : ∀ {node}, t.get? 0 = some node →
    node.parent = none ∧ node.depth = 0 ∧ node.branch = none
  child : ∀ {k node}, t.get? (k + 1) = some node → ∃ p above b, p < k + 1 ∧
    node.parent = some p ∧ t.get? p = some above ∧ node.depth = above.depth + 1 ∧
    node.branch = some b

/-- Children of a node, in the order of their creation. -/
def children (t : Tree α) (id : ℕ) : List ℕ :=
  (List.range t.size).filter fun k => (t.get? k).any fun node => node.parent = some id

/-- Nodes with children. -/
def parents (t : Tree α) : Finset ℕ := (Finset.range t.size).filter fun k => t.children k ≠ []

/-- The children of a node are those that name it as their parent. -/
theorem mem_children_iff :
    k ∈ t.children id ↔ ∃ node, t.get? k = some node ∧ node.parent = some id := by
  unfold children
  rw [List.mem_filter, List.mem_range, Option.any_eq_true_iff_get]
  constructor
  · rintro ⟨-, hsome, hparent⟩
    exact ⟨_, (Option.some_get hsome).symm, of_decide_eq_true hparent⟩
  · rintro ⟨node, hnode, hparent⟩
    simp [hnode, hparent, get?_lt_size hnode]

theorem parent_ne_of_leaf (hleaf : t.children id = []) (hk : t.get? k = some node) :
    node.parent ≠ some id := by
  intro hparent
  have hmem := mem_children_iff.mpr ⟨node, hk, hparent⟩
  rw [hleaf] at hmem
  cases hmem

/-! ## Linked trees -/

/-- A parent is older than its children. -/
theorem Linked.parent_lt (h : t.Linked) (hk : t.get? k = some node)
    (hparent : node.parent = some p) : p < k := by
  cases k with
  | zero =>
    rw [(h.root hk).1] at hparent
    cases hparent
  | succ k =>
    obtain ⟨q, above, b, hlt, hq, -⟩ := h.child hk
    rw [hparent] at hq
    cases hq
    exact hlt

/-- A node without a parent is the root, which has no branch. -/
theorem Linked.branch_eq_none (h : t.Linked) (hk : t.get? k = some node)
    (hparent : node.parent = none) : node.branch = none := by
  cases k with
  | zero => exact (h.root hk).2.2
  | succ k =>
    obtain ⟨p, above, b, -, hp, -⟩ := h.child hk
    rw [hparent] at hp
    cases hp

/-- Children come after their parent. -/
theorem Linked.lt_of_mem_children (h : t.Linked) (hk : k ∈ t.children id) :
    id < k ∧ k < t.size := by
  obtain ⟨node, hnode, hparent⟩ := mem_children_iff.mp hk
  exact ⟨h.parent_lt hnode hparent, get?_lt_size hnode⟩

/-- A number that is not taken has no children. -/
theorem Linked.children_of_size_le (h : t.Linked) (hid : t.size ≤ id) : t.children id = [] := by
  apply List.eq_nil_iff_forall_not_mem.mpr
  intro k hk
  have hlt := h.lt_of_mem_children hk
  omega

theorem linked_addRoot [Scalar α] : (Tree.empty.addRoot : Tree α).Linked where
  id_eq {k node} hk := by
    have hlt : k < 1 := get?_lt_size hk
    obtain rfl : k = 0 := by omega
    cases hk
    rfl
  root hk := by
    cases hk
    exact ⟨rfl, rfl, rfl⟩
  child {k node} hk := by
    have hlt : k + 1 < 1 := get?_lt_size hk
    omega

/-! ## A change of one node -/

section Modify

variable {g : Node α → Node α}

/-- What a node is after a change that leaves it in its place. -/
theorem exists_of_keepsPlace (hg : KeepsPlace g) (hk : (t.modify id g).get? k = some node) :
    ∃ before, t.get? k = some before ∧ node.id = before.id ∧ node.parent = before.parent ∧
      node.depth = before.depth ∧ node.branch = before.branch := by
  rw [get?_modify] at hk
  by_cases hid : id = k
  · rw [if_pos hid] at hk
    obtain ⟨before, hbefore, rfl⟩ := Option.map_eq_some_iff.mp hk
    exact ⟨before, hbefore, hg before⟩
  · rw [if_neg hid] at hk
    exact ⟨node, hk, rfl, rfl, rfl, rfl⟩

/-- What is known of a node may change without its links. -/
theorem Linked.modify (h : t.Linked) (hg : KeepsPlace g) : (t.modify id g).Linked where
  id_eq hk := by
    obtain ⟨before, hbefore, hid, -⟩ := exists_of_keepsPlace hg hk
    rw [hid]
    exact h.id_eq hbefore
  root hk := by
    obtain ⟨before, hbefore, -, hparent, hdepth, hbranch⟩ := exists_of_keepsPlace hg hk
    rw [hparent, hdepth, hbranch]
    exact h.root hbefore
  child hk := by
    obtain ⟨before, hbefore, -, hparent, hdepth, hbranch⟩ := exists_of_keepsPlace hg hk
    obtain ⟨p, above, b, hlt, hp, habove, hdepth', hb⟩ := h.child hbefore
    obtain ⟨above', habove', -, -, hdepth'', -⟩ := extends_modify hg p above habove
    refine ⟨p, above', b, hlt, hparent.trans hp, habove', ?_, hbranch.trans hb⟩
    omega

/-- A change that keeps something of every node keeps it. -/
theorem map_get?_modify {β : Type} (f : Node α → β) (hf : ∀ node, f (g node) = f node) (k : ℕ) :
    ((t.modify id g).get? k).map f = (t.get? k).map f := by
  rw [get?_modify]
  split
  · rw [Option.map_map]
    exact congrArg (fun f => (t.get? k).map f) (funext hf)
  · rfl

theorem children_modify (hg : KeepsPlace g) : (t.modify id g).children = t.children := by
  have hlinks : ∀ k, ((t.modify id g).get? k).map Node.parent = (t.get? k).map Node.parent :=
    map_get?_modify Node.parent fun node => (hg node).2.1
  -- the children of a node are read off the links alone
  have hany : ∀ (w : Tree α) (j k : ℕ), ((w.get? k).any fun node => node.parent = some j)
      = ((w.get? k).map Node.parent).any fun parent => parent = some j := by
    intro w j k
    cases w.get? k <;> rfl
  funext j
  unfold children
  simp only [size_modify, hany, hlinks]

end Modify

/-! ## New children -/

section Child

variable (hnode : t.get? id = some node) (hu : t.addChild? id b = some u)

include hnode hu in
theorem get?_addChild?_of_lt (hk : k < t.size) : u.get? k = t.get? k := by
  rw [get?_addChild? hnode hu, if_neg (by omega)]

include hnode hu in
/-- What was there is there still. -/
theorem get?_addChild?_of_get? {k : ℕ} {old : Node α} (hk : t.get? k = some old) :
    u.get? k = some old := by
  rw [get?_addChild?_of_lt hnode hu (get?_lt_size hk)]
  exact hk

include hnode hu in
/-- A node is the new child, or was there before. -/
theorem get?_addChild?_cases {child : Node α} (hk : u.get? k = some child) :
    (k = t.size ∧ child = node.child t.size b) ∨ (k < t.size ∧ t.get? k = some child) := by
  rw [get?_addChild? hnode hu] at hk
  by_cases hnew : k = t.size
  · rw [if_pos hnew] at hk
    cases hk
    exact .inl ⟨hnew, rfl⟩
  · rw [if_neg hnew] at hk
    exact .inr ⟨get?_lt_size hk, hk⟩

include hnode hu in
/-- A new child links to a node that is there. -/
theorem Linked.addChild? (h : t.Linked) : u.Linked where
  id_eq {k child} hk := by
    rcases get?_addChild?_cases hnode hu hk with ⟨hnew, rfl⟩ | ⟨-, hk⟩
    · exact hnew.symm
    · exact h.id_eq hk
  root {child} hk := by
    have hlt := get?_lt_size hnode
    rw [get?_addChild?_of_lt hnode hu (by omega)] at hk
    exact h.root hk
  child {k child} hk := by
    have hlt := get?_lt_size hnode
    rcases get?_addChild?_cases hnode hu hk with ⟨hnew, rfl⟩ | ⟨-, hk⟩
    · exact ⟨id, node, b, by omega, congrArg some (h.id_eq hnode),
        get?_addChild?_of_get? hnode hu hnode, rfl, rfl⟩
    · obtain ⟨p, above, b', hp, hparent, hget, hdepth, hbranch⟩ := h.child hk
      exact ⟨p, above, b', hp, hparent, get?_addChild?_of_get? hnode hu hget, hdepth, hbranch⟩

include hnode hu in
/-- A new child comes after those a node has, and no other node gets any. -/
theorem children_addChild? (h : t.Linked) (k : ℕ) :
    u.children k = t.children k ++ if k = id then [t.size] else [] := by
  have hid := h.id_eq hnode
  have hold : ∀ j ∈ List.range t.size, u.get? j = t.get? j := by
    intro j hj
    exact get?_addChild?_of_lt hnode hu (List.mem_range.mp hj)
  have hnew : u.get? t.size = some (node.child t.size b) := by
    rw [get?_addChild? hnode hu, if_pos rfl]
  unfold Tree.children
  rw [size_addChild? hu, List.range_succ, List.filter_append,
    List.filter_congr fun j hj => by rw [hold j hj]]
  congr 1
  by_cases hk : k = id
  · simp [hnew, Node.child, hid, hk]
  · have hne : id ≠ k := fun h => hk h.symm
    simp [hnew, Node.child, hid, hk, hne]

end Child

/-! ### Two of them -/

section Children

variable (h : t.Linked) (hnode : t.get? id = some node) (hu : t.addChild? id b = some u)
  (hv : u.addChild? id c = some v)

include hu hv in
theorem size_children : v.size = t.size + 2 := by
  rw [size_addChild? hv, size_addChild? hu]

include h hnode hu hv in
theorem Linked.children : v.Linked :=
  (h.addChild? hnode hu).addChild? (get?_addChild?_of_get? hnode hu hnode) hv

include h hnode hu hv in
/-- Two new children are those of their parent, and of no other node. -/
theorem children_children (k : ℕ) :
    v.children k = t.children k ++ if k = id then [t.size, t.size + 1] else [] := by
  have hnode' := get?_addChild?_of_get? hnode hu hnode
  rw [children_addChild? hnode' hv (h.addChild? hnode hu), children_addChild? hnode hu h,
    size_addChild? hu]
  by_cases hk : k = id
  · simp [hk]
  · simp [hk]

include h hnode hu hv in
/-- Two new children make one more parent. -/
theorem card_parents_children (hleaf : t.children id = []) :
    v.parents.card = t.parents.card + 1 := by
  have hlt := get?_lt_size hnode
  -- the parents are those there were, and the leaf; the children are none, as their numbers are new
  have hmem : ∀ k, k ∈ v.parents ↔ k ∈ insert id t.parents := by
    intro k
    unfold parents
    rw [Finset.mem_insert, Finset.mem_filter, Finset.mem_filter, Finset.mem_range,
      Finset.mem_range, size_children hu hv, children_children h hnode hu hv]
    by_cases hk : k = id
    · simp [hk]
      omega
    · rw [if_neg hk, List.append_nil]
      constructor
      · rintro ⟨-, hchildren⟩
        refine .inr ⟨?_, hchildren⟩
        by_contra hsize
        exact hchildren (h.children_of_size_le (by omega))
      · rintro (hk' | ⟨hlt', hchildren⟩)
        · exact absurd hk' hk
        · exact ⟨by omega, hchildren⟩
  rw [Finset.ext hmem]
  apply Finset.card_insert_of_notMem
  unfold parents
  simp [hleaf]

end Children

end Tree

end BranchBound
