import BranchBound.Proofs.LinearProgram.Feasible
import BranchBound.Tree.Basic

/-!
# Paths and boxes

A node of a search tree stands for the points of the root box that satisfy every branch on its path.

* `Branch.Holds`, `Box.Contains`: points that satisfy a branch, points of a box.
* `Box.contains_of_restrict?`: a restricted box holds the points that satisfy the branch.
* `Tree.Path`: the branches from a node to the root, as the links between nodes give them.
* `Tree.Extends`: changes to a tree that keep the paths of its nodes.
* `Box.Reaches`: the boxes that branches lead to.
* `Tree.contains_box?_iff`: the points in the box of a node.
-/

namespace BranchBound

/-! ## Boxes -/

/-- A point satisfies the bound a branch adds. -/
def Branch.Holds {α : Type} [LE α] (b : Branch α) (x : List α) : Prop :=
  ∃ v, x[b.var]? = some v ∧
    match b.sense with
    | .down => v ≤ b.rhs
    | .up => b.rhs ≤ v

/-- A point lies in a box. -/
def Box.Contains {α : Type} [LE α] (b : Box α) (x : List α) : Prop := Within b.lower b.upper x

/-- A condition on one entry of a list can be read at the entry it is about. -/
theorem forall₂_modify_iff {β γ : Type} {R : β → γ → Prop} {P : β → Prop} {g : γ → γ}
    (hg : ∀ a c, R a (g c) ↔ R a c ∧ P a) {l : List β} {k : List γ} {i : ℕ} (hi : i < k.length) :
    List.Forall₂ R l (k.modify i g) ↔ List.Forall₂ R l k ∧ ∃ a, l[i]? = some a ∧ P a := by
  induction k generalizing l i with
  | nil => exact absurd hi (Nat.not_lt_zero i)
  | cons c k ih =>
    cases l with
    | nil =>
      constructor
      · intro h
        cases i <;> cases h
      · rintro ⟨h, -⟩
        cases h
    | cons a l =>
      cases i with
      | zero =>
        rw [List.modify_zero_cons, List.forall₂_cons, List.forall₂_cons, hg]
        simp only [List.getElem?_cons_zero, Option.some.injEq, exists_eq_left']
        tauto
      | succ i =>
        rw [List.modify_succ_cons, List.forall₂_cons, List.forall₂_cons,
          ih (Nat.lt_of_succ_lt_succ hi), List.getElem?_cons_succ, and_assoc]

theorem forall_mem_modify {β : Type} {P : β → Prop} {g : β → β} {l : List β}
    (hl : ∀ c ∈ l, P c) (hg : ∀ c, P c → P (g c)) (i : ℕ) : ∀ c ∈ l.modify i g, P c := by
  intro c hc
  obtain ⟨j, hj⟩ := List.mem_iff_getElem?.mp hc
  rw [List.getElem?_modify] at hj
  obtain ⟨d, hd, rfl⟩ := Option.map_eq_some_iff.mp hj
  have hP := hl d (List.mem_of_getElem? hd)
  show P (if _ then _ else _)
  split
  · exact hg d hP
  · exact hP

/-- A box restricted by a branch holds the points of the box that satisfy the branch. -/
theorem Box.contains_of_restrict? {b : Branch ExtRat} {box restricted : Box ExtRat}
    (h : b.restrict? box = some restricted) (x : List ExtRat) :
    restricted.Contains x ↔ box.Contains x ∧ b.Holds x := by
  unfold Branch.restrict? at h
  unfold Branch.Holds
  cases hsense : b.sense with
  | down =>
    rw [hsense] at h
    obtain ⟨hvar, hbox⟩ := Option.ite_none_right_eq_some.mp h
    cases hbox
    have hmin : ∀ v u : ExtRat, v ≤ Scalar.minNum u b.rhs ↔ v ≤ u ∧ v ≤ b.rhs := by
      intro v u
      rw [ExtRat.minNum_eq_min, le_min_iff]
    show _ ∧ List.Forall₂ _ x (box.upper.modify b.var _) ↔ _
    rw [forall₂_modify_iff hmin hvar, ← and_assoc]
    rfl
  | up =>
    rw [hsense] at h
    obtain ⟨hvar, hbox⟩ := Option.ite_none_right_eq_some.mp h
    cases hbox
    have hmax : ∀ v l : ExtRat, Scalar.maxNum l b.rhs ≤ v ↔ l ≤ v ∧ b.rhs ≤ v := by
      intro v l
      rw [ExtRat.maxNum_eq_max, max_le_iff]
    -- lower bounds stand on the other side, so the lemma is used with the relation reversed
    have hflip : ∀ k : List ExtRat,
        List.Forall₂ (· ≤ ·) k x ↔ List.Forall₂ (fun v l => l ≤ v) x k :=
      fun k => ⟨List.Forall₂.flip, List.Forall₂.flip⟩
    show List.Forall₂ _ (box.lower.modify b.var _) x ∧ _ ↔ _
    rw [hflip, forall₂_modify_iff hmax hvar, ← hflip, and_right_comm]
    rfl

/-- A branch changes a bound and no lengths. -/
theorem Branch.length_of_restrict? {α : Type} [Scalar α] {b : Branch α} {box restricted : Box α}
    (h : b.restrict? box = some restricted) :
    restricted.lower.length = box.lower.length ∧ restricted.upper.length = box.upper.length := by
  unfold Branch.restrict? at h
  cases hsense : b.sense with
  | down =>
    rw [hsense] at h
    obtain ⟨-, hbox⟩ := Option.ite_none_right_eq_some.mp h
    cases hbox
    exact ⟨rfl, List.length_modify _ _ _⟩
  | up =>
    rw [hsense] at h
    obtain ⟨-, hbox⟩ := Option.ite_none_right_eq_some.mp h
    cases hbox
    exact ⟨List.length_modify _ _ _, rfl⟩

/-- A branch changes the bound it is about. -/
theorem Branch.getElem?_of_restrict? {α : Type} [Scalar α] {b : Branch α} {box restricted : Box α}
    (h : b.restrict? box = some restricted) (i : ℕ) :
    restricted.lower[i]? = box.lower[i]?.map
        (fun l => if b.sense = .up ∧ b.var = i then Scalar.maxNum l b.rhs else l) ∧
      restricted.upper[i]? = box.upper[i]?.map
        (fun u => if b.sense = .down ∧ b.var = i then Scalar.minNum u b.rhs else u) := by
  unfold Branch.restrict? at h
  cases hsense : b.sense with
  | down =>
    rw [hsense] at h
    obtain ⟨-, hbox⟩ := Option.ite_none_right_eq_some.mp h
    cases hbox
    simp [List.getElem?_modify]
  | up =>
    rw [hsense] at h
    obtain ⟨-, hbox⟩ := Option.ite_none_right_eq_some.mp h
    cases hbox
    simp [List.getElem?_modify]

/-- A branch on a variable of the box can be applied to it. -/
theorem Branch.exists_restrict? {α : Type} [Scalar α] {b : Branch α} {box : Box α}
    (hlower : b.var < box.lower.length) (hupper : b.var < box.upper.length) :
    ∃ restricted, b.restrict? box = some restricted := by
  unfold Branch.restrict?
  cases b.sense with
  | down => exact ⟨_, if_pos hupper⟩
  | up => exact ⟨_, if_pos hlower⟩

/-! ## Paths -/

namespace Tree

variable {α : Type} {t u v : Tree α} {id k : ℕ} {node : Node α} {b c : Branch α}
  {bs : List (Branch α)}

/-- The branches from a node to the root, nearest first. -/
inductive Path (t : Tree α) : ℕ → List (Branch α) → Prop
  | root {id : ℕ} {node : Node α} (hnode : t.get? id = some node) (hid : node.id = id)
      (hdepth : node.depth = 0) : Path t id []
  | child {id parent : ℕ} {node above : Node α} {b : Branch α} {bs : List (Branch α)}
      (hnode : t.get? id = some node) (hid : node.id = id) (hparent : node.parent = some parent)
      (hbranch : node.branch = some b) (habove : t.get? parent = some above)
      (hdepth : node.depth = above.depth + 1) (hpath : Path t parent bs) : Path t id (b :: bs)

theorem Path.id_eq (h : t.Path id bs) (hnode : t.get? id = some node) : node.id = id := by
  cases h with
  | root hnode' hid =>
    cases hnode.symm.trans hnode'
    exact hid
  | child hnode' hid =>
    cases hnode.symm.trans hnode'
    exact hid

/-- A path has as many branches as its node is deep. -/
theorem Path.length_eq (h : t.Path id bs) (hnode : t.get? id = some node) :
    bs.length = node.depth := by
  induction h generalizing node with
  | root hnode' _ hdepth =>
    cases hnode.symm.trans hnode'
    rw [List.length_nil, hdepth]
  | child hnode' _ _ _ habove hdepth _ ih =>
    cases hnode.symm.trans hnode'
    rw [List.length_cons, ih habove, hdepth]

/-- Climbing from a node meets the branches of its path. -/
theorem Path.climb_eq (h : t.Path id bs) : t.climb bs.length id = bs := by
  induction h with
  | root => rfl
  | child hnode _ hparent hbranch _ _ _ ih =>
    rw [List.length_cons, climb, hnode]
    dsimp only
    rw [hbranch, hparent]
    dsimp only
    rw [ih]
    rfl

/-- A path is what following the links from its node finds. -/
theorem Path.path?_eq (h : t.Path id bs) (hnode : t.get? id = some node) :
    t.path? id = some bs := by
  rw [path?, hnode, Option.map_some, ← h.length_eq hnode, h.climb_eq]

theorem Path.exists_node (h : t.Path id bs) : ∃ node, t.get? id = some node := by
  cases h with
  | root hnode => exact ⟨_, hnode⟩
  | child hnode => exact ⟨_, hnode⟩

/-- A node has one path. -/
theorem Path.unique {cs : List (Branch α)} (h : t.Path id bs) (h' : t.Path id cs) : bs = cs := by
  obtain ⟨node, hnode⟩ := h.exists_node
  exact Option.some.inj ((h.path?_eq hnode).symm.trans (h'.path?_eq hnode))

/-! ## Changes that keep paths -/

/-- Every node of one tree is in the other, in the same place. -/
def Extends (t u : Tree α) : Prop :=
  ∀ id node, t.get? id = some node → ∃ node', u.get? id = some node' ∧ node'.id = node.id ∧
    node'.parent = node.parent ∧ node'.depth = node.depth ∧ node'.branch = node.branch

/-- What happens elsewhere leaves a path as it is. -/
theorem Path.mono (htu : t.Extends u) (h : t.Path id bs) : u.Path id bs := by
  induction h with
  | root hnode hid hdepth =>
    obtain ⟨node', hnode', hid', -, hdepth', -⟩ := htu _ _ hnode
    exact .root hnode' (hid'.trans hid) (hdepth'.trans hdepth)
  | child hnode hid hparent hbranch habove hdepth _ ih =>
    obtain ⟨node', hnode', hid', hparent', hdepth', hbranch'⟩ := htu _ _ hnode
    obtain ⟨above', habove', -, -, habove_depth, -⟩ := htu _ _ habove
    refine .child hnode' (hid'.trans hid) (hparent'.trans hparent) (hbranch'.trans hbranch) habove'
      ?_ ih
    rw [hdepth', hdepth, habove_depth]

/-- A change that leaves a node in its place keeps the tree. -/
theorem extends_modify {g : Node α → Node α}
    (hg : ∀ node, (g node).id = node.id ∧ (g node).parent = node.parent ∧
      (g node).depth = node.depth ∧ (g node).branch = node.branch) :
    t.Extends (t.modify id g) := by
  intro k node hnode
  rw [get?_modify, hnode]
  by_cases hk : id = k
  · rw [if_pos hk]
    exact ⟨g node, rfl, hg node⟩
  · rw [if_neg hk]
    exact ⟨node, rfl, rfl, rfl, rfl, rfl⟩

theorem get?_lt_size (hnode : t.get? id = some node) : id < t.size :=
  (Array.getElem?_eq_some_iff.mp hnode).1

/-- A new child leaves the other nodes in their places. -/
theorem extends_addChild? {parent : ℕ} {b : Branch α} (h : t.addChild? parent b = some u) :
    t.Extends u := by
  obtain ⟨above, habove, -⟩ := Option.map_eq_some_iff.mp h
  intro k node hnode
  rw [get?_addChild? habove h, if_neg (Nat.ne_of_lt (get?_lt_size hnode))]
  exact ⟨node, hnode, rfl, rfl, rfl, rfl⟩

/-- A new child has its own branch before the path of its parent. -/
theorem Path.addChild? {b : Branch α} (hpath : t.Path id bs) (hnode : t.get? id = some node)
    (h : t.addChild? id b = some u) : u.Path t.size (b :: bs) := by
  have hu := extends_addChild? h
  obtain ⟨above, habove, -, -, hdepth, -⟩ := hu id node hnode
  have hchild : u.get? t.size = some (node.child t.size b) := by
    rw [get?_addChild? hnode h, if_pos rfl]
  refine .child hchild rfl ?_ rfl habove ?_ (hpath.mono hu)
  · rw [Node.child, hpath.id_eq hnode]
  · rw [hdepth]
    rfl

/-! ### Two children -/

theorem size_addChild? (h : t.addChild? id b = some u) : u.size = t.size + 1 := by
  obtain ⟨node, -, rfl⟩ := Option.map_eq_some_iff.mp h
  exact Array.size_push _

/-- Later trees have the nodes of all earlier ones. -/
theorem Extends.trans (htu : t.Extends u) (huv : u.Extends v) : t.Extends v := by
  intro k node hnode
  obtain ⟨node', hnode', hid, hparent, hdepth, hbranch⟩ := htu k node hnode
  obtain ⟨last, hlast, hid', hparent', hdepth', hbranch'⟩ := huv k node' hnode'
  exact ⟨last, hlast, hid'.trans hid, hparent'.trans hparent, hdepth'.trans hdepth,
    hbranch'.trans hbranch⟩

/-- Two children of one node are the two newest nodes. -/
theorem get?_children (hnode : t.get? id = some node) (hu : t.addChild? id b = some u)
    (hv : u.addChild? id c = some v) (k : ℕ) :
    v.get? k = if k = t.size + 1 then some (node.child (t.size + 1) c)
      else if k = t.size then some (node.child t.size b) else t.get? k := by
  have hnode' : u.get? id = some node := by
    rw [get?_addChild? hnode hu, if_neg (Nat.ne_of_lt (get?_lt_size hnode))]
    exact hnode
  rw [get?_addChild? hnode' hv, size_addChild? hu, get?_addChild? hnode hu]

/-- Two children leave what was there before. -/
theorem get?_children_of_lt (hnode : t.get? id = some node) (hu : t.addChild? id b = some u)
    (hv : u.addChild? id c = some v) (hk : k < t.size) : v.get? k = t.get? k := by
  rw [get?_children hnode hu hv, if_neg (by omega), if_neg (by omega)]

/-- Two children of one node inherit its bound. -/
theorem exists_children (hnode : t.get? id = some node) (hu : t.addChild? id b = some u)
    (hv : u.addChild? id c = some v) :
    (∃ child, v.get? t.size = some child ∧ child.bound = node.bound) ∧
      ∃ child, v.get? (t.size + 1) = some child ∧ child.bound = node.bound := by
  constructor
  · rw [get?_children hnode hu hv, if_neg (Nat.ne_of_lt (Nat.lt_succ_self _)), if_pos rfl]
    exact ⟨_, rfl, rfl⟩
  · rw [get?_children hnode hu hv, if_pos rfl]
    exact ⟨_, rfl, rfl⟩

/-- The paths of two children go on from that of their parent. -/
theorem Path.children (hpath : t.Path id bs) (hnode : t.get? id = some node)
    (hu : t.addChild? id b = some u) (hv : u.addChild? id c = some v) :
    v.Path t.size (b :: bs) ∧ v.Path (t.size + 1) (c :: bs) := by
  have hnode' : u.get? id = some node := by
    rw [get?_addChild? hnode hu, if_neg (Nat.ne_of_lt (get?_lt_size hnode))]
    exact hnode
  have hupper := (hpath.mono (extends_addChild? hu)).addChild? hnode' hv
  rw [size_addChild? hu] at hupper
  exact ⟨(hpath.addChild? hnode hu).mono (extends_addChild? hv), hupper⟩

end Tree

/-! ## The box of a node -/

section Replay

variable {α : Type} [Scalar α] {t : Tree α} {id : ℕ} {root box restricted : Box α} {b : Branch α}

/-- The box after all branches of a path. -/
def Box.replay? (root : Box α) (bs : List (Branch α)) : Option (Box α) :=
  bs.foldlM (fun box b => b.restrict? box) root

/-- Branches lead from one box to another. -/
def Box.Reaches (root box : Box α) : Prop := ∃ bs, root.replay? bs = some box

/-- A branch leads from a box that is reached to another one. -/
theorem Box.Reaches.restrict? (h : root.Reaches box) (hb : b.restrict? box = some restricted) :
    root.Reaches restricted := by
  obtain ⟨bs, hbs⟩ := h
  refine ⟨bs ++ [b], ?_⟩
  unfold Box.replay? at hbs ⊢
  rw [List.foldlM_append, hbs, Option.bind_eq_bind, Option.bind_some, List.foldlM_cons, hb]
  rfl

theorem Box.Reaches.length_eq (h : root.Reaches box) :
    box.lower.length = root.lower.length ∧ box.upper.length = root.upper.length := by
  obtain ⟨bs, hbs⟩ := h
  unfold Box.replay? at hbs
  induction bs generalizing root with
  | nil =>
    cases hbs
    exact ⟨rfl, rfl⟩
  | cons b bs ih =>
    rw [List.foldlM_cons] at hbs
    obtain ⟨restricted, hb, hbs⟩ := Option.bind_eq_some_iff.mp hbs
    obtain ⟨hlower, hupper⟩ := Branch.length_of_restrict? hb
    obtain ⟨hlower', hupper'⟩ := ih hbs
    exact ⟨hlower'.trans hlower, hupper'.trans hupper⟩

/-- The box of a node is reached from the root box. -/
theorem Tree.reaches_of_box? (h : t.box? id root = some box) : root.Reaches box := by
  obtain ⟨bs, -, hbs⟩ := Option.bind_eq_some_iff.mp h
  exact ⟨bs, hbs⟩

/-- The box of a node is the root box after the branches of its path. -/
theorem Tree.Path.box?_eq {node : Node α} {bs : List (Branch α)} (hpath : t.Path id bs)
    (hnode : t.get? id = some node) (root : Box α) : t.box? id root = root.replay? bs := by
  unfold Tree.box?
  rw [hpath.path?_eq hnode]
  rfl

/-- Where nodes keep their places, they keep their boxes. -/
theorem Tree.Path.box?_of_extends {u : Tree α} {bs : List (Branch α)} (hpath : t.Path id bs)
    (hext : t.Extends u) (root : Box α) : u.box? id root = t.box? id root := by
  obtain ⟨node, hnode⟩ := hpath.exists_node
  obtain ⟨node', hnode', -⟩ := hext id node hnode
  rw [(hpath.mono hext).box?_eq hnode', hpath.box?_eq hnode]

theorem Tree.exists_of_box? (h : t.box? id root = some box) :
    ∃ node, t.get? id = some node := by
  obtain ⟨path, hpath, -⟩ := Option.bind_eq_some_iff.mp h
  obtain ⟨node, hnode, -⟩ := Option.map_eq_some_iff.mp hpath
  exact ⟨node, hnode⟩

/-- A box stays as nodes are added. -/
theorem Tree.box?_of_extends {u : Tree α}
    (hpaths : ∀ id node, t.get? id = some node → ∃ bs, t.Path id bs) (hext : t.Extends u)
    (h : t.box? id root = some box) : u.box? id root = some box := by
  obtain ⟨node, hnode⟩ := exists_of_box? h
  obtain ⟨bs, hpath⟩ := hpaths id node hnode
  rw [hpath.box?_of_extends hext]
  exact h

end Replay

/-- A point is in the box that some branches leave if it was in the first one and every branch
holds. -/
theorem contains_foldlM_restrict?_iff {bs : List (Branch ExtRat)} {root box : Box ExtRat}
    (h : bs.foldlM (fun box b => Branch.restrict? b box) root = some box) (x : List ExtRat) :
    box.Contains x ↔ root.Contains x ∧ ∀ b ∈ bs, b.Holds x := by
  induction bs generalizing root with
  | nil =>
    cases h
    simp only [List.not_mem_nil, false_implies, implies_true, and_true]
  | cons b bs ih =>
    rw [List.foldlM_cons] at h
    obtain ⟨restricted, hb, hbs⟩ := Option.bind_eq_some_iff.mp h
    rw [ih hbs, Box.contains_of_restrict? hb, List.forall_mem_cons, and_assoc]

/-- The box of a node holds the points of the root box that satisfy every branch of its path. -/
theorem Tree.contains_box?_iff {t : Tree ExtRat} {id : ℕ} {node : Node ExtRat}
    {bs : List (Branch ExtRat)} {root box : Box ExtRat} (hpath : t.Path id bs)
    (hnode : t.get? id = some node) (h : t.box? id root = some box) (x : List ExtRat) :
    box.Contains x ↔ root.Contains x ∧ ∀ b ∈ bs, b.Holds x := by
  unfold box? at h
  rw [hpath.path?_eq hnode] at h
  exact contains_foldlM_restrict?_iff h x

end BranchBound
