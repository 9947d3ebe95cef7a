import BranchBound.Proofs.Scalar.Exact
import BranchBound.Proofs.Search.Conservation

/-!
# Depth first is a walk

The open nodes are not kept on a stack: the least priority comes first, and among equal ones the
oldest. Yet where priorities fall with the depth, a search walks its tree in preorder. What makes it
so is that open nodes have different depths, except the two newest, so the oldest of equals is
always the child on the lower side of a pair.

* `Tree.preorder`: nodes before their children, those on the lower side first.
* `Tree.preorder_children`: two new children of a leaf stand right after it.
* `ExactDepths`: priorities tell depths apart.
* `Stacked`, `Stacked.pop`, `Stacked.split`: the rest of the walk is a stack of open nodes.
* `depth_first_preorder`: nodes are taken up in preorder, and few are open at a time.
-/

namespace BranchBound

namespace Tree

/-! ## Preorder -/

variable {α : Type} {t u v : Tree α} {id k : ℕ} {node : Node α} {b c : Branch α}

/-- Whether a node is on the given side of its parent. -/
def onSide (t : Tree α) (sense : Sense) (k : ℕ) : Bool :=
  (t.get? k).any fun node => node.branch.any fun b => b.sense = sense

/-- Children of a node, those on the lower side first. -/
def ordered (t : Tree α) (id : ℕ) : List ℕ :=
  (t.children id).filter (t.onSide .down) ++ (t.children id).filter (t.onSide .up)

/-- The first levels below a node, each node before its children. -/
def walk (t : Tree α) : (levels id : ℕ) → List ℕ
  | 0, _ => []
  | levels + 1, id => id :: (t.ordered id).flatMap (t.walk levels)

/-- All nodes, each before its children, and those on the lower side first. A tree has no more
levels than nodes. -/
def preorder (t : Tree α) : List ℕ := t.walk t.size 0

/-- Depth of a node. -/
def depthOf (t : Tree α) (id : ℕ) : ℕ := ((t.get? id).map Node.depth).getD 0

theorem depthOf_eq (hnode : t.get? id = some node) : t.depthOf id = node.depth := by
  simp [depthOf, hnode]

/-! ### A change of one node -/

section Modify

variable {g : Node α → Node α} (hg : KeepsPlace g)

include hg

theorem depthOf_modify : (t.modify id g).depthOf = t.depthOf := by
  funext k
  unfold depthOf
  rw [map_get?_modify Node.depth fun node => (hg node).2.2.1]

theorem onSide_modify (sense : Sense) : (t.modify id g).onSide sense = t.onSide sense := by
  have hany : ∀ (w : Tree α) (k : ℕ), w.onSide sense k
      = ((w.get? k).map Node.branch).any fun branch => branch.any fun b => b.sense = sense := by
    intro w k
    unfold onSide
    cases w.get? k <;> rfl
  funext k
  rw [hany, hany, map_get?_modify Node.branch fun node => (hg node).2.2.2]

/-- The preorder is read off the links alone. -/
theorem preorder_modify : (t.modify id g).preorder = t.preorder := by
  have hwalk : (t.modify id g).walk = t.walk := by
    funext levels
    induction levels with
    | zero => rfl
    | succ levels ih =>
      funext k
      unfold walk ordered
      rw [ih, children_modify hg, onSide_modify hg, onSide_modify hg]
  unfold preorder
  rw [hwalk, size_modify]

end Modify

/-! ### Two new children -/

section Children

variable (h : t.Linked) (hnode : t.get? id = some node) (hu : t.addChild? id b = some u)
  (hv : u.addChild? id c = some v)

include hnode hu hv in
theorem depthOf_children_of_lt (hk : k < t.size) : v.depthOf k = t.depthOf k := by
  unfold depthOf
  rw [get?_children_of_lt hnode hu hv hk]

include hnode hu hv in
/-- New children are one level below their parent. -/
theorem depthOf_children :
    v.depthOf t.size = node.depth + 1 ∧ v.depthOf (t.size + 1) = node.depth + 1 := by
  unfold depthOf
  rw [get?_children hnode hu hv, if_neg (by omega), if_pos rfl, get?_children hnode hu hv,
    if_pos rfl]
  exact ⟨rfl, rfl⟩

include h hnode hu hv in
/-- Children of other nodes stay as they are. -/
theorem ordered_of_ne (hk : k ≠ id) : v.ordered k = t.ordered k := by
  have hchildren : v.children k = t.children k := by
    rw [children_children h hnode hu hv, if_neg hk, List.append_nil]
  have hside : ∀ sense, ∀ j ∈ t.children k, v.onSide sense j = t.onSide sense j := by
    intro sense j hj
    unfold onSide
    rw [get?_children_of_lt hnode hu hv (h.lt_of_mem_children hj).2]
  unfold ordered
  rw [hchildren, List.filter_congr (hside .down), List.filter_congr (hside .up)]

include h hnode hu hv in
/-- A leaf with two new children on both sides has these, the lower one first. -/
theorem ordered_self (hleaf : t.children id = []) (hb : b.sense = .down) (hc : c.sense = .up) :
    v.ordered id = [t.size, t.size + 1] := by
  have hdown : v.get? t.size = some (node.child t.size b) := by
    rw [get?_children hnode hu hv, if_neg (by omega), if_pos rfl]
  have hup : v.get? (t.size + 1) = some (node.child (t.size + 1) c) := by
    rw [get?_children hnode hu hv, if_pos rfl]
  unfold ordered
  rw [children_children h hnode hu hv, hleaf, if_pos rfl, List.nil_append]
  simp [onSide, hdown, hup, Node.child, hb, hc]

include h hnode hu hv in
/-- A new child has no children. -/
theorem walk_new (hk : t.size ≤ k) (levels : ℕ) : v.walk (levels + 1) k = [k] := by
  have hlt := get?_lt_size hnode
  have hchildren : v.children k = [] := by
    rw [children_children h hnode hu hv, if_neg (by omega), List.append_nil,
      h.children_of_size_le hk]
  simp [walk, ordered, hchildren]

include h hnode hu hv in
/-- Two new children of a leaf stand right after it wherever it is met. -/
theorem walk_children (hleaf : t.children id = []) (hb : b.sense = .down) (hc : c.sense = .up)
    (levels : ℕ) (hk : k < t.size) (hlevels : t.size ≤ levels + k) :
    v.walk (levels + 2) k
      = (t.walk levels k).flatMap fun j => if j = id then [id, t.size, t.size + 1] else [j] := by
  -- every level goes on to larger numbers, so the levels last until the leaf is met
  induction levels generalizing k with
  | zero => omega
  | succ levels ih =>
    by_cases hid : k = id
    · have hnone : t.ordered id = [] := by simp [ordered, hleaf]
      rw [hid, walk, walk, ordered_self h hnode hu hv hleaf hb hc, hnone]
      simp [walk_new h hnode hu hv]
    · rw [walk, walk, ordered_of_ne h hnode hu hv hid, List.flatMap_cons, if_neg hid,
        List.flatMap_assoc, List.singleton_append]
      congr 1
      apply List.flatMap_congr
      intro j hj
      have hmem : j ∈ t.children k := by
        simp only [ordered, List.mem_append, List.mem_filter] at hj
        rcases hj with hj | hj
        · exact hj.1
        · exact hj.1
      have hlt := h.lt_of_mem_children hmem
      exact ih hlt.2 (by omega)

include h hnode hu hv in
/-- Two new children of a leaf stand right after it in preorder. -/
theorem preorder_children (hleaf : t.children id = []) (hb : b.sense = .down)
    (hc : c.sense = .up) {before after : List ℕ} (hpre : t.preorder = before ++ id :: after)
    (hnodup : t.preorder.Nodup) :
    v.preorder = before ++ id :: t.size :: (t.size + 1) :: after := by
  have hlt := get?_lt_size hnode
  have hid : ∀ l : List ℕ, id ∉ l →
      l.flatMap (fun j => if j = id then [id, t.size, t.size + 1] else [j]) = l := by
    intro l hl
    induction l with
    | nil => rfl
    | cons j l ih =>
      rw [List.mem_cons, not_or] at hl
      rw [List.flatMap_cons, if_neg (fun heq => hl.1 heq.symm), ih hl.2]
      rfl
  -- the leaf stands in the walk once, so one place changes
  rw [hpre] at hnodup
  have hbefore : id ∉ before := by
    intro hmem
    exact (List.nodup_append.mp hnodup).2.2 id hmem id List.mem_cons_self rfl
  have hafter : id ∉ after := (List.nodup_cons.mp (List.nodup_append.mp hnodup).2.1).1
  have hwalk := walk_children h hnode hu hv hleaf hb hc t.size (k := 0) (by omega) (by omega)
  unfold preorder at hpre ⊢
  rw [size_children hu hv, hwalk, hpre, List.flatMap_append, List.flatMap_cons, hid before hbefore,
    hid after hafter, if_pos rfl]
  rfl

end Children

end Tree

/-! ## The first of the open nodes -/

namespace Frontier

variable {α : Type} [Scalar α]

/-- Nothing takes the place of an entry that nothing else comes before. -/
theorem first_self {a : Entry α} {rest : List (Entry α)}
    (hbefore : ∀ d ∈ rest, d ≠ a → d.before a = false) : first a rest = a := by
  unfold first
  induction rest with
  | nil => rfl
  | cons d rest ih =>
    have hstep : (if d.before a = true then d else a) = a := by
      by_cases hd : d = a
      · rw [hd, ite_self]
      · rw [hbefore d List.mem_cons_self hd, if_neg Bool.false_ne_true]
    rw [List.foldl_cons, hstep]
    exact ih fun x hx => hbefore x (List.mem_cons_of_mem d hx)

/-- An entry that comes before all others is found by the scan. -/
theorem first_eq {a e : Entry α} {rest : List (Entry α)} (ha : a ∈ e :: rest)
    (hbefore : ∀ d ∈ e :: rest, d ≠ a → a.before d = true ∧ d.before a = false) :
    first e rest = a := by
  -- the best so far varies: the entry is met later on, or is the best so far and stays it
  induction rest generalizing e with
  | nil => exact (List.mem_singleton.mp ha).symm
  | cons d rest ih =>
    by_cases he : e = a
    · rw [he]
      exact first_self fun x hx hne => (hbefore x (List.mem_cons_of_mem e hx) hne).2
    · show first (if d.before e = true then d else e) rest = a
      have hmem : a ∈ d :: rest := List.mem_of_ne_of_mem (Ne.symm he) ha
      by_cases hd : d = a
      · rw [hd, (hbefore e List.mem_cons_self he).1, if_pos rfl]
        exact first_self fun x hx hne =>
          (hbefore x (List.mem_cons_of_mem e (List.mem_cons_of_mem d hx)) hne).2
      · have hrest : a ∈ rest := List.mem_of_ne_of_mem (Ne.symm hd) hmem
        split
        · apply ih (List.mem_cons_of_mem d hrest)
          intro x hx
          exact hbefore x (List.mem_cons_of_mem e hx)
        · apply ih (List.mem_cons_of_mem e hrest)
          intro x hx
          rcases List.mem_cons.mp hx with hx | hx
          · exact hbefore x (hx ▸ List.mem_cons_self)
          · exact hbefore x (List.mem_cons_of_mem e (List.mem_cons_of_mem d hx))

/-- An entry that is before all others is the one taken out. -/
theorem pop?_eq_of_first {f rest : Frontier α} {a e : Entry α} (ha : a ∈ f.entries)
    (hbefore : ∀ d ∈ f.entries, d ≠ a → a.before d = true ∧ d.before a = false)
    (hpop : f.pop? = some (e, rest)) : e = a := by
  unfold pop? at hpop
  split at hpop
  · cases hpop
  · rename_i d tail hentries
    cases hpop
    rw [hentries] at ha hbefore
    exact first_eq ha hbefore

end Frontier

namespace Search

open Relaxation

variable {σ α : Type}

/-! ## Stacks of open nodes -/

/-- Open nodes of falling depths. -/
def Falling (t : Tree α) (stack : List (Entry α)) : Prop :=
  stack.Pairwise fun a b => t.depthOf b.node < t.depthOf a.node

/-- Open nodes of falling depths, except that the first two may be the children of one node. -/
def Dives (t : Tree α) (stack : List (Entry α)) : Prop :=
  Falling t stack ∨ ∃ a b rest p, stack = a :: b :: rest ∧ t.children p = [a.node, b.node] ∧
    t.depthOf a.node = t.depthOf b.node ∧ a.serial < b.serial ∧ Falling t (b :: rest)

/-- What a search can have open at a time: at most one node of a depth, and two only of the largest
depth, the children of one node; so there are no more than that depth and one. -/
structure Slender (t : Tree α) (entries : List (Entry α)) : Prop where
  at_depth : ∀ k, (entries.filter fun d => t.depthOf d.node = k).length ≤ 1 ∨
    ((∀ d ∈ entries, t.depthOf d.node ≤ k) ∧ ∃ p, (t.children p).length = 2 ∧
      ((entries.filter fun d => t.depthOf d.node = k).map Entry.node).Perm (t.children p))
  length_le : ∀ limit, (∀ d ∈ entries, t.depthOf d.node ≤ limit) → entries.length ≤ limit + 1

section Stacks

variable {t : Tree α} {stack entries : List (Entry α)} {a : Entry α}

theorem Falling.congr {u : Tree α} (h : Falling t stack)
    (hdepth : ∀ d ∈ stack, u.depthOf d.node = t.depthOf d.node) : Falling u stack := by
  apply List.Pairwise.imp_of_mem _ h
  intro a b ha hb hlt
  rw [hdepth a ha, hdepth b hb]
  exact hlt

/-- Among nodes of falling depths no two have the same one. -/
theorem Falling.filter_length_le (h : Falling t stack) (k : ℕ) :
    (stack.filter fun d => t.depthOf d.node = k).length ≤ 1 := by
  have hfilter := h.filter fun d => t.depthOf d.node = k
  cases hlist : stack.filter fun d => t.depthOf d.node = k with
  | nil => exact Nat.zero_le _
  | cons a rest =>
    cases rest with
    | nil => exact Nat.le_refl _
    | cons b rest =>
      have hmem : ∀ d ∈ a :: b :: rest, t.depthOf d.node = k := by
        intro d hd
        rw [← hlist] at hd
        exact of_decide_eq_true (List.mem_filter.mp hd).2
      rw [hlist] at hfilter
      have hlt := List.rel_of_pairwise_cons hfilter List.mem_cons_self
      have ha := hmem a List.mem_cons_self
      have hb := hmem b (List.mem_cons_of_mem a List.mem_cons_self)
      omega

/-- Falling depths above zero are at most as many as the largest one. -/
theorem Falling.length_le (h : Falling t stack) (hpos : ∀ d ∈ stack, 1 ≤ t.depthOf d.node)
    {limit : ℕ} (hle : ∀ d ∈ stack, t.depthOf d.node ≤ limit) : stack.length ≤ limit := by
  induction stack generalizing limit with
  | nil => exact Nat.zero_le _
  | cons a rest ih =>
    obtain ⟨hfirst, hrest⟩ := List.pairwise_cons.mp h
    have ha := hpos a List.mem_cons_self
    have hlimit := hle a List.mem_cons_self
    have hlength : rest.length ≤ t.depthOf a.node - 1 := by
      apply ih hrest
      · intro d hd
        exact hpos d (List.mem_cons_of_mem a hd)
      · intro d hd
        have hd := hfirst d hd
        omega
    rw [List.length_cons]
    omega

/-- Below the first node of a stack the depths fall, and none is larger than its own. -/
theorem Dives.tail (h : Dives t (a :: stack)) :
    Falling t stack ∧ ∀ d ∈ stack, t.depthOf d.node ≤ t.depthOf a.node := by
  rcases h with h | ⟨x, y, rest, p, hstack, -, hdepth, -, hfalling⟩
  · obtain ⟨hfirst, hrest⟩ := List.pairwise_cons.mp h
    exact ⟨hrest, fun d hd => Nat.le_of_lt (hfirst d hd)⟩
  · cases hstack
    refine ⟨hfalling, ?_⟩
    intro d hd
    rw [hdepth]
    rcases List.mem_cons.mp hd with hd | hd
    · exact Nat.le_of_eq (congrArg (fun d => t.depthOf d.node) hd)
    · exact Nat.le_of_lt (List.rel_of_pairwise_cons hfalling hd)

/-- Two open nodes of one depth are children of one node, and none is deeper. -/
theorem Dives.at_depth (h : Dives t stack) (k : ℕ) :
    (stack.filter fun d => t.depthOf d.node = k).length ≤ 1 ∨
      ((∀ d ∈ stack, t.depthOf d.node ≤ k) ∧ ∃ p, (t.children p).length = 2 ∧
        (stack.filter fun d => t.depthOf d.node = k).map Entry.node = t.children p) := by
  rcases h with h | ⟨a, b, rest, p, rfl, hsiblings, hdepth, -, hfalling⟩
  · exact .inl (h.filter_length_le k)
  have hrest : ∀ d ∈ rest, t.depthOf d.node < t.depthOf b.node := by
    intro d hd
    exact List.rel_of_pairwise_cons hfalling hd
  by_cases hk : t.depthOf b.node = k
  · have ha : t.depthOf a.node = k := hdepth.trans hk
    right
    constructor
    · intro d hd
      rcases List.mem_cons.mp hd with rfl | hd
      · exact Nat.le_of_eq ha
      · rcases List.mem_cons.mp hd with rfl | hd
        · exact Nat.le_of_eq hk
        · exact Nat.le_of_lt (hk ▸ hrest d hd)
    · have hnone : rest.filter (fun d => t.depthOf d.node = k) = [] := by
        rw [List.filter_eq_nil_iff]
        intro d hd hdec
        have hlt := hrest d hd
        have heq := of_decide_eq_true hdec
        omega
      refine ⟨p, by rw [hsiblings]; rfl, ?_⟩
      simp [ha, hk, hnone, hsiblings]
  · left
    -- without the first of the two, all depths are different
    have ha : ¬ t.depthOf a.node = k := fun heq => hk (hdepth.symm.trans heq)
    rw [List.filter_cons_of_neg (by simpa using ha)]
    exact hfalling.filter_length_le k

/-- There is at most one open node for each depth, and one more. -/
theorem Dives.length_le (h : Dives t stack)
    (hpos : stack.length ≤ 1 ∨ ∀ d ∈ stack, 1 ≤ t.depthOf d.node) {limit : ℕ}
    (hle : ∀ d ∈ stack, t.depthOf d.node ≤ limit) : stack.length ≤ limit + 1 := by
  rcases hpos with hone | hpos
  · omega
  · cases stack with
    | nil => exact Nat.zero_le _
    | cons a rest =>
      have hlength := h.tail.1.length_le (fun d hd => hpos d (List.mem_cons_of_mem a hd))
        (fun d hd => hle d (List.mem_cons_of_mem a hd))
      rw [List.length_cons]
      omega

/-- The order in which nodes are open does not matter. -/
theorem Dives.slender (h : Dives t stack) (hperm : stack.Perm entries)
    (hpos : stack.length ≤ 1 ∨ ∀ d ∈ stack, 1 ≤ t.depthOf d.node) : Slender t entries where
  at_depth k := by
    have hfilter := hperm.filter fun d => decide (t.depthOf d.node = k)
    rcases h.at_depth k with hone | ⟨hle, p, htwo, hsiblings⟩
    · exact .inl (hfilter.length_eq ▸ hone)
    · refine .inr ⟨fun d hd => hle d (hperm.mem_iff.mpr hd), p, htwo, ?_⟩
      rw [← hsiblings]
      exact (hfilter.map Entry.node).symm
  length_le limit hle := by
    rw [← hperm.length_eq]
    exact h.length_le hpos fun d hd => hle d (hperm.mem_iff.mp hd)

end Stacks

/-! ## Priorities -/

variable [Scalar α]

/-- Priority of the children of a node at a depth. -/
def depthKey (α : Type) [Scalar α] (depth : ℕ) : α := -(Scalar.ofNat depth : α) - 1

/-- Depths up to a limit are told apart by the priorities they give: the larger comes first. -/
def ExactDepths (α : Type) [Scalar α] (limit : ℕ) : Prop :=
  ∀ k l, k ≤ limit → l ≤ limit →
    Scalar.totalCompare (depthKey α k) (depthKey α l) = compare l k

theorem ExactDepths.mono {m n : ℕ} (h : ExactDepths α n) (hmn : m ≤ n) : ExactDepths α m :=
  fun k l hk hl => h k l (hk.trans hmn) (hl.trans hmn)

/-- An open node that has the priority of its depth. -/
def Keyed (t : Tree α) (limit : ℕ) (d : Entry α) : Prop :=
  ∃ k, k ≤ limit ∧ t.depthOf d.node = k + 1 ∧ d.priority = depthKey α k

theorem Keyed.congr {t u : Tree α} {m n : ℕ} {d : Entry α} (h : Keyed t m d)
    (hdepth : u.depthOf d.node = t.depthOf d.node) (hmn : m ≤ n) : Keyed u n d := by
  obtain ⟨k, hk, hdk, hpriority⟩ := h
  exact ⟨k, hk.trans hmn, hdepth.trans hdk, hpriority⟩

/-- The deeper of two nodes comes first, and the older one of two that are equally deep. -/
theorem before_of_keyed {t : Tree α} {limit : ℕ} {a d : Entry α} (hexact : ExactDepths α limit)
    (ha : Keyed t limit a) (hd : Keyed t limit d)
    (h : t.depthOf d.node < t.depthOf a.node ∨
      (t.depthOf a.node = t.depthOf d.node ∧ a.serial < d.serial)) :
    a.before d = true ∧ d.before a = false := by
  obtain ⟨k, hk, hak, hpriority⟩ := ha
  obtain ⟨l, hl, hdl, hpriority'⟩ := hd
  unfold Entry.before
  rw [hpriority, hpriority', hexact k l hk hl, hexact l k hl hk]
  rcases h with h | ⟨hdepth, hserial⟩
  · have hlt : l < k := by omega
    rw [Nat.compare_eq_lt.mpr hlt, Nat.compare_eq_gt.mpr hlt]
    exact ⟨rfl, rfl⟩
  · obtain rfl : k = l := by omega
    rw [Nat.compare_eq_eq.mpr rfl]
    exact ⟨decide_eq_true hserial, decide_eq_false (by omega)⟩

/-! ## Along a run -/

/-- What is left of the walk is a stack of the open nodes. -/
structure Stacked (taken : List (Entry α)) (s : Ledger α) (stack : List (Entry α)) : Prop where
  perm : stack.Perm s.frontier.entries
  preorder : s.tree.preorder = (taken ++ stack).map Entry.node
  dives : Dives s.tree stack
  keyed : stack.length ≤ 1 ∨ ∀ d ∈ stack, Keyed s.tree s.maxDepth d

/-- The nodes are in order, and what is left of the walk is a stack. -/
def Walking (taken : List (Entry α)) (s : Ledger α) : Prop :=
  Orderly taken s ∧ (ExactDepths α s.maxDepth → ∃ stack, Stacked taken s stack)

section Walk

variable {ctx : Context σ α} {taken stack : List (Entry α)} {s t : Ledger α} {e : Entry α}
  {rest : Frontier α}

/-- Where there are several open nodes, each has the priority of its depth. -/
theorem Stacked.keyed_of_mem_tail {tail : List (Entry α)} {d : Entry α}
    (h : Stacked taken s (e :: tail)) (hd : d ∈ tail) :
    ∀ x ∈ e :: tail, Keyed s.tree s.maxDepth x := by
  rcases h.keyed with hone | hkeyed
  · have hlength := List.length_pos_of_mem hd
    simp only [List.length_cons] at hone
    omega
  · exact hkeyed

/-- The node on top of the stack is taken up next. -/
theorem Stacked.exists_cons (h : Stacked taken s stack) (hexact : ExactDepths α s.maxDepth)
    (hpop : s.frontier.pop? = some (e, rest)) : ∃ tail, stack = e :: tail := by
  obtain ⟨he, -⟩ := Frontier.pop?_eq_some hpop
  cases stack with
  | nil => cases h.perm.mem_iff.mpr he
  | cons a tail =>
    -- all others are less deep, or the sibling of the same depth, which is newer
    have hbefore : ∀ d ∈ s.frontier.entries, d ≠ a → a.before d = true ∧ d.before a = false := by
      intro d hd hne
      have hmem : d ∈ tail := List.mem_of_ne_of_mem hne (h.perm.mem_iff.mpr hd)
      have hkeyed := h.keyed_of_mem_tail hmem
      apply before_of_keyed hexact (hkeyed a List.mem_cons_self)
        (hkeyed d (List.mem_cons_of_mem a hmem))
      rcases h.dives with hfalling | ⟨x, y, rest, p, hstack, -, hdepth, hserial, hfalling⟩
      · exact .inl (List.rel_of_pairwise_cons hfalling hmem)
      · cases hstack
        rcases List.mem_cons.mp hmem with rfl | hmem
        · exact .inr ⟨hdepth, hserial⟩
        · rw [hdepth]
          exact .inl (List.rel_of_pairwise_cons hfalling hmem)
    have hfirst := Frontier.pop?_eq_of_first (h.perm.mem_iff.mp List.mem_cons_self) hbefore hpop
    exact ⟨tail, by rw [hfirst]⟩

/-- A node without new children leaves the stack. -/
theorem Stacked.pop {tail : List (Entry α)} {g : Node α → Node α}
    (h : Stacked taken s (e :: tail)) (hrest : tail.Perm rest.entries) (hg : KeepsPlace g)
    (htree : t.tree = s.tree.modify e.node g) (hfrontier : t.frontier = rest)
    (hmax : s.maxDepth ≤ t.maxDepth) : Stacked (taken ++ [e]) t tail := by
  have hdepth : t.tree.depthOf = s.tree.depthOf := by
    rw [htree, Tree.depthOf_modify hg]
  refine ⟨?_, ?_, .inl (h.dives.tail.1.congr fun d _ => by rw [hdepth]), .inr ?_⟩
  · rw [hfrontier]
    exact hrest
  · rw [htree, Tree.preorder_modify hg, h.preorder, List.append_assoc]
    rfl
  · intro d hd
    exact (h.keyed_of_mem_tail hd d (List.mem_cons_of_mem e hd)).congr (by rw [hdepth]) hmax

/-- The two new children of a node take its place on the stack. -/
theorem Stacked.split {tail : List (Entry α)} {g : Node α → Node α} {node : Node α}
    {c : Candidate α} {tree : Tree α} {lower upper : Entry α}
    (h : Stacked taken s (e :: tail)) (hplaced : Placed (taken ++ [e]) s.tree rest)
    (hleaf : s.tree.children e.node = []) (hrest : tail.Perm rest.entries) (hg : KeepsPlace g)
    (hnode : (s.tree.modify e.node g).get? e.node = some node)
    (hdown : (s.tree.modify e.node g).addChild? e.node c.down = some tree)
    (hup : tree.addChild? e.node c.up = some t.tree)
    (hentries : t.frontier.entries = rest.entries ++ [lower, upper])
    (hlower : lower.node = s.tree.size ∧ lower.priority = depthKey α node.depth)
    (hupper : upper.node = s.tree.size + 1 ∧ upper.priority = depthKey α node.depth)
    (hserial : lower.serial < upper.serial)
    (hdepth : node.depth ≤ t.maxDepth) (hmax : s.maxDepth ≤ t.maxDepth) :
    Stacked (taken ++ [e]) t (lower :: upper :: tail) := by
  have hlinked : (s.tree.modify e.node g).Linked := hplaced.linked.modify hg
  have hleaf' : (s.tree.modify e.node g).children e.node = [] := by
    rw [Tree.children_modify hg]
    exact hleaf
  have hsize : (s.tree.modify e.node g).size = s.tree.size := Tree.size_modify _ _ _
  -- depths: the children are one level below the node, and the others are as before
  have htop : s.tree.depthOf e.node = node.depth := by
    rw [← Tree.depthOf_eq hnode, Tree.depthOf_modify hg]
  obtain ⟨hlower', hupper'⟩ := Tree.depthOf_children hnode hdown hup
  rw [hsize, ← hlower.1] at hlower'
  rw [hsize, ← hupper.1] at hupper'
  have hold : ∀ d ∈ tail, t.tree.depthOf d.node = s.tree.depthOf d.node := by
    intro d hd
    have hlt := hplaced.lt_size (hrest.mem_iff.mp hd)
    rw [Tree.depthOf_children_of_lt hnode hdown hup (by omega), Tree.depthOf_modify hg]
  have hfalling : Falling t.tree (upper :: tail) := by
    refine List.pairwise_cons.mpr ⟨?_, h.dives.tail.1.congr hold⟩
    intro d hd
    have hle := h.dives.tail.2 d hd
    rw [hold d hd, hupper']
    omega
  -- the walk: the children stand right after the node, before what was left
  have hpre : (s.tree.modify e.node g).preorder
      = taken.map Entry.node ++ e.node :: tail.map Entry.node := by
    rw [Tree.preorder_modify hg, h.preorder, List.map_append, List.map_cons]
  have hnodup : (s.tree.modify e.node g).preorder.Nodup := by
    rw [hpre]
    have hall := hplaced.nodup
    rw [List.append_assoc, List.map_append] at hall
    exact (((hrest.map Entry.node).cons e.node).append_left _).nodup_iff.mpr hall
  have hsiblings : t.tree.children e.node = [lower.node, upper.node] := by
    rw [Tree.children_children hlinked hnode hdown hup, hleaf', if_pos rfl, hsize, hlower.1,
      hupper.1]
    rfl
  refine ⟨?_, ?_, ?_, .inr ?_⟩
  · rw [hentries]
    show ([lower, upper] ++ tail).Perm (rest.entries ++ [lower, upper])
    exact List.perm_append_comm.trans (hrest.append_right _)
  · rw [Tree.preorder_children hlinked hnode hdown hup hleaf' rfl rfl hpre hnodup, hsize]
    simp [hlower.1, hupper.1]
  · exact .inr ⟨lower, upper, tail, e.node, rfl, hsiblings, hlower'.trans hupper'.symm, hserial,
      hfalling⟩
  · intro d hd
    rcases List.mem_cons.mp hd with rfl | hd
    · exact ⟨node.depth, hdepth, hlower', hlower.2⟩
    · rcases List.mem_cons.mp hd with rfl | hd
      · exact ⟨node.depth, hdepth, hupper', hupper.2⟩
      · exact (h.keyed_of_mem_tail hd d (List.mem_cons_of_mem e hd)).congr (hold d hd) hmax

/-- A turn takes the next node of the walk. -/
theorem Walking.turn (hselection : ctx.settings.selection = .depthFirst) (h : Walking taken s)
    (hpop : s.frontier.pop? = some (e, rest))
    (hturn : Turn ctx e { s with frontier := rest } t) : Walking (taken ++ [e]) t := by
  refine ⟨h.1.turn hpop hturn, fun hexact => ?_⟩
  have hmax : s.maxDepth ≤ t.maxDepth := hturn.maxDepth_le
  obtain ⟨stack, hstack⟩ := h.2 (hexact.mono hmax)
  obtain ⟨tail, rfl⟩ := hstack.exists_cons (hexact.mono hmax) hpop
  obtain ⟨hplaced, hfresh⟩ := h.1.placed.pop hpop
  have hrest : tail.Perm rest.entries := by
    have hpopped := h.1.placed.numbered.perm_pop? h.1.placed.nodup_entries hpop
    exact (hstack.perm.trans hpopped.symm).cons_inv
  cases hturn.grows with
  | stays hg htree hfrontier => exact ⟨tail, hstack.pop hrest hg htree hfrontier hmax⟩
  | splits hg hnode hpriorities hdown hup hfrontier hdepth =>
    rw [hselection] at hpriorities
    cases hpriorities
    have hentries := congrArg Frontier.entries hfrontier
    rw [Frontier.push, Frontier.push, List.append_assoc] at hentries
    exact ⟨_, hstack.split hplaced hfresh.2 hrest hg hnode hdown hup hentries ⟨rfl, rfl⟩ ⟨rfl, rfl⟩
      (Nat.lt_succ_self _) hdepth hmax⟩

theorem walking_initial (ctx : Context σ α) (backend : σ) :
    Walking [] (initial ctx backend).ledger := by
  refine ⟨orderly_initial ctx backend, fun _ => ?_⟩
  refine ⟨(initial ctx backend).frontier.entries, List.Perm.refl _, rfl, .inl ?_, .inl ?_⟩
  · exact List.pairwise_singleton _ _
  · exact Nat.le_refl _

/-- A depth-first run walks the preorder, after any number of steps. -/
theorem walking_of_run (hselection : ctx.settings.selection = .depthFirst) (backend : σ) (n : ℕ) :
    Walking (takenUp ctx n (initial ctx backend))
      ((Phase.running (initial ctx backend)).advance ctx n).state.ledger :=
  holds_of_turns (P := Walking) (fun h => h.1.exists_node) (Walking.turn hselection) n
    (walking_initial ctx backend)

end Walk

/-- Depth first, the nodes taken up are the start of the preorder of the final tree, or all of it
where none is left open; and between two nodes few are open. -/
theorem depth_first_preorder (ctx : Context σ α)
    (hselection : ctx.settings.selection = .depthFirst) (backend : σ) :
    (ExactDepths α (search ctx backend).state.maxDepth →
      (takenUp ctx (stepBound ctx.settings) (initial ctx backend)).map Entry.node
        <+: (search ctx backend).state.tree.preorder ∧
      ((search ctx backend).state.frontier.entries = [] →
        (takenUp ctx (stepBound ctx.settings) (initial ctx backend)).map Entry.node
          = (search ctx backend).state.tree.preorder)) ∧
    ∀ n s, (Phase.running (initial ctx backend)).advance ctx n = .running s →
      ExactDepths α s.maxDepth → Slender s.tree s.frontier.entries := by
  have hwalking := walking_of_run (σ := σ) hselection backend
  constructor
  · intro hexact
    have hlast := (hwalking (stepBound ctx.settings)).2
    rw [← ledger_search] at hlast
    obtain ⟨stack, hstack⟩ := hlast hexact
    have hpre : (search ctx backend).state.tree.preorder
        = (takenUp ctx (stepBound ctx.settings) (initial ctx backend) ++ stack).map Entry.node :=
      hstack.preorder
    rw [hpre, List.map_append]
    refine ⟨List.prefix_append _ _, ?_⟩
    intro hempty
    have hnil : stack.Perm [] := hempty ▸ hstack.perm
    rw [hnil.eq_nil, List.map_nil, List.append_nil]
  · intro n s hrunning hexact
    have hs := (hwalking n).2
    rw [hrunning] at hs
    obtain ⟨stack, hstack⟩ := hs hexact
    apply hstack.dives.slender hstack.perm
    refine hstack.keyed.imp_right fun hkeyed d hd => ?_
    obtain ⟨k, -, hk, -⟩ := hkeyed d hd
    rw [hk]
    exact Nat.le_add_left 1 k

/-! ## Exact numbers -/

/-- Exact numbers tell all depths apart. -/
theorem exactDepths_extRat (limit : ℕ) : ExactDepths ExtRat limit := by
  have hkey : ∀ k : ℕ, depthKey ExtRat k = .fin (-(k : ℚ) - 1) := by
    intro k
    show ExtRat.fin (-(k : ℚ)) - 1 = _
    rw [ExtRat.one_eq_fin, ExtRat.fin_sub]
  intro k l _ _
  rw [hkey, hkey]
  rcases Nat.lt_trichotomy l k with h | h | h
  · have hlt : (l : ℚ) < k := Nat.cast_lt.mpr h
    rw [Nat.compare_eq_lt.mpr h, ExtRat.totalCompare_eq_lt_iff, ExtRat.fin_lt_fin]
    linarith
  · rw [h, Nat.compare_eq_eq.mpr rfl, ExtRat.totalCompare_self]
  · have hlt : (k : ℚ) < l := Nat.cast_lt.mpr h
    rw [Nat.compare_eq_gt.mpr h, ExtRat.totalCompare_eq_gt_iff, ExtRat.fin_lt_fin]
    linarith

/-- A search for the largest whole number whose double is at most three goes through its whole tree
in preorder, with both children of the root open at first; and where the backend fails at the second
request, one node is left. -/
theorem depth_first_preorder_doubled :
    ((takenUp (doubledContext 3) (stepBound (doubledContext 3).settings)
          (initial (doubledContext 3) ())).map Entry.node
        = (search (doubledContext 3) ()).state.tree.preorder ∧
      (search (doubledContext 3) ()).state.tree.preorder = [0, 1, 2]) ∧
    (∃ s, (Phase.running (initial (doubledContext 3) ())).advance (doubledContext 3) 1
        = .running s ∧ s.frontier.entries.map (fun d => s.tree.depthOf d.node) = [1, 1] ∧
      Slender s.tree s.frontier.entries) ∧
    (takenUp (falteringContext 3) (stepBound (falteringContext 3).settings)
        (initial (falteringContext 3) 1)).map Entry.node
      <+: (search (falteringContext 3) 1).state.tree.preorder ∧
    (search (falteringContext 3) 1).state.frontier.entries.map Entry.node = [2] := by
  have hempty : (search (doubledContext 3) ()).state.frontier.entries.map Entry.node = [] := by
    decide +kernel
  have hpre : (search (doubledContext 3) ()).state.tree.preorder = [0, 1, 2] := by
    decide +kernel
  have hopen : (match (Phase.running (initial (doubledContext 3) ())).advance (doubledContext 3) 1
      with
      | .running s => some (s.frontier.entries.map fun d => s.tree.depthOf d.node)
      | .ended _ _ => none) = some [1, 1] := by
    decide +kernel
  have hleft : (search (falteringContext 3) 1).state.frontier.entries.map Entry.node = [2] := by
    decide +kernel
  obtain ⟨hfull, hheads⟩ := depth_first_preorder (doubledContext 3) rfl ()
  obtain ⟨hpart, -⟩ := depth_first_preorder (falteringContext 3) rfl 1
  refine ⟨⟨?_, hpre⟩, ?_, (hpart (exactDepths_extRat _)).1, hleft⟩
  · exact (hfull (exactDepths_extRat _)).2 (List.map_eq_nil_iff.mp hempty)
  · cases hphase : (Phase.running (initial (doubledContext 3) ())).advance (doubledContext 3) 1 with
    | ended result s =>
      rw [hphase] at hopen
      cases hopen
    | running s =>
      rw [hphase] at hopen
      exact ⟨s, rfl, Option.some.inj hopen, hheads 1 s hphase (exactDepths_extRat _)⟩

end Search

end BranchBound
