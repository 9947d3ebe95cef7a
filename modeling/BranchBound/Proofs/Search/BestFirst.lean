import BranchBound.Proofs.Search.History
import BranchBound.Proofs.Search.Partition

/-!
# Best-first search

Where the open node with the largest inherited bound is taken up first, and no node is worth more
than the node above it, inherited bounds never rise from one node taken up to the next. So no
relaxation is solved in vain: whenever the search stops, every node that was solved had inherited a
bound at least as large as the objective the search ends with.

* `Entry.order`, `Frontier.before_of_pop?`: which node is taken up.
* `Frontier.bound_le_of_pop?`: it has the largest bound where priorities follow the bounds.
* `Tree.Falls`: no node is worth more than the node above it.
* `OpenIn`: how open nodes hang in the tree, and where their bounds come from.
* `Descending`: the nodes taken up so far against those still open and the incumbent.
* `descending_visits`, `descending_breaks`: what one more node does, whether its visit succeeds or
  fails.
* `best_first_wastes_nothing`: the whole run.
-/

namespace BranchBound

variable {σ α : Type} [Scalar α]

/-! ## The node that comes first -/

namespace Entry

/-- Comparison of open nodes: by priority, then by serial number. -/
def order : Entry α → Entry α → Ordering :=
  compareLex (fun a b => Scalar.totalCompare a.priority b.priority) (compareOn Entry.serial)

theorem before_iff {a b : Entry α} : a.before b = true ↔ order a b = .lt := by
  unfold before
  show _ ↔ (Scalar.totalCompare a.priority b.priority).then (compare a.serial b.serial) = .lt
  cases Scalar.totalCompare a.priority b.priority with
  | lt => exact iff_of_true rfl rfl
  | eq => exact decide_eq_true_iff.trans Nat.compare_eq_lt.symm
  | gt => exact iff_of_false Bool.false_ne_true Ordering.noConfusion

instance [Std.TransCmp (Scalar.totalCompare : α → α → Ordering)] :
    Std.TransCmp (order : Entry α → Entry α → Ordering) := by
  have hpriority : Std.TransCmp fun a b : Entry α => Scalar.totalCompare a.priority b.priority :=
    { eq_swap := Std.OrientedCmp.eq_swap, isLE_trans := Std.TransCmp.isLE_trans }
  unfold order
  infer_instance

/-- An entry that nothing comes before comes before all others, if numbers tell entries apart. -/
theorem before_of_order {e d : Entry α} (hle : (e.order d).isLE = true)
    (hserial : e.serial ≠ d.serial) : e.before d = true := by
  rw [before_iff]
  refine (Ordering.isLE_iff_eq_lt_or_eq_eq.mp hle).resolve_right fun heq => hserial ?_
  exact Nat.compare_eq_eq.mp (Ordering.then_eq_eq.mp heq).2

theorem priority_le_of_order [SignedScalar α] {a b : Entry α} (h : (a.order b).isLE = true) :
    a.priority ≤ b.priority := by
  refine not_lt.mp fun hlt => ?_
  rw [order, compareLex, (SignedScalar.totalCompare_eq_gt_iff _ _).mpr hlt] at h
  exact Bool.false_ne_true h

end Entry

namespace Frontier

section Order

variable [Std.TransCmp (Scalar.totalCompare : α → α → Ordering)]

/-- Nothing comes before the entry that the scan finds. -/
theorem order_first (e : Entry α) (rest : List (Entry α)) :
    ∀ d ∈ e :: rest, ((first e rest).order d).isLE = true := by
  induction rest generalizing e with
  | nil =>
    intro d hd
    rw [List.mem_singleton.mp hd]
    exact Std.ReflCmp.isLE_rfl
  | cons c rest ih =>
    intro d hd
    -- the better of the first two is at most both of them
    have hboth : ∀ best : Entry α, (best.order e).isLE = true → (best.order c).isLE = true →
        (∀ d ∈ best :: rest, ((first best rest).order d).isLE = true) →
        ((first best rest).order d).isLE = true := by
      intro best he hc hfound
      have hbest := hfound best List.mem_cons_self
      rcases List.mem_cons.mp hd with rfl | hd
      · exact Std.TransCmp.isLE_trans hbest he
      · rcases List.mem_cons.mp hd with rfl | hd
        · exact Std.TransCmp.isLE_trans hbest hc
        · exact hfound d (List.mem_cons_of_mem best hd)
    show ((first (if c.before e = true then c else e) rest).order d).isLE = true
    cases hbefore : c.before e with
    | true =>
      rw [if_pos rfl]
      refine hboth c ?_ Std.ReflCmp.isLE_rfl (ih c)
      rw [Entry.before_iff.mp hbefore]
      rfl
    | false =>
      rw [if_neg Bool.false_ne_true]
      refine hboth e Std.ReflCmp.isLE_rfl ?_ (ih e)
      rw [Ordering.isLE_iff_ne_gt, Std.OrientedCmp.gt_iff_lt, ← Entry.before_iff]
      exact ne_true_of_eq_false hbefore

theorem order_of_pop? {f rest : Frontier α} {e : Entry α} (hpop : f.pop? = some (e, rest)) :
    ∀ d ∈ f.entries, (e.order d).isLE = true := by
  unfold pop? at hpop
  split at hpop
  · cases hpop
  · rename_i c others hentries
    cases hpop
    rw [hentries]
    exact order_first c others

/-- The entry taken out comes before all that are left. -/
theorem before_of_pop? {f rest : Frontier α} {e : Entry α} (hpop : f.pop? = some (e, rest)) :
    ∀ d ∈ rest.entries, e.before d = true := by
  obtain ⟨he, hrest, -⟩ := pop?_eq_some hpop
  intro d hd
  rw [hrest, List.mem_filter, decide_eq_true_iff] at hd
  exact Entry.before_of_order (order_of_pop? hpop d hd.1) (Ne.symm hd.2)

end Order

/-- Where priorities are the negatives of bounds, the node taken up has the largest bound. -/
theorem bound_le_of_pop? [SignedScalar α] {f rest : Frontier α} {e : Entry α}
    (hpriority : ∀ d ∈ f.entries, d.priority = -d.bound) (h : f.pop? = some (e, rest)) :
    ∀ d ∈ f.entries, d.bound ≤ e.bound := by
  have he := hpriority e (pop?_eq_some h).1
  intro d hd
  have hle := Entry.priority_le_of_order (order_of_pop? h d hd)
  rw [he, hpriority d hd] at hle
  exact (SignedScalar.neg_le_neg_iff _ _).mp hle

end Frontier

/-! ## Values along the tree -/

namespace Tree

variable {t u v : Tree α} {id k p : ℕ} {node above : Node α} {b c : Branch α}

/-- No node is worth more than the node above it. A node without an optimum of its own has the value
it inherited. -/
def Falls (t : Tree α) : Prop :=
  ∀ node ∈ t.nodes.toList, ∀ above ∈ node.parent.bind t.get?, node.bound ≤ above.bound

instance (t : Tree α) : Decidable t.Falls := inferInstanceAs (Decidable (∀ _ ∈ _, _))

theorem falls_iff : t.Falls ↔ ∀ k node p above, t.get? k = some node → node.parent = some p →
    t.get? p = some above → node.bound ≤ above.bound := by
  unfold Falls
  constructor
  · intro h k node p above hk hp habove
    refine h node (Array.mem_toList_iff.mpr (Array.mem_of_getElem? hk)) above ?_
    rw [hp]
    exact habove
  · intro h node hnode above habove
    obtain ⟨k, hk⟩ := Array.mem_iff_getElem?.mp (Array.mem_toList_iff.mp hnode)
    obtain ⟨p, hp, habove⟩ := Option.bind_eq_some_iff.mp habove
    exact h k node p above hk hp habove

/-- Two more children leave the old nodes as they are. -/
theorem falls_of_children (hnode : t.get? id = some node) (hu : t.addChild? id b = some u)
    (hv : u.addChild? id c = some v) (h : v.Falls) : t.Falls := by
  rw [falls_iff] at h ⊢
  intro k child p above hk hp habove
  refine h k child p above ?_ hp ?_
  · rw [get?_children_of_lt hnode hu hv (get?_lt_size hk)]
    exact hk
  · rw [get?_children_of_lt hnode hu hv (get?_lt_size habove)]
    exact habove

end Tree

namespace Search

open Relaxation

/-! ## Open nodes -/

/-- Where the bound of an open node comes from. The node has it as its own value as long as there is
no better one. -/
inductive Inherits (tree : Tree α) (e : Entry α) : Prop
  | root {node : Node α} (hnode : tree.get? e.node = some node) (hvalue : node.bound = e.bound)
      (hparent : node.parent = none) (hbound : e.bound = Scalar.infinity)
  | child {node above : Node α} {p : ℕ} (hnode : tree.get? e.node = some node)
      (hvalue : node.bound = e.bound) (hparent : node.parent = some p)
      (habove : tree.get? p = some above) (hbound : above.bound = e.bound)

/-- How open nodes hang in a tree: they are different and have no children, and they inherit their
bounds. -/
structure OpenIn (tree : Tree α) (entries : List (Entry α)) : Prop where
  nodup : (entries.map Entry.node).Nodup
  parent_lt : ∀ k node p, tree.get? k = some node → node.parent = some p → p < tree.size
  isLeaf : ∀ e ∈ entries, tree.IsLeaf e.node
  path : ∀ e ∈ entries, ∃ bs, tree.Path e.node bs
  inherits : ∀ e ∈ entries, Inherits tree e

variable {tree u v : Tree α} {e : Entry α} {entries : List (Entry α)} {node : Node α}
  {g : Node α → Node α} {b c : Branch α}

/-- Only the node itself and the one above it matter. -/
theorem Inherits.congr (h : Inherits tree e) (hself : u.get? e.node = tree.get? e.node)
    (habove : ∀ node p, tree.get? e.node = some node → node.parent = some p →
      u.get? p = tree.get? p) : Inherits u e := by
  cases h with
  | root hnode hvalue hparent hbound => exact .root (hself.trans hnode) hvalue hparent hbound
  | child hnode hvalue hparent hp hbound =>
    exact .child (hself.trans hnode) hvalue hparent ((habove _ _ hnode hparent).trans hp) hbound

theorem Inherits.value_eq (h : Inherits tree e) (hnode : tree.get? e.node = some node) :
    node.bound = e.bound := by
  cases h with
  | root hnode' hvalue =>
    cases hnode.symm.trans hnode'
    exact hvalue
  | child hnode' hvalue =>
    cases hnode.symm.trans hnode'
    exact hvalue

namespace OpenIn

theorem perm {others : List (Entry α)} (h : OpenIn tree entries) (hperm : others.Perm entries) :
    OpenIn tree others :=
  ⟨(hperm.map Entry.node).nodup_iff.mpr h.nodup, h.parent_lt,
    fun d hd => h.isLeaf d (hperm.mem_iff.mp hd), fun d hd => h.path d (hperm.mem_iff.mp hd),
    fun d hd => h.inherits d (hperm.mem_iff.mp hd)⟩

/-- A node that is taken up may change in everything but its place: the other open nodes are neither
it nor below it. -/
theorem close (h : OpenIn tree (e :: entries))
    (hg : ∀ node, (g node).id = node.id ∧ (g node).parent = node.parent ∧
      (g node).depth = node.depth ∧ (g node).branch = node.branch) :
    OpenIn (tree.modify e.node g) entries := by
  obtain ⟨hnew, hnodup⟩ := List.nodup_cons.mp h.nodup
  have hparent : ∀ node, (g node).parent = node.parent := fun node => (hg node).2.1
  refine ⟨hnodup, fun k node p hk hp => ?_, fun d hd => ?_, fun d hd => ?_, fun d hd => ?_⟩
  · obtain ⟨before, hbefore, hlink⟩ := Tree.exists_of_get?_modify hparent hk
    rw [Tree.size_modify]
    exact h.parent_lt k before p hbefore (hlink.symm.trans hp)
  · rw [Tree.isLeaf_modify_iff hparent]
    exact h.isLeaf d (List.mem_cons_of_mem e hd)
  · obtain ⟨bs, hpath⟩ := h.path d (List.mem_cons_of_mem e hd)
    exact ⟨bs, hpath.mono (Tree.extends_modify hg)⟩
  · refine (h.inherits d (List.mem_cons_of_mem e hd)).congr ?_ fun node p hnode hp => ?_
    · rw [Tree.get?_modify, if_neg]
      intro heq
      exact hnew (heq ▸ List.mem_map_of_mem hd)
    · rw [Tree.get?_modify, if_neg]
      rintro rfl
      exact (h.isLeaf e List.mem_cons_self).2 d.node node hnode hp

/-- Two children that inherit the value of their parent are open. -/
theorem push {id : ℕ} (h : OpenIn tree entries) (hnode : tree.get? id = some node)
    (hnew : id ∉ entries.map Entry.node) {bs : List (Branch α)} (hpath : tree.Path id bs)
    (hu : tree.addChild? id b = some u) (hv : u.addChild? id c = some v) {down up : Entry α}
    (hdown : down.node = tree.size ∧ down.bound = node.bound)
    (hup : up.node = tree.size + 1 ∧ up.bound = node.bound) :
    OpenIn v (entries ++ [down, up]) := by
  have hlt : id < tree.size := Tree.get?_lt_size hnode
  have hid : node.id = id := hpath.id_eq hnode
  have hold : ∀ {k}, k < tree.size → v.get? k = tree.get? k := Tree.get?_children_of_lt hnode hu hv
  have hentries : ∀ d ∈ entries, d.node < tree.size := by
    intro d hd
    obtain ⟨old, hold⟩ := (h.isLeaf d hd).1
    exact Tree.get?_lt_size hold
  have hmem : ∀ d, d ∈ entries ++ [down, up] ↔ d ∈ entries ∨ d = down ∨ d = up := by
    intro d
    simp only [List.mem_append, List.mem_cons, List.not_mem_nil, or_false]
  obtain ⟨hpathDown, hpathUp⟩ := hpath.children hnode hu hv
  have hchild := Tree.get?_children hnode hu hv
  refine ⟨?_, fun k kid p hk hp => ?_, fun d hd => ?_, fun d hd => ?_, fun d hd => ?_⟩
  · rw [List.map_append, List.nodup_append]
    refine ⟨h.nodup, by simp [hdown.1, hup.1], fun k hk j hj => ?_⟩
    obtain ⟨d, hd, rfl⟩ := List.mem_map.mp hk
    have hd' := hentries d hd
    simp only [List.map_cons, List.map_nil, List.mem_cons, List.not_mem_nil, or_false] at hj
    omega
  · rw [Tree.size_addChild? hv, Tree.size_addChild? hu]
    rcases Tree.cases_of_get?_children hpath hnode hu hv hk with hk | ⟨-, hparent, -⟩
    · have hlt' := h.parent_lt k kid p hk hp
      omega
    · have hid' := Option.some.inj (hp.symm.trans hparent)
      omega
  · rw [Tree.isLeaf_children_iff hpath hnode h.parent_lt hu hv]
    rcases (hmem d).mp hd with hd | rfl | rfl
    · exact .inl ⟨h.isLeaf d hd, fun heq => hnew (heq ▸ List.mem_map_of_mem hd)⟩
    · exact .inr (.inl hdown.1)
    · exact .inr (.inr hup.1)
  · rcases (hmem d).mp hd with hd | rfl | rfl
    · obtain ⟨cs, hcs⟩ := h.path d hd
      exact ⟨cs, hcs.mono ((Tree.extends_addChild? hu).trans (Tree.extends_addChild? hv))⟩
    · rw [hdown.1]
      exact ⟨_, hpathDown⟩
    · rw [hup.1]
      exact ⟨_, hpathUp⟩
  · rcases (hmem d).mp hd with hd | rfl | rfl
    · exact (h.inherits d hd).congr (hold (hentries d hd)) fun kid p hkid hp =>
        hold (h.parent_lt d.node kid p hkid hp)
    · have hkid : v.get? d.node = some (node.child tree.size b) := by
        rw [hdown.1, hchild, if_neg (Nat.ne_of_lt (Nat.lt_succ_self _)), if_pos rfl]
      exact .child hkid hdown.2.symm (congrArg some hid) ((hold hlt).trans hnode) hdown.2.symm
    · have hkid : v.get? d.node = some (node.child (tree.size + 1) c) := by
        rw [hup.1, hchild, if_pos rfl]
      exact .child hkid hup.2.symm (congrArg some hid) ((hold hlt).trans hnode) hup.2.symm

section Falls

variable [LinearScalar α]

/-- Where values fall after a node was solved, they did before, when it had its inherited one. -/
theorem falls_of_modify (h : OpenIn tree (e :: entries)) (hfalls : (tree.modify e.node g).Falls) :
    tree.Falls := by
  rw [Tree.falls_iff] at hfalls ⊢
  intro k node p above hk hp habove
  have hne : e.node ≠ p := by
    rintro rfl
    exact (h.isLeaf e List.mem_cons_self).2 k node hk hp
  by_cases hid : e.node = k
  · subst hid
    cases h.inherits e List.mem_cons_self with
    | root hnode hvalue hparent =>
      cases hk.symm.trans hnode
      cases hparent.symm.trans hp
    | child hnode hvalue hparent habove' hbound =>
      cases hk.symm.trans hnode
      cases hparent.symm.trans hp
      cases habove.symm.trans habove'
      rw [hvalue, hbound]
  · refine hfalls k node p above ?_ hp ?_
    · rw [Tree.get?_modify, if_neg hid]
      exact hk
    · rw [Tree.get?_modify, if_neg hne]
      exact habove

/-- Where values fall, the new value of a node is at most the bound it inherited. -/
theorem le_bound_of_falls (h : OpenIn tree (e :: entries)) (hnode : tree.get? e.node = some node)
    (hg : (g node).parent = node.parent) (hfalls : (tree.modify e.node g).Falls) :
    (g node).bound ≤ e.bound := by
  rw [Tree.falls_iff] at hfalls
  cases h.inherits e List.mem_cons_self with
  | root hnode' hvalue hparent hbound =>
    rw [hbound]
    exact LinearScalar.le_infinity _
  | @child _ above p hnode' hvalue hparent habove hbound =>
    cases hnode.symm.trans hnode'
    have hne : e.node ≠ p := by
      rintro rfl
      exact (h.isLeaf e List.mem_cons_self).2 e.node node hnode hparent
    rw [← hbound]
    refine hfalls e.node (g node) p above ?_ (hg.trans hparent) ?_
    · rw [Tree.get?_modify, if_pos rfl, hnode, Option.map_some]
    · rw [Tree.get?_modify, if_neg hne]
      exact habove

end Falls

end OpenIn

/-! ## One more node -/

/-- The node was counted as processed, which is what happens before its relaxation is asked for. -/
def Round.Solved (r : Round σ α) : Prop := r.before.processed < r.after.processed

/-- The nodes taken up so far have bounds that never rise, no open node has a larger one, and the
incumbent is worth no more than the bound of any of them that was solved. -/
structure Descending (done : List (Round σ α)) (s : Core α) : Prop where
  sorted : done.Pairwise fun r q => q.entry.bound ≤ r.entry.bound
  priority : ∀ e ∈ s.frontier.entries, e.priority = -e.bound
  open_le : ∀ r ∈ done, ∀ e ∈ s.frontier.entries, e.bound ≤ r.entry.bound
  worth : ∀ r ∈ done, r.Solved → s.incumbent.objective ≤ r.entry.bound

/-- What is true of open nodes between two nodes of a search. -/
structure Hangs (s : Core α) : Prop where
  numbered : s.frontier.Numbered
  openIn : OpenIn s.tree s.frontier.entries

theorem Hangs.pop {s : Core α} (h : Hangs s) {rest : Frontier α}
    (hpop : s.frontier.pop? = some (e, rest)) :
    rest.Numbered ∧ OpenIn s.tree (e :: rest.entries) := by
  have hperm := h.numbered.perm_pop? h.openIn.nodup.of_map hpop
  exact ⟨(h.numbered.pop? hpop).1, h.openIn.perm hperm⟩

variable {ctx : Context σ α} {s t : State σ α}

/-- A visit leaves the open nodes in their places. -/
theorem openIn_visited {s t : Core α} (hall : ctx.settings.enumerateAll = false)
    (h : OpenIn s.tree (e :: s.frontier.entries)) (hvisited : Visited ctx e.node s t) :
    OpenIn t.tree t.frontier.entries := by
  cases hvisited with
  | pruned hnode hclosed => exact h.close fun _ => ⟨rfl, rfl, rfl, rfl⟩
  | infeasible hsolved hnot infeasibility => exact h.close fun _ => ⟨rfl, rfl, rfl, rfl⟩
  | integer hsolved hoptimal hinteger infeasibility => exact h.close fun _ => ⟨rfl, rfl, rfl, rfl⟩
  | fathomed hsolved hoptimal hinteger hclosed infeasibility =>
    exact h.close fun _ => ⟨rfl, rfl, rfl, rfl⟩
  | @branched node box a c fs tree tree' hsolved hoptimal hfs hc infeasibility hdown hup =>
    have hrecorded : OpenIn (recorded s e.node a.objective .candidate infeasibility)
        s.frontier.entries := h.close fun _ => ⟨rfl, rfl, rfl, rfl⟩
    have hsize := size_recorded s e.node a.objective .candidate infeasibility
    have hbound := childBound_eq hall s.incumbent.objective a.objective
    obtain ⟨bs, hpath⟩ := h.path e List.mem_cons_self
    simp only [Frontier.push, List.append_assoc, List.cons_append, List.nil_append]
    refine hrecorded.push (get?_recorded _ _ _ _ _ hsolved.get?) (List.nodup_cons.mp h.nodup).1
      (hpath.mono (extends_recorded _ _ _ _ _)) hdown hup ⟨hsize.symm, hbound⟩ ⟨?_, hbound⟩
    show tree.size = _
    rw [Tree.size_addChild? hdown]

/-- Where values fall after a visit, they did before. -/
theorem falls_of_visited [LinearScalar α] {s t : Core α}
    (h : OpenIn s.tree (e :: s.frontier.entries)) (hvisited : Visited ctx e.node s t)
    (hfalls : t.tree.Falls) : s.tree.Falls := by
  cases hvisited with
  | branched hsolved hoptimal hfs hc infeasibility hdown hup =>
    exact h.falls_of_modify
      (Tree.falls_of_children (get?_recorded _ _ _ _ _ hsolved.get?) hdown hup hfalls)
  | _ => exact h.falls_of_modify hfalls

/-- So they did before a visit that failed. -/
theorem falls_of_breaks [LinearScalar α] {err : SolveError α}
    (h : OpenIn s.tree (e :: s.frontier.entries)) (hbreaks : Breaks ctx e.node e.bound s err t)
    (hfalls : t.tree.Falls) : s.tree.Falls := by
  cases hbreaks with
  | missing hmissing => exact hfalls
  | unsolved hnode err scoring hopen => exact hfalls
  | unbranched hasked hoptimal hlearns infeasibility err last => exact h.falls_of_modify hfalls
  | unreported hvisits => exact falls_of_visited h hvisits.visited hfalls

/-- The bound of a node that is not closed by it is above the incumbent. -/
theorem OpenIn.objective_le_bound [LinearScalar α] {incumbent : α}
    (h : OpenIn tree (e :: entries)) (hall : ctx.settings.enumerateAll = false)
    (hnode : tree.get? e.node = some node) (hclosed : ctx.closedBy incumbent node.bound = false) :
    incumbent ≤ e.bound := by
  unfold Context.closedBy at hclosed
  rw [hall, Bool.not_false, Bool.true_and,
    (h.inherits e List.mem_cons_self).value_eq hnode] at hclosed
  exact le_of_lt (not_le.mp (of_decide_eq_false hclosed))

/-- At first the root is open, with nothing above it. -/
theorem hangs_initial (ctx : Context σ α) (backend : σ) : Hangs (initial ctx backend).core := by
  have hroot : (initial ctx backend).core.tree.get? 0 = some .root := rfl
  have honly : ∀ k node, (initial ctx backend).core.tree.get? k = some node → node = .root := by
    intro k node hk
    have hlt : k < 1 := Tree.get?_lt_size hk
    obtain rfl : k = 0 := by omega
    exact Option.some.inj (hk.symm.trans hroot)
  refine ⟨Frontier.numbered_empty.push 0 _ _, List.nodup_singleton 0, fun k node p hk hp => ?_,
    fun e he => ?_, fun e he => ?_, fun e he => ?_⟩
  · rw [honly k node hk] at hp
    cases hp
  · rw [List.mem_singleton.mp he]
    refine ⟨⟨_, hroot⟩, fun k child hk => ?_⟩
    rw [honly k child hk]
    exact nofun
  · rw [List.mem_singleton.mp he]
    exact ⟨[], .root hroot rfl rfl⟩
  · rw [List.mem_singleton.mp he]
    exact .root hroot rfl rfl rfl

theorem descending_initial (ctx : Context σ α) (backend : σ) :
    Descending ([] : List (Round σ α)) (initial ctx backend).core := by
  refine ⟨List.Pairwise.nil, fun e he => ?_, fun r hr => (List.not_mem_nil hr).elim,
    fun r hr => (List.not_mem_nil hr).elim⟩
  rw [List.mem_singleton.mp he]

section Descending

variable [SignedScalar α] {done : List (Round σ α)} {frontier : Frontier α}

/-- One more node is taken up. What is open after it has no larger bound than the node had, and
neither has the incumbent, unless it is the old one and the node was not solved. -/
theorem Descending.snoc {s t : Core α} {rest : Frontier α} {r : Round σ α} (h : Descending done s)
    (hpop : s.frontier.pop? = some (r.entry, rest))
    (hopen : ∀ d ∈ t.frontier.entries,
      d ∈ rest.entries ∨ (d.priority = -d.bound ∧ d.bound ≤ r.entry.bound))
    (hobjective : (¬ r.Solved ∧ t.incumbent = s.incumbent) ∨
      t.incumbent.objective ≤ r.entry.bound) :
    Descending (done ++ [r]) t := by
  obtain ⟨he, hrest, -, -⟩ := Frontier.pop?_eq_some hpop
  have hlargest := Frontier.bound_le_of_pop? h.priority hpop
  have hmem : ∀ d ∈ rest.entries, d ∈ s.frontier.entries := by
    intro d hd
    rw [hrest] at hd
    exact List.mem_of_mem_filter hd
  have hle : ∀ d ∈ t.frontier.entries, d.bound ≤ r.entry.bound := by
    intro d hd
    rcases hopen d hd with hd | ⟨-, hle⟩
    · exact hlargest d (hmem d hd)
    · exact hle
  -- an earlier node had a bound at least as large as this one, which was open then
  have hearlier : ∀ q ∈ done, r.entry.bound ≤ q.entry.bound := fun q hq => h.open_le q hq _ he
  constructor
  case sorted =>
    rw [List.pairwise_append]
    refine ⟨h.sorted, List.pairwise_singleton _ _, fun q hq r' hr' => ?_⟩
    rw [List.mem_singleton.mp hr']
    exact hearlier q hq
  case priority =>
    intro d hd
    rcases hopen d hd with hd | ⟨hpriority, -⟩
    · exact h.priority d (hmem d hd)
    · exact hpriority
  case open_le =>
    refine List.forall_mem_append.mpr ⟨fun q hq d hd => (hle d hd).trans (hearlier q hq), ?_⟩
    intro q hq
    rw [List.mem_singleton.mp hq]
    exact hle
  case worth =>
    refine List.forall_mem_append.mpr ⟨fun q hq hsolved => ?_, fun q hq hsolved => ?_⟩
    · rcases hobjective with ⟨-, hsame⟩ | hobjective
      · rw [hsame]
        exact h.worth q hq hsolved
      · exact hobjective.trans (hearlier q hq)
    · rw [List.mem_singleton.mp hq] at hsolved ⊢
      exact hobjective.resolve_left fun hnot => hnot.1 hsolved

/-- A visit keeps the bounds in order, provided that values fall in the tree after it. -/
theorem descending_visits (hselection : ctx.settings.selection = .bestFirst)
    (hall : ctx.settings.enumerateAll = false)
    (h : Descending done ⟨s.tree, frontier, s.incumbent⟩)
    (hpop : frontier.pop? = some (e, s.frontier))
    (hopen : OpenIn s.tree (e :: s.frontier.entries)) (hvisits : Visits ctx e.node e.bound s t)
    (hfalls : t.tree.Falls) : Descending (done ++ [⟨e, s, t⟩]) t.core := by
  cases hvisits with
  | pruned hnode hclosed =>
    exact h.snoc hpop (fun d hd => .inl hd) (.inl ⟨lt_irrefl s.processed, rfl⟩)
  | infeasible hasked hnot journal =>
    exact h.snoc hpop (fun d hd => .inl hd)
      (.inr (hopen.objective_le_bound hall hasked.get? hasked.not_closed))
  | @integer node box a scoring learned hasked hoptimal hlearns hinteger journal =>
    have hincumbent := hopen.objective_le_bound hall hasked.get? hasked.not_closed
    rw [core_withJournal, core_offer]
    refine h.snoc hpop (fun d hd => .inl hd) (.inr ?_)
    show (s.incumbent.offer a.x a.objective).objective ≤ e.bound
    rw [Incumbent.objective_offer]
    split
    · have hcore : ((((s.solved node learned).record e.node node.depth .integer a.objective
          none).offer e.node a.x a.objective).withJournal journal).core.tree.Falls := hfalls
      rw [core_withJournal, core_offer] at hcore
      exact hopen.le_bound_of_falls (g := fun n => { n with
        bound := a.objective, status := .integer, infeasibility := none }) hasked.get? rfl hcore
    · exact hincumbent
  | fathomed hasked hoptimal hlearns hinteger hclosed hinfeasibility journal =>
    exact h.snoc hpop (fun d hd => .inl hd)
      (.inr (hopen.objective_le_bound hall hasked.get? hasked.not_closed))
  | @branched node box a scoring learned chosen c down up first last hasked hoptimal hlearns
      hinteger hclosed hdepth infeasibility hinfeasibility noted hselect hpriorities hdown hup
      journal =>
    obtain ⟨tree, htree, rfl⟩ := Option.map_eq_some_iff.mp hdown
    obtain ⟨tree', htree', rfl⟩ := Option.map_eq_some_iff.mp hup
    have hbound := childBound_eq hall s.incumbent.objective a.objective
    rw [hbound, hselection] at hpriorities
    obtain ⟨rfl, rfl⟩ := Prod.mk.inj (Option.some.inj hpriorities)
    have hparent := get?_recorded s.core e.node a.objective .candidate (some infeasibility)
      hasked.get?
    have hrelax : a.objective ≤ e.bound :=
      hopen.le_bound_of_falls (g := fun n => { n with
        bound := a.objective, status := .candidate, infeasibility := some infeasibility })
        hasked.get? rfl (Tree.falls_of_children hparent htree htree' hfalls)
    refine h.snoc hpop (fun d hd => ?_)
      (.inr (hopen.objective_le_bound hall hasked.get? hasked.not_closed))
    -- both children inherit the value of their parent
    rcases List.mem_append.mp hd with hd | hd
    · rcases List.mem_append.mp hd with hd | hd
      · exact .inl hd
      · rw [List.mem_singleton.mp hd, hbound]
        exact .inr ⟨rfl, hrelax⟩
    · rw [List.mem_singleton.mp hd, hbound]
      exact .inr ⟨rfl, hrelax⟩

/-- So does a visit that fails: the node had not been closed by its bound, or it was not counted. -/
theorem descending_breaks {err : SolveError α} (hselection : ctx.settings.selection = .bestFirst)
    (hall : ctx.settings.enumerateAll = false)
    (h : Descending done ⟨s.tree, frontier, s.incumbent⟩)
    (hpop : frontier.pop? = some (e, s.frontier))
    (hopen : OpenIn s.tree (e :: s.frontier.entries)) (hbreaks : Breaks ctx e.node e.bound s err t)
    (hfalls : t.tree.Falls) : Descending (done ++ [⟨e, s, t⟩]) t.core := by
  cases hbreaks with
  | missing hmissing =>
    exact h.snoc hpop (fun d hd => .inl hd) (.inl ⟨lt_irrefl s.processed, rfl⟩)
  | unsolved hnode err scoring hnot =>
    exact h.snoc hpop (fun d hd => .inl hd) (.inr (hopen.objective_le_bound hall hnode hnot))
  | unbranched hasked hoptimal hlearns infeasibility err last =>
    exact h.snoc hpop (fun d hd => .inl hd)
      (.inr (hopen.objective_le_bound hall hasked.get? hasked.not_closed))
  | unreported hvisits => exact descending_visits hselection hall h hpop hopen hvisits hfalls

/-! ## Runs -/

/-- Along a run whose last tree falls, all trees fall, and the nodes taken up are in order. -/
theorem descending_advance (hselection : ctx.settings.selection = .bestFirst)
    (hall : ctx.settings.enumerateAll = false) (n : ℕ)
    (hfalls : ((Phase.running s).advance ctx n).state.tree.Falls) (hhangs : Hangs s.core) :
    s.tree.Falls ∧ ∀ done, Descending done s.core →
      Descending (done ++ rounds ctx n s) ((Phase.running s).advance ctx n).state.core := by
  induction n generalizing s with
  | zero =>
    refine ⟨hfalls, fun done hdone => ?_⟩
    rw [rounds, List.append_nil]
    exact hdone
  | succ n ih =>
    rw [Phase.advance] at hfalls ⊢
    cases hstep : step ctx s with
    | running u =>
      rw [hstep] at hfalls
      obtain ⟨e, rest, htake⟩ := takes_of_step_running hstep
      obtain ⟨hrest, hopen⟩ := hhangs.pop htake.pop?
      have hvisits := visits_of_runs_visit htake.visit
      have hnext : Hangs u.core :=
        ⟨hvisits.visited.numbered hrest, openIn_visited hall hopen hvisits.visited⟩
      obtain ⟨hu, hlater⟩ := ih hfalls hnext
      refine ⟨falls_of_visited hopen hvisits.visited hu, fun done hdone => ?_⟩
      rw [rounds_of_running hstep htake.pop?, List.append_cons]
      exact hlater _ (descending_visits (s := { s with frontier := rest }) hselection hall hdone
        htake.pop? hopen hvisits hu)
    | ended result u =>
      rw [hstep, Phase.advance_ended] at hfalls
      rw [Phase.advance_ended]
      cases result with
      | ok status =>
        obtain ⟨rfl, -⟩ := stopped_of_step_ended hstep
        refine ⟨hfalls, fun done hdone => ?_⟩
        rw [rounds_of_stopped hstep, List.append_nil]
        exact hdone
      | error err =>
        obtain ⟨e, rest, hpop, hfails⟩ := fails_of_step_ended hstep
        obtain ⟨-, hopen⟩ := hhangs.pop hpop
        have hbreaks := breaks_of_fails_visit hfails
        refine ⟨falls_of_breaks (s := { s with frontier := rest }) hopen hbreaks hfalls,
          fun done hdone => ?_⟩
        rw [rounds_of_failed hstep hpop]
        exact descending_breaks (s := { s with frontier := rest }) hselection hall hdone hpop hopen
          hbreaks hfalls

/-- Best-first search wastes no relaxation. Where no node is worth more than the node above it, the
bounds that the nodes taken up had inherited never rise, and each node that was solved had inherited
at least the objective of the incumbent that the search ends with, for whatever reason it ends, be
it an error. That is the objective of the solution, where there is one. -/
theorem best_first_wastes_nothing {backend : σ} {out : Outcome σ α}
    (hsolve : solveWith ctx backend = .ok out)
    (hselection : ctx.settings.selection = .bestFirst)
    (hall : ctx.settings.enumerateAll = false) (hfalls : out.state.tree.Falls) :
    (rounds ctx (stepBound ctx.settings) (initial ctx backend)).Pairwise
        (fun r q => q.entry.bound ≤ r.entry.bound) ∧
      ∀ r ∈ rounds ctx (stepBound ctx.settings) (initial ctx backend), r.Solved →
        out.state.incumbent.objective ≤ r.entry.bound ∧
          ∀ sol, out.result = .ok sol → sol.objective ≤ r.entry.bound := by
  obtain ⟨-, rfl⟩ := search_of_solveWith hsolve
  have hcore : (search ctx backend).state.core = ((Phase.running (initial ctx backend)).advance ctx
      (stepBound ctx.settings)).state.core := congrArg Ledger.toCore (ledger_search ctx backend)
  have htree : (search ctx backend).state.tree = _ := congrArg Core.tree hcore
  rw [htree] at hfalls
  obtain ⟨-, hdescending⟩ :=
    descending_advance hselection hall _ hfalls (hangs_initial ctx backend)
  have hend := hdescending [] (descending_initial ctx backend)
  rw [List.nil_append, ← hcore] at hend
  refine ⟨hend.sorted, fun r hr hsolved => ⟨hend.worth r hr hsolved, fun sol hok => ?_⟩⟩
  rw [objective_of_search hok]
  exact hend.worth r hr hsolved

end Descending

/-- The search for the largest whole number whose double is at most three, best first. -/
def bestFirstContext : Context Unit ExtRat :=
  { doubledContext 3 with settings := Settings.standard.generalInteger.withSelection .bestFirst }

/-- The same search by the backend that fails in the end. -/
def bestFirstFaltering : Context ℕ ExtRat :=
  { falteringContext 3 with settings := Settings.standard.generalInteger.withSelection .bestFirst }

/-- Best first, both children of the root are taken up with its value as their bound, which is above
the optimum; and where the backend fails at the first child, so is that child. -/
theorem best_first_wastes_nothing_doubled :
    (∃ out sol, solveWith bestFirstContext () = .ok out ∧ out.result = .ok sol ∧
      sol.status = .optimal ∧ sol.objective = 1 ∧
      (rounds bestFirstContext (stepBound bestFirstContext.settings)
          (initial bestFirstContext ())).map (fun r => (r.entry.node, r.entry.bound))
        = [(0, .posInf), (1, .fin (3 / 2)), (2, .fin (3 / 2))] ∧
      ∀ r ∈ rounds bestFirstContext (stepBound bestFirstContext.settings)
          (initial bestFirstContext ()), r.Solved → sol.objective ≤ r.entry.bound) ∧
    ∃ out, solveWith bestFirstFaltering 1 = .ok out ∧ out.result.toOption.isNone = true ∧
      (rounds bestFirstFaltering (stepBound bestFirstFaltering.settings)
          (initial bestFirstFaltering 1)).map (fun r => (r.entry.node, r.entry.bound))
        = [(0, .posInf), (1, .fin (3 / 2))] ∧
      ∀ r ∈ rounds bestFirstFaltering (stepBound bestFirstFaltering.settings)
          (initial bestFirstFaltering 1), r.Solved →
        out.state.incumbent.objective ≤ r.entry.bound := by
  have hsolve : solveWith bestFirstContext () = .ok (search bestFirstContext ()) := by
    with_unfolding_all rfl
  have hsolve' : solveWith bestFirstFaltering 1 = .ok (search bestFirstFaltering 1) := by
    with_unfolding_all rfl
  have hrun : (search bestFirstContext ()).result.toOption.map
      (fun sol => (sol.status, sol.objective)) = some (.optimal, 1) := by
    decide +kernel
  have hfalls : (search bestFirstContext ()).state.tree.Falls := by
    decide +kernel
  have hfalls' : (search bestFirstFaltering 1).state.tree.Falls := by
    decide +kernel
  obtain ⟨sol, hok, hread⟩ := exists_ok_of_toOption_map hrun
  obtain ⟨hstatus, hobjective⟩ := Prod.mk.inj hread
  obtain ⟨-, hworth⟩ := best_first_wastes_nothing hsolve rfl rfl hfalls
  obtain ⟨-, hworth'⟩ := best_first_wastes_nothing hsolve' rfl rfl hfalls'
  refine ⟨⟨_, sol, hsolve, hok, hstatus, hobjective, by decide +kernel, fun r hr hsolved => ?_⟩,
    ⟨_, hsolve', by decide +kernel, by decide +kernel, fun r hr hsolved => ?_⟩⟩
  · exact (hworth r hr hsolved).2 sol hok
  · exact (hworth' r hr hsolved).1

end Search

end BranchBound
