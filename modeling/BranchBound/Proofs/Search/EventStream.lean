import BranchBound.Proofs.Search.Conservation

/-!
# The events tell the tree

Whoever follows the events of a search knows its tree: each event changes the tree by a rule of its
own, and the tree after all of them is the tree of the search, whether it ended well or failed.
Events come in an order that makes sense: a node is created once, in the order of the numbers, and
below a node that is known to be branched on; it is updated at most once; and an incumbent is told
right after the node it was found at.

* `Tree.tell`: the tree after an event.
* `Follows`: what must have been told before an event.
* `Told`, `Told.update`, `Told.create`, `Told.offer`: what the events so far say about the tree.
* `events_tell_tree`: it is all true at the end of every search.
-/

namespace BranchBound

namespace Search

variable {σ α : Type}

namespace Event

/-- The node that an event creates. -/
def created? : Event α → Option ℕ
  | .created id _ _ _ => some id
  | _ => none

/-- The node that an event updates. -/
def updated? : Event α → Option ℕ
  | .updated id _ _ _ => some id
  | _ => none

/-- The objective of the incumbent that an event tells about. -/
def objective? : Event α → Option α
  | .incumbent _ objective => some objective
  | _ => none

end Event

/-- What must have been told before an event. -/
def Follows (before : List (Event α)) : Event α → Prop
  | .created id none depth branch => before = [] ∧ id = 0 ∧ depth = 0 ∧ branch = none
  | .created id (some p) depth branch =>
    p < id ∧ (∃ bound infeasibility, .updated p .candidate bound infeasibility ∈ before) ∧
      (∃ q d c, .created p q d c ∈ before ∧ depth = d + 1) ∧ ∃ b, branch = some b
  | .updated id _ _ _ =>
    (∃ p d c, .created id p d c ∈ before) ∧ id ∉ before.filterMap Event.updated?
  | .incumbent id objective => before.getLast? = some (.updated id .integer objective none)

theorem filterMap_snoc_none {β γ : Type} {f : β → Option γ} {l : List β} {x : β}
    (hx : f x = none) : (l ++ [x]).filterMap f = l.filterMap f := by
  rw [List.filterMap_append, List.filterMap_cons_none hx, List.filterMap_nil, List.append_nil]

/-- What holds of every event holds still when one more is told. -/
theorem forall_snoc {β : Type} {Q : List β → β → Prop} {l : List β} {x : β}
    (h : ∀ before y after, l = before ++ y :: after → Q before y) (hx : Q l x) :
    ∀ before y after, l ++ [x] = before ++ y :: after → Q before y := by
  intro before y after heq
  rcases List.eq_nil_or_concat after with rfl | ⟨after, z, rfl⟩
  · obtain ⟨rfl, hlast⟩ := List.append_inj' heq rfl
    cases hlast
    exact hx
  · rw [List.concat_eq_append, ← List.cons_append, ← List.append_assoc] at heq
    exact h before y after (List.append_inj' heq rfl).1

end Search

/-! ## The tree after an event -/

open Search

variable {σ α : Type} [Scalar α]

/-- Bound of a node's parent; infinite where there is none. -/
def Tree.boundAbove (t : Tree α) (parent : Option ℕ) : α :=
  ((parent.bind t.get?).map Node.bound).getD Scalar.infinity

/-- The tree after an event. -/
def Tree.tell (t : Tree α) : Event α → Tree α
  | .created id parent depth branch =>
    ⟨t.nodes.push ⟨id, parent, depth, branch, t.boundAbove parent, .candidate, none⟩⟩
  | .updated id status bound infeasibility =>
    t.modify id fun node => { node with bound, status, infeasibility }
  | .incumbent _ _ => t

namespace Tree

variable {t u : Tree α} {id k p : ℕ} {node : Node α} {b : Branch α}

theorem boundAbove_of_get? (h : t.get? p = some node) : t.boundAbove (some p) = node.bound := by
  simp [boundAbove, h]

/-- A change of a node without children is not seen from below. -/
theorem boundAbove_modify {g : Node α → Node α} {parent : Option ℕ} (h : parent ≠ some id) :
    (t.modify id g).boundAbove parent = t.boundAbove parent := by
  cases parent with
  | none => rfl
  | some p =>
    have hne : id ≠ p := fun heq => h (congrArg some heq.symm)
    simp [boundAbove, get?_modify, hne]

theorem boundAbove_addChild? {parent : Option ℕ} (hnode : t.get? id = some node)
    (hu : t.addChild? id b = some u) (h : ∀ p, parent = some p → p < t.size) :
    u.boundAbove parent = t.boundAbove parent := by
  cases parent with
  | none => rfl
  | some p => simp [boundAbove, get?_addChild?_of_lt hnode hu (h p rfl)]

/-- A new child is what its creation tells. -/
theorem tell_created (hnode : t.get? id = some node) (hid : node.id = id)
    (hu : t.addChild? id b = some u) :
    t.tell (.created t.size (some id) (node.depth + 1) (some b)) = u := by
  simp only [addChild?, hnode, Option.map_some, Option.some.injEq] at hu
  rw [← hu]
  simp [tell, boundAbove_of_get? hnode, Node.child, hid]

end Tree

namespace Search

/-! ## What the events so far say -/

/-- What the events so far say about a tree and the objective of the incumbent. -/
structure Told (tree : Tree α) (events : List (Event α)) (objective : α) : Prop where
  /-- Followed one by one, the events lead to the tree. -/
  rebuilt : events.foldl Tree.tell Tree.empty = tree
  /-- Every event comes after what it rests on. -/
  follows : ∀ before event after, events = before ++ event :: after → Follows before event
  /-- Nodes are created in the order of their numbers. -/
  created : events.filterMap Event.created? = List.range tree.size
  /-- The place of a node is what its creation said. -/
  place : ∀ {id node}, tree.get? id = some node →
    .created id node.parent node.depth node.branch ∈ events
  /-- No node is updated twice. -/
  nodup_updated : (events.filterMap Event.updated?).Nodup
  /-- A node that was updated is as the update said. -/
  updated : ∀ {id status bound infeasibility}, .updated id status bound infeasibility ∈ events →
    ∃ node, tree.get? id = some node ∧ node.status = status ∧ node.bound = bound ∧
      node.infeasibility = infeasibility
  /-- A node that was not updated is a candidate with its parent's bound. -/
  untouched : ∀ {id node}, tree.get? id = some node → id ∉ events.filterMap Event.updated? →
    node.status = .candidate ∧ node.bound = tree.boundAbove node.parent ∧
      node.infeasibility = none
  /-- The last incumbent told is the incumbent. -/
  incumbent : (events.filterMap Event.objective?).getLast?.getD (-Scalar.infinity) = objective

theorem told_root : Told (Tree.empty.addRoot : Tree α) [.created 0 none 0 none] (-Scalar.infinity)
    where
  rebuilt := rfl
  follows before event after h := by
    cases before with
    | nil =>
      cases h
      exact ⟨rfl, rfl, rfl, rfl⟩
    | cons x before =>
      have hlength := congrArg List.length h
      simp at hlength
  created := rfl
  place {id node} hnode := by
    have hlt : id < 1 := Tree.get?_lt_size hnode
    obtain rfl : id = 0 := by omega
    cases hnode
    exact List.mem_singleton.mpr rfl
  nodup_updated := List.nodup_nil
  updated h := by
    cases List.mem_singleton.mp h
  untouched {id node} hnode _ := by
    have hlt : id < 1 := Tree.get?_lt_size hnode
    obtain rfl : id = 0 := by omega
    cases hnode
    exact ⟨rfl, rfl, rfl⟩
  incumbent := rfl

namespace Told

variable {tree tree' : Tree α} {events : List (Event α)} {objective : α} {id : ℕ} {node : Node α}

/-- A node without children is updated for the first time. -/
theorem update (h : Told tree events objective) (hnode : tree.get? id = some node)
    (hleaf : tree.children id = []) (hnew : id ∉ events.filterMap Event.updated?)
    (status : NodeStatus) (bound : α) (infeasibility : Option (Infeasibility α)) :
    Told (tree.modify id fun n => { n with bound, status, infeasibility })
      (events ++ [.updated id status bound infeasibility]) objective where
  rebuilt := by
    rw [List.foldl_append, h.rebuilt]
    rfl
  follows := by
    apply forall_snoc h.follows
    exact ⟨⟨_, _, _, h.place hnode⟩, hnew⟩
  created := by
    rw [Tree.size_modify, filterMap_snoc_none rfl]
    exact h.created
  place {k other} hk := by
    obtain ⟨before, hbefore, -, hparent, hdepth, hbranch⟩ :=
      Tree.exists_of_keepsPlace (keepsPlace_record bound status infeasibility) hk
    rw [hparent, hdepth, hbranch]
    exact List.mem_append_left _ (h.place hbefore)
  nodup_updated := by
    rw [List.filterMap_append]
    apply List.Nodup.append h.nodup_updated (List.nodup_singleton id)
    intro k hk hid
    cases List.mem_singleton.mp hid
    exact hnew hk
  updated {k status' bound' infeasibility'} hk := by
    rcases List.mem_append.mp hk with hk | hk
    · obtain ⟨other, hother, hsame⟩ := h.updated hk
      have hne : id ≠ k := by
        intro heq
        apply hnew
        rw [heq]
        exact List.mem_filterMap.mpr ⟨_, hk, rfl⟩
      refine ⟨other, ?_, hsame⟩
      rw [Tree.get?_modify, if_neg hne]
      exact hother
    · cases List.mem_singleton.mp hk
      refine ⟨{ node with bound, status, infeasibility }, ?_, rfl, rfl, rfl⟩
      rw [Tree.get?_modify, if_pos rfl, hnode]
      rfl
  untouched {k other} hk hnot := by
    rw [List.filterMap_append, List.mem_append, not_or] at hnot
    have hne : id ≠ k := fun heq => hnot.2 (List.mem_singleton.mpr heq.symm)
    rw [Tree.get?_modify, if_neg hne] at hk
    -- the node above is another one, since the updated node has no children
    rw [Tree.boundAbove_modify (Tree.parent_ne_of_leaf hleaf hk)]
    exact h.untouched hk hnot.1
  incumbent := by
    rw [filterMap_snoc_none rfl]
    exact h.incumbent

/-- A node that was branched on gets a child. -/
theorem create {b : Branch α} {bound : α} {infeasibility : Option (Infeasibility α)}
    (h : Told tree events objective) (hlinked : tree.Linked) (hnode : tree.get? id = some node)
    (hcandidate : .updated id .candidate bound infeasibility ∈ events)
    (hchild : tree.addChild? id b = some tree') :
    Told tree' (events ++ [.created tree.size (some id) (node.depth + 1) (some b)]) objective where
  rebuilt := by
    rw [List.foldl_append, h.rebuilt]
    exact Tree.tell_created hnode (hlinked.id_eq hnode) hchild
  follows := by
    apply forall_snoc h.follows
    exact ⟨Tree.get?_lt_size hnode, ⟨_, _, hcandidate⟩, ⟨_, _, _, h.place hnode, rfl⟩, b, rfl⟩
  created := by
    rw [Tree.size_addChild? hchild, List.range_succ, ← h.created, List.filterMap_append]
    rfl
  place {k other} hk := by
    rcases Tree.get?_addChild?_cases hnode hchild hk with ⟨rfl, rfl⟩ | ⟨-, hk⟩
    · apply List.mem_append_right
      exact List.mem_singleton.mpr (congrArg (fun p => Event.created tree.size (some p) _ _)
        (hlinked.id_eq hnode))
    · exact List.mem_append_left _ (h.place hk)
  nodup_updated := by
    rw [filterMap_snoc_none rfl]
    exact h.nodup_updated
  updated {k status bound infeasibility} hk := by
    rcases List.mem_append.mp hk with hk | hk
    · obtain ⟨other, hother, hsame⟩ := h.updated hk
      exact ⟨other, Tree.get?_addChild?_of_get? hnode hchild hother, hsame⟩
    · cases List.mem_singleton.mp hk
  untouched {k other} hk hnot := by
    rw [filterMap_snoc_none rfl] at hnot
    rcases Tree.get?_addChild?_cases hnode hchild hk with ⟨-, rfl⟩ | ⟨hlt, hk⟩
    · have habove : tree'.get? node.id = some node := by
        rw [hlinked.id_eq hnode]
        exact Tree.get?_addChild?_of_get? hnode hchild hnode
      exact ⟨rfl, (Tree.boundAbove_of_get? habove).symm, rfl⟩
    · have habove : ∀ p, other.parent = some p → p < tree.size := by
        intro p hp
        exact (hlinked.parent_lt hk hp).trans hlt
      rw [Tree.boundAbove_addChild? hnode hchild habove]
      exact h.untouched hk hnot
  incumbent := by
    rw [filterMap_snoc_none rfl]
    exact h.incumbent

/-- The point of an integer node becomes the incumbent. -/
theorem offer {relax : α} (h : Told tree (events ++ [.updated id .integer relax none]) objective) :
    Told tree (events ++ [.updated id .integer relax none] ++ [.incumbent id relax]) relax where
  rebuilt := by
    rw [List.foldl_append, h.rebuilt]
    rfl
  follows := by
    apply forall_snoc h.follows
    exact List.getLast?_concat
  created := by
    rw [filterMap_snoc_none rfl]
    exact h.created
  place hk := List.mem_append_left _ (h.place hk)
  nodup_updated := by
    rw [filterMap_snoc_none rfl]
    exact h.nodup_updated
  updated hk := by
    rcases List.mem_append.mp hk with hk | hk
    · exact h.updated hk
    · cases List.mem_singleton.mp hk
  untouched hk hnot := by
    rw [filterMap_snoc_none rfl] at hnot
    exact h.untouched hk hnot
  incumbent := by
    rw [List.filterMap_append]
    show (_ ++ [relax]).getLast?.getD _ = relax
    rw [List.getLast?_concat]
    rfl

end Told

/-! ## Along a run -/

/-- Between two nodes the events tell the tree, they update no open node, and an open node has the
bound that it will be pruned with, unless none is ever pruned. -/
structure Narrated (ctx : Context σ α) (taken : List (Entry α)) (s : Ledger α) : Prop where
  orderly : Orderly taken s
  told : Told s.tree s.events s.incumbent.objective
  updated_taken : ∀ id ∈ s.events.filterMap Event.updated?, id ∈ taken.map Entry.node
  bound_eq : ctx.settings.enumerateAll = false → ∀ d ∈ s.frontier.entries, ∀ node,
    s.tree.get? d.node = some node → node.bound = d.bound

section Turn

variable {ctx : Context σ α} {taken : List (Entry α)} {s t : Ledger α} {e : Entry α}

/-- A turn updates no node, or the one taken up. -/
theorem Turn.updated_cases (h : Turn ctx e s t) :
    t.events.filterMap Event.updated? = s.events.filterMap Event.updated? ∨
      t.events.filterMap Event.updated? = s.events.filterMap Event.updated? ++ [e.node] := by
  cases h with
  | unsolved hnode => exact .inl rfl
  | integer hnode x relax =>
    right
    unfold Ledger.offer
    split
    · simp [Ledger.tell, Ledger.enter, Event.updated?]
    · simp [Ledger.tell, Ledger.enter, Event.updated?]
  | _ =>
    right
    simp [Ledger.prune, Ledger.split, Ledger.tell, Ledger.enter, Event.updated?]

omit [Scalar α] in
/-- Pruning tells of a node that it is fathomed, with the bound it has. -/
theorem prune_eq_tell {node : Node α} (hnode : s.tree.get? e.node = some node)
    (hbound : node.bound = e.bound) (hinfeasibility : node.infeasibility = none) :
    (s.prune e.node e.bound).tree = (s.tell e.node .fathomed e.bound none).tree := by
  apply modify_congr hnode
  rw [← hbound, ← hinfeasibility]

/-- A turn tells what it does to the tree. -/
theorem Told.turn (h : Told s.tree s.events s.incumbent.objective) (hlinked : s.tree.Linked)
    (hleaf : s.tree.children e.node = []) (hnew : e.node ∉ s.events.filterMap Event.updated?)
    (hbound : ctx.settings.enumerateAll = false → ∀ node, s.tree.get? e.node = some node →
      node.bound = e.bound)
    (hturn : Turn ctx e s t) : Told t.tree t.events t.incumbent.objective := by
  cases hturn with
  | unsolved hnode => exact h
  | pruned hnode hclosed =>
    -- the event has the bound of the open node, and the tree keeps the node's own
    have hpruning : ctx.settings.enumerateAll = false := by
      simp only [Context.closedBy, Bool.and_eq_true, Bool.not_eq_true'] at hclosed
      exact hclosed.1
    obtain ⟨-, -, hinfeasibility⟩ := h.untouched hnode hnew
    rw [prune_eq_tell hnode (hbound hpruning _ hnode) hinfeasibility]
    exact h.update hnode hleaf hnew .fathomed e.bound none
  | infeasible hnode infeasibility => exact h.update hnode hleaf hnew .infeasible _ infeasibility
  | integer hnode x relax =>
    have hupdate := h.update hnode hleaf hnew .integer relax none
    unfold Ledger.offer
    split
    · rename_i himproved
      show Told _ _ (Incumbent.offer _ _ _).objective
      have hobjective : (s.incumbent.offer x relax).objective = relax := by
        unfold Incumbent.offer
        exact congrArg Incumbent.objective (if_pos himproved)
      exact hobjective.symm ▸ hupdate.offer
    · exact hupdate
  | childless hnode status relax infeasibility =>
    exact h.update hnode hleaf hnew status relax (some infeasibility)
  | @branched node hnode relax down up infeasibility c table tree tree' hpriorities hdown hup =>
    have hupdate := h.update hnode hleaf hnew .candidate relax (some infeasibility)
    have hkeeps := keepsPlace_record relax .candidate (some infeasibility)
    have hlinked' : (s.tree.modify e.node _).Linked := hlinked.modify hkeeps
    have hnode' := get?_recorded s.toCore e.node relax .candidate (some infeasibility) hnode
    -- the update that says so stands before both children
    have hfirst := hupdate.create hlinked' hnode'
      (List.mem_append_right _ (List.mem_singleton.mpr rfl)) hdown
    have hnode'' := Tree.get?_addChild?_of_get? hnode' hdown hnode'
    have hsecond := hfirst.create (hlinked'.addChild? hnode' hdown) hnode''
      (List.mem_append_left _ (List.mem_append_right _ (List.mem_singleton.mpr rfl))) hup
    rw [Tree.size_addChild? hdown] at hsecond
    simp only [List.append_assoc, List.cons_append, List.nil_append] at hsecond
    simp only [Ledger.split, Ledger.tell, Ledger.enter, List.append_assoc, List.cons_append,
      List.nil_append]
    exact hsecond

/-- The open nodes keep the bounds that they will be pruned with. -/
theorem bound_eq_of_turn (hplaced : Placed (taken ++ [e]) s.tree s.frontier)
    (hbound : ∀ d ∈ s.frontier.entries, ∀ node, s.tree.get? d.node = some node →
      node.bound = d.bound)
    (hpruning : ctx.settings.enumerateAll = false) (hturn : Turn ctx e s t) :
    ∀ d ∈ t.frontier.entries, ∀ node, t.tree.get? d.node = some node → node.bound = d.bound := by
  -- a turn that adds no node changes the node taken up alone
  have hmodify : ∀ {g : Node α → Node α}, ∀ d ∈ s.frontier.entries, ∀ node,
      (s.tree.modify e.node g).get? d.node = some node → node.bound = d.bound := by
    intro g d hd node hnode
    rw [Tree.get?_modify, if_neg (hplaced.ne_of_mem hd).symm] at hnode
    exact hbound d hd node hnode
  cases hturn with
  | unsolved hnode => exact hbound
  | integer hnode x relax =>
    obtain ⟨htree, hfrontier, -⟩ := place_offer ((s.enter _).tell e.node .integer relax none)
      e.node x relax
    rw [htree, hfrontier]
    exact hmodify
  | @branched node hnode relax down up infeasibility c table tree tree' hpriorities hdown hup =>
    have hnode' := get?_recorded s.toCore e.node relax .candidate (some infeasibility) hnode
    have hrelax := childBound_eq hpruning s.incumbent.objective relax
    intro d hd child hchild
    simp only [Ledger.split, Frontier.push, List.mem_append, List.mem_singleton] at hd hchild
    obtain ⟨⟨below, hbelow, hbelow'⟩, above, habove, habove'⟩ :=
      Tree.exists_children hnode' hdown hup
    rcases hd with (hd | rfl) | rfl
    · have hlt : d.node
          < (recorded s.toCore e.node relax .candidate (some infeasibility)).size := by
        rw [size_recorded]
        exact hplaced.lt_size hd
      rw [Tree.get?_children_of_lt hnode' hdown hup hlt] at hchild
      exact hmodify d hd child hchild
    · cases hchild.symm.trans hbelow
      exact hbelow'.trans hrelax.symm
    · cases hchild.symm.trans habove
      exact habove'.trans hrelax.symm
  | _ => exact hmodify

theorem Narrated.turn {rest : Frontier α} (h : Narrated ctx taken s)
    (hpop : s.frontier.pop? = some (e, rest))
    (hturn : Turn ctx e { s with frontier := rest } t) : Narrated ctx (taken ++ [e]) t := by
  obtain ⟨hplaced, hfresh⟩ := h.orderly.placed.pop hpop
  obtain ⟨he, -⟩ := Frontier.pop?_eq_some hpop
  obtain ⟨-, hmem⟩ := h.orderly.placed.numbered.pop? hpop
  have hnew : e.node ∉ s.events.filterMap Event.updated? := by
    intro hupdated
    exact h.orderly.placed.not_mem_taken he (h.updated_taken _ hupdated)
  refine ⟨h.orderly.turn hpop hturn, ?_, ?_, ?_⟩
  · exact Told.turn (s := { s with frontier := rest }) h.told h.orderly.placed.linked hfresh.2 hnew
      (fun hpruning => h.bound_eq hpruning e he) hturn
  · intro id hid
    rw [List.map_append, List.mem_append]
    rcases hturn.updated_cases with hevents | hevents
    · rw [hevents] at hid
      exact .inl (h.updated_taken id hid)
    · rw [hevents, List.mem_append] at hid
      exact hid.imp_left (h.updated_taken id)
  · intro hpruning
    apply bound_eq_of_turn (s := { s with frontier := rest }) hplaced _ hpruning hturn
    intro d hd
    exact h.bound_eq hpruning d ((hmem d).mpr (List.mem_cons_of_mem e hd))

end Turn

theorem narrated_initial (ctx : Context σ α) (backend : σ) :
    Narrated ctx [] (initial ctx backend).ledger where
  orderly := orderly_initial ctx backend
  told := told_root
  updated_taken id hid := by cases hid
  bound_eq _ d hd node hnode := by
    cases List.mem_singleton.mp hd
    cases hnode
    rfl

theorem narrated_of_run (ctx : Context σ α) (backend : σ) (n : ℕ) :
    Narrated ctx (takenUp ctx n (initial ctx backend))
      ((Phase.running (initial ctx backend)).advance ctx n).state.ledger :=
  holds_of_turns (P := Narrated ctx) (fun h => h.orderly.exists_node) Narrated.turn n
    (narrated_initial ctx backend)

/-- However a search ends, its events tell its tree and its incumbent. -/
theorem events_tell_tree (ctx : Context σ α) (backend : σ) :
    Told (search ctx backend).state.tree (search ctx backend).state.events.toList
      (search ctx backend).state.incumbent.objective := by
  have hnarrated := narrated_of_run ctx backend (stepBound ctx.settings)
  rw [← ledger_search] at hnarrated
  exact hnarrated.told

end Search

end BranchBound
