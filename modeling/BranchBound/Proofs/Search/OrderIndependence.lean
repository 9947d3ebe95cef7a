import BranchBound.Proofs.Search.Bound
import BranchBound.Proofs.Search.FullTree

/-!
# The objective does not depend on the order

Two searches of one problem that differ in the order of the nodes, in pruning, in limits or in what
they report, and that both come to an end, find the same objective. Each of them is compared with
the full tree: what the incumbent has was found there, and what is still to be found lies below an
open node.

* `Backend.Answers`: answers that depend on the box alone.
* `Outline.Covers`: an open node below which a value of the full tree is still to be found.
* `Outline.Explored`: how the state of a search relates to the full tree.
* `explored_visits`: a visit keeps it, whichever of its ways it ends in.
* `same_objective`: two searches that end have the same status and objective.
-/

namespace BranchBound

open Relaxation Search

variable {σ α : Type} [Scalar α]

/-- The relaxation in a box is always answered, and always in the same way. -/
def Relaxation.Backend.Answers (B : Backend σ α) (p : Problem α) (answer : Box α → Answer α) :
    Prop :=
  ∀ box s, (B.solve p box none s).1.outcome = .ok (answer box)

/-- The full tree of a search. -/
def Search.Context.outline (ctx : Context σ α) (answer : Box α → Answer α) : Outline α where
  problem := ctx.problem
  integralityTol := ctx.settings.integralityTol
  rule := ctx.settings.rule
  tooDeep := ctx.tooDeep
  root := ctx.rootBox
  answer := answer

theorem Search.Asked.answer_eq {ctx : Context σ α} {id : ℕ} {s : State σ α} {node : Node α}
    {box : Box α} {a : Answer α} {scoring : Scoring σ α} {answer : Box α → Answer α}
    (h : Asked ctx id s node box a scoring) (hanswers : ctx.backend.Answers ctx.problem answer) :
    a = answer box := by
  have houtcome := outcome_of_runs_solveNode h.ask
  exact Except.ok.inj (houtcome.symm.trans (hanswers box _))

namespace Outline

/-! ## Open nodes in the full tree -/

/-- A node below whose place a value is still to be found; its bound is no smaller. -/
def Covers (o : Outline α) (tree : Tree α) (id : ℕ) (v : α) : Prop :=
  ∃ node bs box, tree.get? id = some node ∧ tree.Path id bs ∧ o.root.replay? bs = some box ∧
    o.Leads ⟨bs.length, box⟩ v ∧ v ≤ node.bound

/-- A node whose box, if it has one, is at a place of the full tree. -/
def Places (o : Outline α) (tree : Tree α) (id : ℕ) : Prop :=
  ∃ bs, tree.Path id bs ∧
    ∀ box, o.root.replay? bs = some box → o.Below o.start ⟨bs.length, box⟩

/-- What is true of a search, where the given entries are those still to be dealt with. -/
structure Explored (o : Outline α) (entries : List (Entry α)) (s : Core α) : Prop where
  numbered : s.frontier.Numbered
  places : ∀ e ∈ entries, o.Places s.tree e.node
  covered : ∀ v, o.Leads o.start v →
    v ≤ s.incumbent.objective ∨ ∃ e ∈ entries, o.Covers s.tree e.node v
  found : s.incumbent.objective = -Scalar.infinity ∨ o.Leads o.start s.incumbent.objective
  hasPoint_iff : s.incumbent.hasPoint = true ↔ -Scalar.infinity < s.incumbent.objective

variable {o : Outline α} {tree tree' : Tree α} {id k : ℕ} {v : α} {g : Node α → Node α}

theorem Places.of_extends (h : o.Places tree k) (hext : tree.Extends tree') :
    o.Places tree' k := by
  obtain ⟨bs, hpath, hbelow⟩ := h
  exact ⟨bs, hpath.mono hext, hbelow⟩

/-- What is to be found below a node is to be found below its place, however the tree grew. -/
theorem Places.leads (h : o.Places tree k) (hext : tree.Extends tree')
    (hcovers : o.Covers tree' k v) :
    ∃ bs box, tree.Path k bs ∧ o.root.replay? bs = some box ∧ o.Leads ⟨bs.length, box⟩ v := by
  obtain ⟨bs, hpath, -⟩ := h
  obtain ⟨_, _, box, -, hpath', hbox, hleads, -⟩ := hcovers
  cases (hpath.mono hext).unique hpath'
  exact ⟨bs, box, hpath, hbox, hleads⟩

/-- A change to a node keeps what is to be found below the others, and below the node itself if its
bound is not lowered too far. -/
theorem Covers.modify (h : o.Covers tree k v)
    (hg : ∀ node, (g node).id = node.id ∧ (g node).parent = node.parent ∧
      (g node).depth = node.depth ∧ (g node).branch = node.branch)
    (hbound : ∀ node bs box, tree.get? id = some node → tree.Path id bs →
      o.root.replay? bs = some box → o.Leads ⟨bs.length, box⟩ v → v ≤ node.bound →
      v ≤ (g node).bound) : o.Covers (tree.modify id g) k v := by
  obtain ⟨node, bs, box, hnode, hpath, hbox, hleads, hle⟩ := h
  have hpath' := hpath.mono (@Tree.extends_modify _ _ id g hg)
  by_cases hid : id = k
  · subst hid
    refine ⟨g node, bs, box, ?_, hpath', hbox, hleads, ?_⟩
    · rw [Tree.get?_modify, if_pos rfl, hnode, Option.map_some]
    · exact hbound node bs box hnode hpath hbox hleads hle
  · refine ⟨node, bs, box, ?_, hpath', hbox, hleads, hle⟩
    rw [Tree.get?_modify, if_neg hid, hnode]

theorem Covers.addChild? {b : Branch α} (h : o.Covers tree k v)
    (hchild : tree.addChild? id b = some tree') : o.Covers tree' k v := by
  obtain ⟨node, bs, box, hnode, hpath, hrest⟩ := h
  obtain ⟨above, habove, -⟩ := Option.map_eq_some_iff.mp hchild
  refine ⟨node, bs, box, ?_, hpath.mono (Tree.extends_addChild? hchild), hrest⟩
  rw [Tree.get?_addChild? habove hchild, if_neg (Nat.ne_of_lt (Tree.get?_lt_size hnode))]
  exact hnode

section Children

variable [LinearScalar α] {b : Branch α} {bs : List (Branch α)} {box : Box α}

/-- A new child has a place below that of its parent. -/
theorem places_child (hpath : tree.Path k (b :: bs)) (hbox : o.root.replay? bs = some box)
    (hbelow : o.Below o.start ⟨bs.length, box⟩)
    (hchild : ∀ box', b.restrict? box = some box' →
      o.Child ⟨bs.length, box⟩ ⟨bs.length + 1, box'⟩) : o.Places tree k := by
  refine ⟨b :: bs, hpath, fun box' hbox' => ?_⟩
  rw [Box.replay?_cons, hbox] at hbox'
  exact Relation.ReflTransGen.tail hbelow (hchild box' hbox')

theorem covers_child {node : Node α} {box' : Box α} (hnode : tree.get? k = some node)
    (hpath : tree.Path k (b :: bs)) (hbox : o.root.replay? bs = some box)
    (hbox' : b.restrict? box = some box') (hleads : o.Leads ⟨bs.length + 1, box'⟩ v)
    (hle : v ≤ node.bound) : o.Covers tree k v := by
  refine ⟨node, b :: bs, box', hnode, hpath, ?_, hleads, hle⟩
  rw [Box.replay?_cons, hbox]
  exact hbox'

end Children

/-! ## Parts of a visit -/

namespace Explored

variable {entries : List (Entry α)} {e : Entry α} {s : Core α}

/-- Taking a node out leaves it to be dealt with next to the open ones. -/
theorem pop (h : o.Explored s.frontier.entries s) {rest : Frontier α}
    (hpop : s.frontier.pop? = some (e, rest)) :
    o.Explored (e :: rest.entries) ⟨s.tree, rest, s.incumbent⟩ := by
  obtain ⟨hrest, hmem⟩ := h.numbered.pop? hpop
  refine ⟨hrest, fun d hd => h.places d ((hmem d).mpr hd), fun v hv => ?_, h.found, h.hasPoint_iff⟩
  rcases h.covered v hv with hle | ⟨d, hd, hcovers⟩
  · exact .inl hle
  · exact .inr ⟨d, (hmem d).mp hd, hcovers⟩

/-- The tree may change in a way that keeps paths and what is covered. -/
theorem of_tree (h : o.Explored entries s) (hext : s.tree.Extends tree)
    (hkeep : ∀ k v, o.Covers s.tree k v → o.Covers tree k v) :
    o.Explored entries ⟨tree, s.frontier, s.incumbent⟩ := by
  refine ⟨h.numbered, fun d hd => (h.places d hd).of_extends hext, fun v hv => ?_, h.found,
    h.hasPoint_iff⟩
  rcases h.covered v hv with hle | ⟨d, hd, hcovers⟩
  · exact .inl hle
  · exact .inr ⟨d, hd, hkeep d.node v hcovers⟩

/-- A node is dealt with once everything below it is found or below another node. -/
theorem of_cons (h : o.Explored (e :: entries) s)
    (hdone : ∀ v, o.Covers s.tree e.node v →
      v ≤ s.incumbent.objective ∨ ∃ d ∈ entries, o.Covers s.tree d.node v) :
    o.Explored entries s := by
  refine ⟨h.numbered, fun d hd => h.places d (List.mem_cons_of_mem e hd), fun v hv => ?_, h.found,
    h.hasPoint_iff⟩
  rcases h.covered v hv with hle | ⟨d, hd, hcovers⟩
  · exact .inl hle
  · rcases List.mem_cons.mp hd with rfl | hd
    · exact hdone v hcovers
    · exact .inr ⟨d, hd, hcovers⟩

/-- Another node with a place in the full tree is open. -/
theorem of_push (h : o.Explored entries s) (hplaces : o.Places s.tree id) (priority bound : α) :
    o.Explored (entries ++ [⟨id, priority, s.frontier.added, bound⟩])
      ⟨s.tree, s.frontier.push id priority bound, s.incumbent⟩ := by
  refine ⟨h.numbered.push id priority bound, fun d hd => ?_, fun v hv => ?_, h.found,
    h.hasPoint_iff⟩
  · rcases List.mem_append.mp hd with hd | hd
    · exact h.places d hd
    · rw [List.mem_singleton.mp hd]
      exact hplaces
  · rcases h.covered v hv with hle | ⟨d, hd, hcovers⟩
    · exact .inl hle
    · exact .inr ⟨d, List.mem_append_left _ hd, hcovers⟩

variable [LinearScalar α]

/-- An integer optimum of the full tree may become the incumbent. -/
theorem of_offer (h : o.Explored entries s) (x : List α) {objective : α}
    (hleads : o.Leads o.start objective) :
    o.Explored entries ⟨s.tree, s.frontier, s.incumbent.offer x objective⟩ := by
  by_cases hbetter : s.incumbent.objective < objective
  · have hoffer : s.incumbent.offer x objective = ⟨some x, objective⟩ :=
      if_pos (decide_eq_true hbetter)
    rw [hoffer]
    refine ⟨h.numbered, h.places, fun v hv => ?_, .inr hleads, ?_⟩
    · rcases h.covered v hv with hle | hcovers
      · exact .inl (le_trans hle (le_of_lt hbetter))
      · exact .inr hcovers
    · have hlt : -Scalar.infinity < objective :=
        lt_of_le_of_lt (LinearScalar.neg_infinity_le _) hbetter
      exact ⟨fun _ => hlt, fun _ => rfl⟩
  · have hoffer : s.incumbent.offer x objective = s.incumbent :=
      if_neg (by rw [Incumbent.improvedBy, decide_eq_true_iff]; exact hbetter)
    rw [hoffer]
    exact h

end Explored

end Outline

/-! ## Visits -/

namespace Search

variable [LinearScalar α] {ctx : Context σ α} {answer : Box α → Answer α} {s t : State σ α}
  {e : Entry α} {entries : List (Entry α)} {node : Node α} {box : Box α} {a : Answer α}
  {scoring : Scoring σ α}

omit [LinearScalar α] in
/-- The answer to the relaxation of a node is the one at its place. -/
theorem Asked.answer_at (h : Asked ctx e.node s node box a scoring)
    (hanswers : ctx.backend.Answers ctx.problem answer) {bs : List (Branch α)}
    (hpath : s.tree.Path e.node bs) {box' : Box α} (hbox : ctx.rootBox.replay? bs = some box') :
    box = box' ∧ answer box' = a := by
  have hsame : box = box' := by
    have hbox' := h.box?
    rw [hpath.box?_eq h.get?, hbox] at hbox'
    exact (Option.some.inj hbox').symm
  rw [← hsame]
  exact ⟨rfl, (h.answer_eq hanswers).symm⟩

/-- Recording the optimum of a node keeps what is to be found. -/
theorem explored_record (h : (ctx.outline answer).Explored entries s.core)
    (hasked : Asked ctx e.node s node box a scoring)
    (hanswers : ctx.backend.Answers ctx.problem answer) (hmono : Outline.Monotone answer)
    (status : NodeStatus) (infeasibility : Option (Infeasibility α)) :
    (ctx.outline answer).Explored entries
      ⟨recorded s.core e.node a.objective status infeasibility, s.frontier, s.incumbent⟩ := by
  refine h.of_tree (extends_recorded _ _ _ _ _) fun k v hcovers => ?_
  refine hcovers.modify (fun _ => ⟨rfl, rfl, rfl, rfl⟩) fun _ bs box' _ hpath hbox hleads _ => ?_
  show v ≤ a.objective
  rw [← (hasked.answer_at hanswers hpath hbox).2]
  exact hleads.le hmono

/-- The two children of a node are the children of its place. -/
theorem explored_branched (h : (ctx.outline answer).Explored (e :: s.frontier.entries) s.core)
    (hasked : Asked ctx e.node s node box a scoring)
    (hanswers : ctx.backend.Answers ctx.problem answer) (hmono : Outline.Monotone answer)
    (hoptimal : a.isOptimal = true)
    (hinteger : ctx.problem.integerFeasible? a.x ctx.settings.integralityTol = some false)
    (hdepth : ctx.tooDeep node.depth = false) {fs : List (ℕ × α)} {c : Candidate α}
    (hfs : ctx.problem.fractional? a.x = some fs) (hc : ctx.settings.rule.pick? fs = some c)
    {infeasibility : Option (Infeasibility α)} {tree tree' : Tree α}
    (hdown : (recorded s.core e.node a.objective .candidate infeasibility).addChild? e.node c.down
      = some tree)
    (hup : tree.addChild? e.node c.up = some tree') (down up bound : α) :
    (ctx.outline answer).Explored
      ((s.frontier.push s.tree.size down bound).push tree.size up bound).entries
      ⟨tree', (s.frontier.push s.tree.size down bound).push tree.size up bound, s.incumbent⟩ := by
  obtain ⟨bs, hpath, hbelow⟩ := h.places e List.mem_cons_self
  have hbox : ctx.rootBox.replay? bs = some box := by
    rw [← hpath.box?_eq hasked.get?]
    exact hasked.box?
  obtain ⟨-, rfl⟩ := hasked.answer_at hanswers hpath hbox
  rw [← hpath.length_eq hasked.get?] at hdepth
  -- the two newest nodes, under the node that was just recorded
  have hrecorded := extends_recorded s.core e.node (answer box).objective .candidate infeasibility
  have hparent : (recorded s.core e.node (answer box).objective .candidate infeasibility).get?
      e.node = some { node with
        bound := (answer box).objective
        status := .candidate
        infeasibility } := by
    rw [recorded, Tree.get?_modify, if_pos rfl]
    exact congrArg (Option.map _) hasked.get?
  obtain ⟨hpathDown, hpathUp⟩ := (hpath.mono hrecorded).children hparent hdown hup
  obtain ⟨⟨childDown, hnodeDown, hboundDown⟩, childUp, hnodeUp, hboundUp⟩ :=
    Tree.exists_children hparent hdown hup
  rw [← Tree.size_addChild? hdown] at hpathUp hnodeUp
  rw [recorded, Tree.size_modify] at hpathDown hnodeDown
  have hchild (q : Place α) := Outline.child_iff (o := ctx.outline answer) (p := ⟨bs.length, box⟩)
    (q := q) hoptimal hinteger hdepth hfs hc
  have hplaces : ∀ {b k}, tree'.Path k (b :: bs) → b = c.down ∨ b = c.up →
      (ctx.outline answer).Places tree' k := fun hpath hb =>
    Outline.places_child hpath hbox (hbelow box hbox) fun box' hbox' =>
      (hchild _).mpr ⟨_, box', hb, hbox', rfl⟩
  -- both children are added first, then both are opened, and only then the parent is given up
  have htree := ((explored_record h hasked hanswers hmono .candidate infeasibility).of_tree
    (Tree.extends_addChild? hdown) fun _ _ hk => hk.addChild? hdown).of_tree
    (Tree.extends_addChild? hup) fun _ _ hk => hk.addChild? hup
  have hopened := (htree.of_push (hplaces hpathDown (.inl rfl)) down bound).of_push
    (hplaces hpathUp (.inr rfl)) up bound
  refine Outline.Explored.of_cons hopened fun v hcovers => .inr ?_
  obtain ⟨_, _, hpath', hbox', hleads⟩ := (h.places e List.mem_cons_self).leads
    ((hrecorded.trans (Tree.extends_addChild? hdown)).trans (Tree.extends_addChild? hup)) hcovers
  cases hpath.unique hpath'
  cases hbox.symm.trans hbox'
  have hle : v ≤ (answer box).objective := hleads.le hmono
  rcases hleads.cases with ⟨⟨-, htrue⟩, -⟩ | ⟨q, hq, hleads⟩
  · cases hinteger.symm.trans htrue
  · obtain ⟨b, box', rfl | rfl, hbox', rfl⟩ := (hchild q).mp hq
    · refine ⟨_, List.mem_append_left _ (List.mem_append_right _ List.mem_cons_self), ?_⟩
      exact Outline.covers_child hnodeDown hpathDown hbox hbox' hleads
        (hle.trans_eq hboundDown.symm)
    · refine ⟨_, List.mem_append_right _ List.mem_cons_self, ?_⟩
      exact Outline.covers_child hnodeUp hpathUp hbox hbox' hleads
        (hle.trans_eq hboundUp.symm)

omit [LinearScalar α] in
theorem Asked.rule_eq {id : ℕ} (h : Asked ctx id s node box a scoring) :
    scoring.rule = s.scoring.rule := by
  rw [Scoring.eq_of_runs_ask h.ask]

omit [LinearScalar α] in
theorem Learns.rule_eq {relax : α} {learned : Scoring σ α}
    (h : Learns node relax scoring learned) : learned.rule = scoring.rule := by
  unfold Learns at h
  split at h
  · rw [h]
  · rw [Scoring.eq_of_runs_learn h]

omit [LinearScalar α] in
/-- A rule without solves of its own stays in effect. -/
theorem Visits.rule_eq {id : ℕ} {inherited : α} (h : Visits ctx id inherited s t)
    (hrule : s.scoring.rule.usesResolves = false) : t.scoring.rule = s.scoring.rule := by
  cases h with
  | pruned hnode hclosed => rfl
  | infeasible hasked hnot journal => exact hasked.rule_eq
  | integer hasked hoptimal hlearns hinteger journal =>
    refine Eq.trans ?_ (hlearns.rule_eq.trans hasked.rule_eq)
    unfold State.offer
    split <;> rfl
  | fathomed hasked hoptimal hlearns hinteger hclosed hinfeasibility journal =>
    exact hlearns.rule_eq.trans hasked.rule_eq
  | branched hasked hoptimal hlearns hinteger hopen hdepth hinfeasibility hselect hpriorities hdown
      hup journal =>
    have hlearned := hlearns.rule_eq.trans hasked.rule_eq
    have hchosen := Scoring.eq_of_runs_select (by rw [← hlearned] at hrule; exact hrule) hselect
    obtain ⟨tree, -, rfl⟩ := Option.map_eq_some_iff.mp hdown
    obtain ⟨tree', -, rfl⟩ := Option.map_eq_some_iff.mp hup
    exact (congrArg Scoring.rule hchosen).trans hlearned

/-- A visit keeps the relation to the full tree, whichever of its ways it ends in. -/
theorem explored_visits {inherited : α}
    (h : (ctx.outline answer).Explored (e :: s.frontier.entries) s.core)
    (hanswers : ctx.backend.Answers ctx.problem answer) (hmono : Outline.Monotone answer)
    (hfree : ctx.settings.rule.HistoryFree) (hrule : s.scoring.rule = ctx.settings.rule)
    (hvisits : Visits ctx e.node inherited s t) :
    (ctx.outline answer).Explored t.core.frontier.entries t.core := by
  have hplaces := h.places e List.mem_cons_self
  cases hvisits with
  | pruned hnode hclosed =>
    refine (h.of_cons fun v hcovers => .inl ?_).of_tree
      (Tree.extends_modify fun _ => ⟨rfl, rfl, rfl, rfl⟩) fun k v hcovers =>
        hcovers.modify (fun _ => ⟨rfl, rfl, rfl, rfl⟩) fun _ _ _ _ _ _ _ hle => hle
    obtain ⟨node, _, _, hnode', -, -, -, hle⟩ := hcovers
    cases hnode.symm.trans hnode'
    exact le_trans hle (le_of_closedBy hclosed)
  | infeasible hasked hnot journal =>
    refine (h.of_cons fun v hcovers => ?_).of_tree
      (Tree.extends_modify fun _ => ⟨rfl, rfl, rfl, rfl⟩) fun k v hcovers =>
        hcovers.modify (fun _ => ⟨rfl, rfl, rfl, rfl⟩) fun _ _ _ _ _ _ _ hle => hle
    obtain ⟨_, bs, box, -, hpath, hbox, hleads, -⟩ := hcovers
    have hoptimal : (answer box).isOptimal = true := hleads.isOptimal
    rw [(hasked.answer_at hanswers hpath hbox).2, hnot] at hoptimal
    cases hoptimal
  | integer hasked hoptimal hlearns hinteger journal =>
    rw [core_withJournal, core_offer]
    have hrecord := explored_record h hasked hanswers hmono .integer none
    refine (hrecord.of_offer _ ?_).of_cons fun v hcovers => .inl ?_
    · obtain ⟨bs, hpath, hbelow⟩ := hplaces
      have hbox := (hpath.box?_eq hasked.get? ctx.rootBox).symm.trans hasked.box?
      obtain ⟨-, hanswer⟩ := hasked.answer_at hanswers hpath hbox
      rw [← hanswer] at hoptimal hinteger ⊢
      exact (Outline.leads_of_isInteger ⟨hoptimal, hinteger⟩).of_below (hbelow _ hbox)
    · obtain ⟨bs, box, hpath, hbox, hleads⟩ :=
        hplaces.leads (extends_recorded _ _ _ _ _) hcovers
      obtain ⟨-, hanswer⟩ := hasked.answer_at hanswers hpath hbox
      rw [← hanswer] at hinteger ⊢
      rcases hleads.cases with ⟨-, rfl⟩ | ⟨q, hq, -⟩
      · exact le_objective_offer _ _ _
      · cases hq with
        | intro _ hfalse => cases hinteger.symm.trans hfalse
  | fathomed hasked hoptimal hlearns hinteger hclosed hinfeasibility journal =>
    refine (explored_record h hasked hanswers hmono .fathomed _).of_cons fun v hcovers => .inl ?_
    obtain ⟨bs, box, hpath, hbox, hleads⟩ :=
      hplaces.leads (extends_recorded _ _ _ _ _) hcovers
    obtain ⟨-, hanswer⟩ := hasked.answer_at hanswers hpath hbox
    rw [← hanswer] at hinteger hclosed
    rcases hclosed with hclosed | hdeep
    · exact le_trans (hleads.le hmono) (le_of_closedBy hclosed)
    · -- at this depth the full tree goes no deeper either
      rw [← hpath.length_eq hasked.get?] at hdeep
      rcases hleads.cases with ⟨⟨-, htrue⟩, -⟩ | ⟨q, hq, -⟩
      · cases hinteger.symm.trans htrue
      · cases hq with
        | intro _ _ hdepth => cases hdeep.symm.trans hdepth
  | branched hasked hoptimal hlearns hinteger hopen hdepth hinfeasibility hselect hpriorities hdown
      hup journal =>
    have hlearned := hlearns.rule_eq.trans hasked.rule_eq
    obtain ⟨-, fs, hfs, hc⟩ :=
      Scoring.pick?_of_runs_select (by rw [hlearned, hrule]; exact hfree) hselect
    rw [hlearned, hrule] at hc
    obtain ⟨tree, htree, rfl⟩ := Option.map_eq_some_iff.mp hdown
    obtain ⟨tree', htree', rfl⟩ := Option.map_eq_some_iff.mp hup
    show (ctx.outline answer).Explored
      ((s.frontier.push (recorded s.core e.node _ _ _).size _ _).push tree.size _ _).entries
      ⟨tree', (s.frontier.push (recorded s.core e.node _ _ _).size _ _).push tree.size _ _,
        s.incumbent⟩
    rw [recorded, Tree.size_modify]
    exact explored_branched h hasked hanswers hmono hoptimal hinteger hdepth hfs hc htree htree'
      _ _ _

/-! ## Runs -/

/-- At first everything lies below the root. -/
theorem explored_initial (ctx : Context σ α) (answer : Box α → Answer α) (backend : σ) :
    (ctx.outline answer).Explored (initial ctx backend).core.frontier.entries
      (initial ctx backend).core := by
  have hroot : (initial ctx backend).core.tree.get? 0 = some .root := rfl
  have hpath : (initial ctx backend).core.tree.Path 0 [] := .root hroot rfl rfl
  refine ⟨Frontier.numbered_empty.push 0 _ _, fun d hd => ?_, fun v hv => .inr ?_, .inl rfl, ?_⟩
  · rw [List.mem_singleton.mp hd]
    refine ⟨[], hpath, fun box hbox => ?_⟩
    cases hbox
    exact .refl
  · exact ⟨_, List.mem_cons_self, .root, [], ctx.rootBox, hroot, hpath, rfl, hv,
      LinearScalar.le_infinity v⟩
  · exact ⟨nofun, fun hlt => absurd hlt (lt_irrefl _)⟩

theorem explored_of_reachable (hanswers : ctx.backend.Answers ctx.problem answer)
    (hmono : Outline.Monotone answer) (hfree : ctx.settings.rule.HistoryFree) {backend : σ}
    (h : Reachable ctx (initial ctx backend) s) :
    (ctx.outline answer).Explored s.core.frontier.entries s.core ∧
      s.scoring.rule = ctx.settings.rule := by
  induction h with
  | start => exact ⟨explored_initial ctx answer backend, rfl⟩
  | @take s t e rest hs htake ih =>
    obtain ⟨hexplored, hrule⟩ := ih
    have hvisits := visits_of_runs_visit htake.visit
    refine ⟨explored_visits (s := { s with frontier := rest }) (hexplored.pop htake.pop?) hanswers
      hmono hfree hrule hvisits, ?_⟩
    rw [← hrule] at hfree ⊢
    exact hvisits.rule_eq hfree.usesResolves_eq

/-- Where a search has come to an end, its objective is at least everything in the full tree, and
found there unless there is no point. -/
theorem explored_of_search (hanswers : ctx.backend.Answers ctx.problem answer)
    (hmono : Outline.Monotone answer) (hfree : ctx.settings.rule.HistoryFree) {backend : σ}
    {sol : Solution α} (hsol : (search ctx backend).result = .ok sol)
    (hfinished : sol.status.isFinished = true) :
    (∀ v, (ctx.outline answer).Leads (ctx.outline answer).start v → v ≤ sol.objective) ∧
      (sol.objective = -Scalar.infinity ∨
        (ctx.outline answer).Leads (ctx.outline answer).start sol.objective) ∧
      sol.status = if -Scalar.infinity < sol.objective then .optimal else .infeasible := by
  obtain ⟨s, hreach, hstopped, heq, -⟩ := reachable_of_search hsol
  obtain ⟨hexplored, -⟩ := explored_of_reachable hanswers hmono hfree hreach
  obtain ⟨hstatus, hentries⟩ := hstopped.eq_exhausted hfinished
  have hobjective : sol.objective = s.incumbent.objective := by
    rw [heq]
    rfl
  rw [hobjective]
  refine ⟨fun v hv => ?_, hexplored.found, ?_⟩
  · rcases hexplored.covered v hv with hle | ⟨d, hd, -⟩
    · exact hle
    · replace hd : d ∈ s.frontier.entries := hd
      rw [hentries] at hd
      exact absurd hd List.not_mem_nil
  · rw [hstatus, exhausted]
    exact if_congr hexplored.hasPoint_iff rfl rfl

/-- The objective does not depend on the order or on pruning. Two searches of one problem with the
same tolerance, domains, limit on the depth and rule without memory, over backends that answer a box
in the same way and never give a child a larger optimum than its parent, have the same status and
the same objective if both dealt with all their nodes. They may take up the nodes in any order, look
at all of them or not, and differ in limits, clocks and reports. -/
theorem same_objective {σ₁ σ₂ : Type} {ctx₁ : Context σ₁ α} {ctx₂ : Context σ₂ α}
    (hproblem : ctx₁.problem = ctx₂.problem)
    (htol : ctx₁.settings.integralityTol = ctx₂.settings.integralityTol)
    (hbinary : ctx₁.settings.binaryVars = ctx₂.settings.binaryVars)
    (hlimit : ctx₁.settings.depthLimit = ctx₂.settings.depthLimit)
    (hrule : ctx₁.settings.rule = ctx₂.settings.rule) (hfree : ctx₁.settings.rule.HistoryFree)
    {answer : Box α → Answer α} (hmono : Outline.Monotone answer)
    (hanswers₁ : ctx₁.backend.Answers ctx₁.problem answer)
    (hanswers₂ : ctx₂.backend.Answers ctx₂.problem answer)
    {backend₁ : σ₁} {backend₂ : σ₂} {sol₁ sol₂ : Solution α}
    (hsol₁ : (search ctx₁ backend₁).result = .ok sol₁)
    (hsol₂ : (search ctx₂ backend₂).result = .ok sol₂)
    (hfinished₁ : sol₁.status.isFinished = true) (hfinished₂ : sol₂.status.isFinished = true) :
    sol₁.status = sol₂.status ∧ sol₁.objective = sol₂.objective := by
  have houtline : ctx₁.outline answer = ctx₂.outline answer := by
    have hdeep : ctx₁.tooDeep = ctx₂.tooDeep := by
      funext depth
      unfold Context.tooDeep Context.depthLimit
      rw [hlimit, hproblem, hbinary]
    have hroot : ctx₁.rootBox = ctx₂.rootBox := by
      unfold Context.rootBox
      rw [hproblem, hbinary]
    unfold Context.outline
    rw [hproblem, htol, hrule, hdeep, hroot]
  obtain ⟨hle₁, hfound₁, hstatus₁⟩ := explored_of_search hanswers₁ hmono hfree hsol₁ hfinished₁
  obtain ⟨hle₂, hfound₂, hstatus₂⟩ :=
    explored_of_search hanswers₂ hmono (hrule ▸ hfree) hsol₂ hfinished₂
  rw [houtline] at hle₁ hfound₁
  have hobjective : sol₁.objective = sol₂.objective := by
    apply le_antisymm
    · rcases hfound₁ with hnone | hleads
      · rw [hnone]
        exact LinearScalar.neg_infinity_le _
      · exact hle₂ _ hleads
    · rcases hfound₂ with hnone | hleads
      · rw [hnone]
        exact LinearScalar.neg_infinity_le _
      · exact hle₁ _ hleads
  refine ⟨?_, hobjective⟩
  rw [hstatus₁, hstatus₂, hobjective]

/-! ## One variable -/

/-- Answers every request for a box in the same way. -/
def steadyBackend {α : Type} (answer : Box α → Answer α) : Backend Unit α where
  solve _ box _ s := (⟨.ok (answer box), []⟩, s)
  setMode _ s := ([], s)

/-- The largest value in the box whose double is within the limit. -/
def doubledAnswer (b : ℚ) : Box ExtRat → Answer ExtRat
  | ⟨[lo], [hi]⟩ =>
    match min hi (.fin (b / 2)) with
    | .fin q => if lo ≤ .fin q then ⟨.optimal, [.fin q], .fin q, 0⟩ else .infeasible 0
    | _ => .infeasible 0
  | _ => .infeasible 0

/-- An optimum is a number between the bounds, and the upper bound or half the limit. -/
theorem doubledAnswer_isOptimal {b : ℚ} {box : Box ExtRat}
    (h : (doubledAnswer b box).isOptimal = true) :
    ∃ lo hi q, box = ⟨[lo], [hi]⟩ ∧ min hi (.fin (b / 2)) = .fin q ∧ lo ≤ .fin q ∧
      doubledAnswer b box = ⟨.optimal, [.fin q], .fin q, 0⟩ := by
  unfold doubledAnswer at h ⊢
  split at h
  · rename_i lo hi
    split at h
    · rename_i q hq
      split at h
      · rename_i hle
        exact ⟨lo, hi, q, rfl, hq, hle, if_pos hle⟩
      · cases h
    · cases h
  · cases h

theorem monotone_doubledAnswer (b : ℚ) : Outline.Monotone (doubledAnswer b) := by
  intro br box child hchild hbox hoptimal
  obtain ⟨lo, hi, q, rfl, hq, -, hanswer⟩ := doubledAnswer_isOptimal hbox
  obtain ⟨lo', hi', q', rfl, hq', -, hanswer'⟩ := doubledAnswer_isOptimal hoptimal
  rw [hanswer, hanswer']
  show ExtRat.fin q' ≤ .fin q
  rw [← hq, ← hq']
  refine min_le_min_right _ ?_
  -- a branch may lower the upper bound and never raises it
  unfold Branch.restrict? at hchild
  split at hchild
  · obtain ⟨hvar, heq⟩ := Option.ite_none_right_eq_some.mp hchild
    have hzero : br.var = 0 := Nat.lt_one_iff.mp hvar
    rw [hzero] at heq
    cases heq
    show Scalar.minNum hi br.rhs ≤ hi
    rw [ExtRat.minNum_eq_min]
    exact min_le_left _ _
  · obtain ⟨-, heq⟩ := Option.ite_none_right_eq_some.mp hchild
    have hupper : [hi] = [hi'] := congrArg Box.upper (Option.some.inj heq)
    rw [List.singleton_inj.mp hupper]

/-- A search for the largest whole number whose double is at most three, in a certain order. -/
def doubledSearch (selection : NodeSelection) (enumerateAll : Bool) : Context Unit ExtRat :=
  ⟨doubled 3, { Settings.standard.generalInteger with selection, enumerateAll },
    steadyBackend (doubledAnswer 3), id⟩

/-- Depth first with pruning and best first without give the same objective. -/
theorem same_objective_doubled :
    ∃ sol₁ sol₂, (search (doubledSearch .depthFirst false) ()).result = .ok sol₁ ∧
      (search (doubledSearch .bestFirst true) ()).result = .ok sol₂ ∧ sol₁.status = .optimal ∧
      sol₁.status = sol₂.status ∧ sol₁.objective = sol₂.objective := by
  have hrun₁ : (search (doubledSearch .depthFirst false) ()).result.toOption.map Solution.status
      = some .optimal := by
    decide +kernel
  have hrun₂ : (search (doubledSearch .bestFirst true) ()).result.toOption.map Solution.status
      = some .optimal := by
    decide +kernel
  cases hsol₁ : (search (doubledSearch .depthFirst false) ()).result with
  | error e =>
    rw [hsol₁] at hrun₁
    cases hrun₁
  | ok sol₁ =>
    cases hsol₂ : (search (doubledSearch .bestFirst true) ()).result with
    | error e =>
      rw [hsol₂] at hrun₂
      cases hrun₂
    | ok sol₂ =>
      rw [hsol₁] at hrun₁
      rw [hsol₂] at hrun₂
      have hstatus₁ : sol₁.status = .optimal := Option.some.inj hrun₁
      have hstatus₂ : sol₂.status = .optimal := Option.some.inj hrun₂
      have hproblem : (doubledSearch .depthFirst false).problem
          = (doubledSearch .bestFirst true).problem := rfl
      have hsame := same_objective hproblem rfl rfl rfl rfl (.inr rfl) (monotone_doubledAnswer 3)
        (fun _ _ => rfl) (fun _ _ => rfl) hsol₁ hsol₂ (by rw [hstatus₁]; rfl)
        (by rw [hstatus₂]; rfl)
      exact ⟨sol₁, sol₂, rfl, rfl, hstatus₁, hsame⟩

end Search

end BranchBound
