import BranchBound.Proofs.Search.Bound
import BranchBound.Proofs.Search.FullTree
import BranchBound.Proofs.Search.Links
import BranchBound.Proofs.Search.Requests

/-!
# Replaying a path

A search never stores the box of a node. It tightens a copy when it scores a child, from the root
down, and rebuilds the box when it visits the child, from the leaf up. Both give the same box: the
smallest upper and the largest lower bound win, and these do not depend on the order.

* `Tree.Grows`: trees that come from one another by new children and changes of what is known.
* `Tree.Walk`: following the links from a node until there is none.
* `Box.Tightened`: the box that is left of another one by some branches, bound by bound.
* `Box.replay?_perm`: the order of the branches makes no difference.
* `replay_is_tightening`: boxes of nodes, of their children, and of the requests for both.
-/

namespace BranchBound

/-! ## Growing trees -/

namespace Tree

variable {α : Type} {t u v : Tree α} {id : ℕ} {node : Node α} {bs : List (Branch α)}

/-- One tree comes from another by new children, and by changes that leave nodes in their places. -/
inductive Grows (t : Tree α) : Tree α → Prop
  | refl : Grows t t
  | child {u v : Tree α} {parent : ℕ} {b : Branch α} (h : Grows t u)
      (hv : u.addChild? parent b = some v) : Grows t v
  | change {u : Tree α} (h : Grows t u) (id : ℕ) {g : Node α → Node α} (hg : KeepsPlace g) :
      Grows t (u.modify id g)

theorem Grows.trans (htu : t.Grows u) (huv : u.Grows v) : t.Grows v := by
  induction huv with
  | refl => exact htu
  | child _ hv ih => exact ih.child hv
  | change _ id hg ih => exact ih.change id hg

theorem Grows.extends (h : t.Grows u) : t.Extends u := by
  induction h with
  | refl => exact fun _ node hnode => ⟨node, hnode, rfl, rfl, rfl, rfl⟩
  | child _ hv ih => exact ih.trans (extends_addChild? hv)
  | change _ id hg ih => exact ih.trans (extends_modify hg)

theorem Grows.linked (h : t.Grows u) (ht : t.Linked) : u.Linked := by
  induction h with
  | refl => exact ht
  | child _ hv ih =>
    obtain ⟨above, habove, -⟩ := Option.map_eq_some_iff.mp hv
    exact ih.addChild? habove hv
  | change _ id hg ih => exact ih.modify hg

/-- Every node has a path, as long as those it started with have one. -/
theorem Grows.exists_path (h : t.Grows u)
    (ht : ∀ id node, t.get? id = some node → ∃ bs, t.Path id bs) :
    ∀ id node, u.get? id = some node → ∃ bs, u.Path id bs := by
  induction h with
  | refl => exact ht
  | @child u v parent b _ hv ih =>
    intro id node hnode
    have hext := extends_addChild? hv
    obtain ⟨above, habove, -⟩ := Option.map_eq_some_iff.mp hv
    rw [get?_addChild? habove hv] at hnode
    split at hnode
    · rename_i hid
      obtain ⟨bs, hpath⟩ := ih parent above habove
      rw [hid]
      exact ⟨b :: bs, hpath.addChild? habove hv⟩
    · obtain ⟨bs, hpath⟩ := ih id node hnode
      exact ⟨bs, hpath.mono hext⟩
  | @change u _ k g hg ih =>
    intro id node hnode
    obtain ⟨before, hbefore, -⟩ := exists_of_keepsPlace hg hnode
    obtain ⟨bs, hpath⟩ := ih id before hbefore
    exact ⟨bs, hpath.mono (extends_modify hg)⟩

theorem exists_path_of_grows [Scalar α] (h : (empty.addRoot : Tree α).Grows t)
    (hnode : t.get? id = some node) : ∃ bs, t.Path id bs := by
  refine h.exists_path (fun id node hnode => ⟨[], ?_⟩) id node hnode
  obtain ⟨-, hdepth, -⟩ : node.parent = none ∧ node.depth = 0 ∧ node.branch = none := by
    have hlt : id < 1 := get?_lt_size hnode
    obtain rfl : id = 0 := by omega
    exact linked_addRoot.root hnode
  exact .root hnode (linked_addRoot.id_eq hnode) hdepth

/-- Following the links from a node until one has no parent meets these branches. -/
inductive Walk (t : Tree α) : ℕ → List (Branch α) → Prop
  | stop {id : ℕ} {node : Node α} (hnode : t.get? id = some node) (hparent : node.parent = none) :
      Walk t id node.branch.toList
  | up {id parent : ℕ} {node : Node α} {bs : List (Branch α)} (hnode : t.get? id = some node)
      (hparent : node.parent = some parent) (h : Walk t parent bs) :
      Walk t id (node.branch.toList ++ bs)

/-- Where nodes are linked in order, a path is such a walk. -/
theorem Path.walk (h : t.Path id bs) (ht : t.Linked) : t.Walk id bs := by
  induction h with
  | @root id node hnode hid hdepth =>
    cases id with
    | zero =>
      obtain ⟨hparent, -, hbranch⟩ := ht.root hnode
      have hwalk := Walk.stop hnode hparent
      rw [hbranch] at hwalk
      exact hwalk
    | succ k =>
      obtain ⟨p, above, b, -, -, -, hdeeper, -⟩ := ht.child hnode
      omega
  | child hnode hid hparent hbranch habove hdepth _ ih =>
    have hwalk := Walk.up hnode hparent ih
    rw [hbranch] at hwalk
    exact hwalk

end Tree

/-! ## Tightened boxes -/

section Order

variable {β : Type} [LinearOrder β] {u r v : β} {c : Prop} [Decidable c] {P : β → Prop}

/-- A bound may be combined with another one before the least is taken, or be among those it is
taken from. -/
theorem isLeast_or_of_min (h : IsLeast {w | w = (if c then min u r else u) ∨ P w} v) :
    IsLeast {w | w = u ∨ c ∧ r = w ∨ P w} v := by
  obtain ⟨hmem, hle⟩ := h
  constructor
  · rcases hmem with rfl | hP
    · split
      case isTrue hc => exact (min_choice u r).imp id fun h => .inl ⟨hc, h.symm⟩
      case isFalse => exact .inl rfl
    · exact .inr (.inr hP)
  · have hfirst := hle (.inl rfl)
    rintro w (rfl | ⟨hc, rfl⟩ | hP)
    · refine hfirst.trans ?_
      split
      · exact min_le_left _ _
      · exact le_refl _
    · rw [if_pos hc] at hfirst
      exact hfirst.trans (min_le_right _ _)
    · exact hle (.inr hP)

theorem isGreatest_or_of_max (h : IsGreatest {w | w = (if c then max u r else u) ∨ P w} v) :
    IsGreatest {w | w = u ∨ c ∧ r = w ∨ P w} v :=
  isLeast_or_of_min (β := βᵒᵈ) h

end Order

/-- The variable of a branch has the bound that the branch is about. -/
def Branch.Fits {α : Type} (b : Branch α) (box : Box α) : Prop :=
  b.var < match b.sense with
    | .down => box.upper.length
    | .up => box.lower.length

/-- What branches leave of a box. An upper bound is the least of the one before and those that the
branches down ask for, and a lower bound the greatest of the one before and those asked for by the
branches up. -/
structure Box.Tightened {α : Type} [LE α] (root : Box α) (bs : List (Branch α)) (box : Box α) :
    Prop where
  upper_length : box.upper.length = root.upper.length
  lower_length : box.lower.length = root.lower.length
  upper : ∀ {i : ℕ} {u v : α}, root.upper[i]? = some u → box.upper[i]? = some v →
    IsLeast {w | w = u ∨ ∃ b ∈ bs, b.sense = .down ∧ b.var = i ∧ b.rhs = w} v
  lower : ∀ {i : ℕ} {l v : α}, root.lower[i]? = some l → box.lower[i]? = some v →
    IsGreatest {w | w = l ∨ ∃ b ∈ bs, b.sense = .up ∧ b.var = i ∧ b.rhs = w} v

section Restrict

variable {α : Type} [Scalar α] {root box box' : Box α} {b : Branch α} {bs cs : List (Branch α)}

theorem Branch.exists_restrict?_iff : (∃ restricted, b.restrict? box = some restricted) ↔
    b.Fits box := by
  unfold Branch.restrict? Branch.Fits
  cases b.sense with
  | down => exact ⟨fun ⟨_, h⟩ => (Option.ite_none_right_eq_some.mp h).1, fun h => ⟨_, if_pos h⟩⟩
  | up => exact ⟨fun ⟨_, h⟩ => (Option.ite_none_right_eq_some.mp h).1, fun h => ⟨_, if_pos h⟩⟩

omit [Scalar α] in
theorem Branch.fits_congr (hlower : box'.lower.length = box.lower.length)
    (hupper : box'.upper.length = box.upper.length) : b.Fits box' ↔ b.Fits box := by
  unfold Branch.Fits
  rw [hlower, hupper]

/-- Branches can be replayed where each of them has its bound. -/
theorem Box.exists_replay?_iff : (∃ box, root.replay? bs = some box) ↔ ∀ b ∈ bs, b.Fits root := by
  unfold replay?
  induction bs generalizing root with
  | nil => exact ⟨fun _ _ hb => absurd hb List.not_mem_nil, fun _ => ⟨root, rfl⟩⟩
  | cons b bs ih =>
    rw [List.forall_mem_cons, ← Branch.exists_restrict?_iff, List.foldlM_cons]
    constructor
    · rintro ⟨box, h⟩
      obtain ⟨restricted, hb, h⟩ := Option.bind_eq_some_iff.mp h
      obtain ⟨hlower, hupper⟩ := Branch.length_of_restrict? hb
      have hrest := ih.mp ⟨box, h⟩
      exact ⟨⟨restricted, hb⟩, fun c hc => (Branch.fits_congr hlower hupper).mp (hrest c hc)⟩
    · rintro ⟨⟨restricted, hb⟩, hrest⟩
      obtain ⟨hlower, hupper⟩ := Branch.length_of_restrict? hb
      obtain ⟨box, h⟩ := ih.mpr fun c hc => (Branch.fits_congr hlower hupper).mpr (hrest c hc)
      exact ⟨box, Option.bind_eq_some_iff.mpr ⟨restricted, hb, h⟩⟩

variable [LinearScalar α]

theorem Box.Tightened.refl (root : Box α) : root.Tightened [] root := by
  have hset : ∀ (u : α) (sense : Sense) (i : ℕ),
      {w | w = u ∨ ∃ b ∈ ([] : List (Branch α)), b.sense = sense ∧ b.var = i ∧ b.rhs = w}
        = {u} := by
    intro u sense i
    ext w
    simp
  refine ⟨rfl, rfl, fun {i u v} hu hv => ?_, fun {i l v} hl hv => ?_⟩
  · cases hu.symm.trans hv
    rw [hset]
    exact isLeast_singleton
  · cases hl.symm.trans hv
    rw [hset]
    exact isGreatest_singleton

/-- One more branch, made first. -/
theorem Box.Tightened.cons {restricted : Box α} (h : b.restrict? root = some restricted)
    (hbox : restricted.Tightened bs box) : root.Tightened (b :: bs) box := by
  obtain ⟨hlower, hupper⟩ := Branch.length_of_restrict? h
  have hset : ∀ (u : α) (sense : Sense) (i : ℕ),
      {w | w = u ∨ ∃ c ∈ b :: bs, c.sense = sense ∧ c.var = i ∧ c.rhs = w}
        = {w | w = u ∨ (b.sense = sense ∧ b.var = i) ∧ b.rhs = w ∨
            ∃ c ∈ bs, c.sense = sense ∧ c.var = i ∧ c.rhs = w} := by
    intro u sense i
    ext w
    simp [and_assoc]
  refine ⟨hbox.upper_length.trans hupper, hbox.lower_length.trans hlower, ?_, ?_⟩
  · intro i u v hu hv
    have hrestricted := (Branch.getElem?_of_restrict? h i).2
    rw [hu, Option.map_some, LinearScalar.minNum_eq_min] at hrestricted
    rw [hset]
    exact isLeast_or_of_min (hbox.upper hrestricted hv)
  · intro i l v hl hv
    have hrestricted := (Branch.getElem?_of_restrict? h i).1
    rw [hl, Option.map_some, LinearScalar.maxNum_eq_max] at hrestricted
    rw [hset]
    exact isGreatest_or_of_max (hbox.lower hrestricted hv)

theorem Box.tightened_of_replay? (h : root.replay? bs = some box) : root.Tightened bs box := by
  unfold replay? at h
  induction bs generalizing root with
  | nil =>
    cases h
    exact Tightened.refl _
  | cons b bs ih =>
    rw [List.foldlM_cons] at h
    obtain ⟨restricted, hb, h⟩ := Option.bind_eq_some_iff.mp h
    exact (ih h).cons hb

/-- The order in which branches are replayed makes no difference, for that of two does not. -/
theorem Box.replay?_perm (hperm : cs.Perm bs) (root : Box α) :
    root.replay? cs = root.replay? bs := by
  induction hperm generalizing root with
  | nil => rfl
  | cons b _ ih =>
    rw [replay?_cons_first, replay?_cons_first]
    exact Option.bind_congr fun box _ => ih box
  | swap b c bs =>
    have htwo : ∀ b c : Branch α,
        root.replay? (b :: c :: bs)
          = ((b.restrict? root).bind c.restrict?).bind (·.replay? bs) := by
      intro b c
      rw [replay?_cons_first, Option.bind_assoc]
      exact Option.bind_congr fun box _ => box.replay?_cons_first c bs
    rw [htwo, htwo, Branch.restrict?_comm]
  | trans _ _ ih ih' => exact (ih root).trans (ih' root)

/-- The box of a child is that of its parent with one more branch. -/
theorem Tree.box?_addChild? {t u v : Tree α} {parent : ℕ}
    (ht : (empty.addRoot : Tree α).Grows t) (hu : t.addChild? parent b = some u) (huv : u.Grows v)
    (root : Box α) :
    v.box? parent root = t.box? parent root ∧
      v.box? t.size root = (t.box? parent root).bind b.restrict? := by
  obtain ⟨above, habove, -⟩ := Option.map_eq_some_iff.mp hu
  obtain ⟨bs, hpath⟩ := exists_path_of_grows ht habove
  have hchild := hpath.addChild? habove hu
  obtain ⟨node, hnode⟩ := hchild.exists_node
  constructor
  · exact hpath.box?_of_extends ((extends_addChild? hu).trans huv.extends) root
  · rw [hchild.box?_of_extends huv.extends, hchild.box?_eq hnode, Box.replay?_cons,
      hpath.box?_eq habove]

end Restrict

/-! ## The trees of searches -/

namespace Search

variable {σ α : Type} [Scalar α] {ctx : Context σ α}

theorem Visited.grows {id : ℕ} {s t : Core α} (h : Visited ctx id s t) : s.tree.Grows t.tree := by
  cases h with
  | @branched node box a c fs tree tree' hsolved hoptimal hfs hc infeasibility hdown hup =>
    have hrecorded : s.tree.Grows (recorded s id a.objective .candidate infeasibility) :=
      Tree.Grows.refl.change id fun _ => ⟨rfl, rfl, rfl, rfl⟩
    exact (hrecorded.child hdown).child hup
  | _ => exact Tree.Grows.refl.change id fun _ => ⟨rfl, rfl, rfl, rfl⟩

/-- The tree of a search grows from a root, and from each tree it has had before. -/
theorem Reachable.grows {s t : State σ α} (h : Reachable ctx s t) : s.tree.Grows t.tree := by
  induction h with
  | start => exact .refl
  | take _ htake ih => exact ih.trans (visited_of_runs_visit htake.visit).grows

end Search

/-! ## Requests -/

section Requests

open Relaxation

variable {σ α : Type}

/-- The relaxation of a node is put to the backend once. -/
theorem Relaxation.Oracle.backend_solveNode (B : Backend σ α) (p : Problem α) (box : Box α)
    (o : Oracle σ) : (solveNode B p box o).2.backend = (B.solve p box none o.backend).2 :=
  (backend_countIf _ _ _).trans (backend_call _ _ _ _ _)

/-- After a request the backend stays as it is, where the rest puts none. -/
theorem Scoring.backend_ask_bind {β : Type} {request : Oracle σ → Reply α × Oracle σ}
    {rest : Answer α → ScoringM σ α β}
    (hrest : ∀ a (P : σ → Prop), Coupled (Alike fun b c => b = c ∧ P c) (rest a) (rest a))
    (s : Scoring σ α) :
    ((ask request >>= rest).run.run s).2.oracle.backend = (request s.oracle).2.backend := by
  rw [run_bind, run_ask]
  cases (request s.oracle).1.outcome with
  | error e => rfl
  | ok a =>
    exact (hrest a (· = (request s.oracle).2.backend) _ _ (alike_self rfl)).2.oracle.backend.2

/-- What a computation in lockstep with itself keeps, it keeps even if it fails. -/
theorem Search.keeps_run {β : Type} {P : σ → Prop} {x : SearchM σ α β} {s : State σ α}
    (hx : Coupled (State.Agrees (Scoring.Alike fun b c => b = c ∧ P c)) x x)
    (hs : P s.scoring.oracle.backend) : P (x.run.run s).2.scoring.oracle.backend := by
  obtain ⟨scoring, -, halike⟩ := (hx s s (agrees_self hs)).2
  exact halike.oracle.backend.2

/-- The relaxation of a node is asked for in its box. -/
theorem Search.asked_solveNode (B : Backend σ α) (p : Problem α) (box : Box α)
    (s : State (σ × List (Request α)) α) :
    ((onScoring (Scoring.ask (Oracle.solveNode (recording B) p box))).run.run
        s).2.scoring.oracle.backend.2
      = s.scoring.oracle.backend.2 ++ [.solve box none] := by
  rw [run_onScoring, Scoring.run_ask]
  exact congrArg Prod.snd (Oracle.backend_solveNode (recording B) p box s.scoring.oracle)

variable [Scalar α]

/-- Measuring a child puts one request, for the box restricted by its branch. -/
theorem Scoring.asked_measureChild {B : Backend σ α} {p : Problem α} {point : NodePoint α} {cap : ℕ}
    {b : Branch α} {box : Box α} (hbox : b.restrict? point.box = some box)
    (s : Scoring (σ × List (Request α)) α) :
    ((measureChild (recording B) p point cap b).run.run s).2.oracle.backend.2
      = s.oracle.backend.2 ++ [.solve box (some (max cap 1))] := by
  unfold measureChild
  rw [hbox]
  show ((ask (Oracle.resolve (recording B) p box cap) >>= _).run.run s).2.oracle.backend.2 = _
  rw [backend_ask_bind, Oracle.backend_resolve]
  · rfl
  · intro answer P
    cases answer.status with
    | optimal =>
      refine coupled_bind (coupled_modify fun _ _ h => ⟨h.rule, h.table,
        congrArg (· + 1) h.fullResolves, h.partialResolves, h.oracle⟩) fun _ => ?_
      exact coupled_bind (alike_learn _ _ _) fun _ => coupled_pure _
    | iterationLimit =>
      exact coupled_bind (coupled_modify fun _ _ h => ⟨h.rule, h.table, h.fullResolves,
        congrArg (· + 1) h.partialResolves, h.oracle⟩) fun _ => coupled_pure _
    | infeasible => exact coupled_pure _

/-- The first request of a node is for its box. -/
theorem Search.asked_expand {ctx : Context σ α} {id : ℕ} {node : Node α} {box : Box α}
    {s : State (σ × List (Request α)) α} (hbox : s.tree.box? id ctx.rootBox = some box) :
    s.scoring.oracle.backend.2 ++ [.solve box none] <+:
      ((expand (ctx.over (recording ctx.backend)) id node).run.run
        s).2.scoring.oracle.backend.2 := by
  have hkeeps : (recording ctx.backend).Keeps ctx.problem fun b =>
      s.scoring.oracle.backend.2 ++ [.solve box none] <+: b.2 :=
    ⟨fun box cap hb => hb.trans (List.prefix_append _ _)⟩
  have hrespects : Respects (ctx.over (recording ctx.backend)) (recording ctx.backend) _ :=
    respects_alike hkeeps.answersLike
  unfold expand
  show _ <+: ((inRange id (s.tree.box? id ctx.rootBox) >>= _).run.run
    (s.enter node.depth)).2.scoring.oracle.backend.2
  rw [hbox]
  show _ <+: ((onScoring (Scoring.ask (Oracle.solveNode (recording ctx.backend) ctx.problem box))
    >>= _).run.run (s.enter node.depth)).2.scoring.oracle.backend.2
  rw [run_bind]
  have hasked := asked_solveNode ctx.backend ctx.problem box (s.enter node.depth)
  generalize hrun : (onScoring (Scoring.ask (Oracle.solveNode (recording ctx.backend) ctx.problem
    box))).run.run (s.enter node.depth) = after at hasked ⊢
  obtain ⟨result, t⟩ := after
  have ht : s.scoring.oracle.backend.2 ++ [.solve box none] <+: t.scoring.oracle.backend.2 := by
    rw [show t.scoring.oracle.backend.2 = _ from hasked]
    exact List.prefix_rfl
  cases result with
  | error e => exact ht
  | ok a =>
    obtain ⟨scoring, hask, -⟩ := scoring_of_runs_onScoring hrun
    have hreport := fun _ : Unit =>
      hrespects.coupled_reportProgress ctx.settings.rule ctx.settings.maxNodes ctx.clock
    refine keeps_run (P := fun b : σ × List (Request α) =>
      s.scoring.oracle.backend.2 ++ [.solve box none] <+: b.2) ?_ ht
    by_cases hoptimal : a.isOptimal = true
    · rw [if_pos hoptimal]
      exact coupled_bind (hrespects.coupled_settle (Tree.reaches_of_box? hbox) hask hoptimal
        ctx.settings.rule ctx.settings.maxNodes ctx.clock id node) hreport
    · rw [if_neg hoptimal]
      exact coupled_bind (coupled_modify fun _ _ h => hrespects.agrees_closeInfeasible h id node)
        hreport

end Requests

/-! ## Replay and tightening -/

/-- In every tree that grows from a root, the path of a node is what following its links meets, with
as many branches as the node is deep; its box is what they leave of the root box, in whichever order
they are replayed. The box of a child is that of its parent restricted by its branch. So a child
that reliability branching asked for is solved in the box it was asked for in, should it ever be
created and visited. -/
theorem replay_is_tightening {α : Type} [Scalar α] [LinearScalar α] {t : Tree α}
    (ht : (Tree.empty.addRoot : Tree α).Grows t) (root : Box α) :
    (∀ id node, t.get? id = some node → ∃ bs, t.path? id = some bs ∧ t.Walk id bs ∧
      bs.length = node.depth ∧
      (∀ cs : List (Branch α), cs.Perm bs → root.replay? cs = t.box? id root) ∧
      ((∃ box, t.box? id root = some box) ↔ ∀ b ∈ bs, b.Fits root) ∧
      ∀ box, t.box? id root = some box → root.Tightened bs box) ∧
    ∀ parent b u, t.addChild? parent b = some u →
      (∀ v, u.Grows v → v.box? t.size root = (v.box? parent root).bind b.restrict?) ∧
      ∀ {σ : Type} (ctx : Search.Context σ α) (point : NodePoint α) (cap : ℕ)
        (scoring : Scoring (σ × List (Relaxation.Request α)) α)
        (later : Search.State (σ × List (Relaxation.Request α)) α) (child : Node α) (box : Box α),
        t.box? parent ctx.rootBox = some point.box → u.Grows later.tree →
        later.tree.box? t.size ctx.rootBox = some box →
        ((Scoring.measureChild (Relaxation.recording ctx.backend) ctx.problem point cap b).run.run
            scoring).2.oracle.backend.2
          = scoring.oracle.backend.2 ++ [.solve box (some (max cap 1))] ∧
        later.scoring.oracle.backend.2 ++ [.solve box none] <+:
          ((Search.expand (ctx.over (Relaxation.recording ctx.backend)) t.size child).run.run
            later).2.scoring.oracle.backend.2 := by
  refine ⟨fun id node hnode => ?_, fun parent b u hu => ⟨fun v huv => ?_, ?_⟩⟩
  · obtain ⟨bs, hpath⟩ := Tree.exists_path_of_grows ht hnode
    have hbox := hpath.box?_eq hnode root
    refine ⟨bs, hpath.path?_eq hnode, hpath.walk (ht.linked Tree.linked_addRoot),
      hpath.length_eq hnode, fun cs hcs => ?_, ?_, fun box h => ?_⟩
    · rw [hbox, Box.replay?_perm hcs]
    · rw [hbox, Box.exists_replay?_iff]
    · rw [hbox] at h
      exact Box.tightened_of_replay? h
  · obtain ⟨hparent, hchild⟩ := Tree.box?_addChild? ht hu huv root
    rw [hchild, hparent]
  · intro σ ctx point cap scoring later child box hpoint hlater hbox
    obtain ⟨-, hchild⟩ := Tree.box?_addChild? ht hu hlater ctx.rootBox
    have hrestrict : b.restrict? point.box = some box := by
      rw [← hbox, hchild, hpoint, Option.bind_some]
    exact ⟨Scoring.asked_measureChild hrestrict scoring, Search.asked_expand hbox⟩

/-- A tree of two levels. -/
def raisedTree : Tree ExtRat where
  nodes := #[.root, Node.root.child 1 ⟨0, .fin (5 / 2), .up, .fin 3⟩]

/-- The same tree with a branch below that crosses the one there is: at least 3, and at most 1. -/
def crossedTree : Tree ExtRat where
  nodes := raisedTree.nodes.push
    ((Node.root.child 1 ⟨0, .fin (5 / 2), .up, .fin 3⟩).child 2 ⟨0, .fin (3 / 2), .down, .fin 1⟩)

/-- A search over this tree. -/
def crossedState : Search.State (Unit × List (Relaxation.Request ExtRat)) ExtRat :=
  { Search.initial ((Search.doubledContext 9).over
      (Relaxation.recording (Search.doubledContext 9).backend)) ((), []) with tree := crossedTree }

/-- Both branches are on the path of the deepest node and leave its variable no value, whichever is
replayed first. Where its parent asked for it, it asks for the same box. -/
theorem replay_is_tightening_crossed :
    (∃ bs, crossedTree.path? 2 = some bs ∧ crossedTree.Walk 2 bs ∧ bs.length = 2 ∧
      ∀ cs : List (Branch ExtRat), cs.Perm bs →
        Box.replay? ⟨[0], [.fin 5]⟩ cs = some ⟨[.fin 3], [.fin 1]⟩) ∧
    ((Scoring.measureChild (Relaxation.recording (Search.doubledContext 9).backend)
        (Search.doubledContext 9).problem ⟨⟨[.fin 3], [.posInf]⟩, [.fin 3], .fin 3, 1⟩ 7
        ⟨0, .fin (3 / 2), .down, .fin 1⟩).run.run crossedState.scoring).2.oracle.backend.2
      = [.mode .dynamic, .solve ⟨[.fin 3], [.fin 1]⟩ (some 7)] ∧
    [.mode .dynamic, .solve ⟨[.fin 3], [.fin 1]⟩ none] <+:
      ((Search.expand ((Search.doubledContext 9).over
        (Relaxation.recording (Search.doubledContext 9).backend)) 2
        .root).run.run crossedState).2.scoring.oracle.backend.2 := by
  have hraised : (Tree.empty.addRoot : Tree ExtRat).Grows raisedTree :=
    .child .refl (show Tree.addChild? _ 0 ⟨0, .fin (5 / 2), .up, .fin 3⟩ = some _ from rfl)
  have hcrossed : raisedTree.addChild? 1 ⟨0, .fin (3 / 2), .down, .fin 1⟩ = some crossedTree := rfl
  obtain ⟨hnodes, -⟩ := replay_is_tightening (hraised.child hcrossed) ⟨[0], [.fin 5]⟩
  obtain ⟨-, hchildren⟩ := replay_is_tightening hraised ⟨[0], [.fin 5]⟩
  constructor
  · obtain ⟨bs, hpath, hwalk, hlength, hreplay, -⟩ := hnodes 2 _ rfl
    refine ⟨bs, hpath, hwalk, hlength, fun cs hcs => ?_⟩
    rw [hreplay cs hcs]
    rfl
  · exact (hchildren 1 _ crossedTree hcrossed).2 (Search.doubledContext 9)
      ⟨⟨[.fin 3], [.posInf]⟩, [.fin 3], .fin 3, 1⟩ 7 crossedState.scoring crossedState .root
      ⟨[.fin 3], [.fin 1]⟩ rfl .refl rfl

end BranchBound
