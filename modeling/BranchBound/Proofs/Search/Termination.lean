import BranchBound.Proofs.Search.DepthFirst
import BranchBound.Proofs.Search.DepthLimit
import BranchBound.Proofs.Search.History

/-!
# Every search ends

Each step takes up a node for good, so a search ends as soon as there is a bound on the number of
nodes. The limit on the nodes processed gives one, since only these get children. A limit on the
depth gives another one that has nothing to do with it: the nodes below an open node are bounded by
its height above the limit, and two children have together as much room below them as their parent
had, less themselves.

* `EndsWithin`: a run is over after a number of steps.
* `endsWithin_of_size_le`: a bound on the nodes is a bound on the steps.
* `Budgeted`: nodes are created two at a time, for a node that was processed.
* `search_of_ended`: the outcome of a search is that of a run that has ended.
* `roomBelow`, `Shallow`: the nodes there are, and those there is room for.
* `search_ends`: both bounds, for every search.
-/

namespace BranchBound

namespace Search

open Relaxation

variable {σ α : Type} [Scalar α]

/-- After this many steps a run is over, and more steps change nothing. -/
def EndsWithin (ctx : Context σ α) (s : State σ α) (steps : ℕ) : Prop :=
  ∃ result t, ∀ n, steps ≤ n → (Phase.running s).advance ctx n = .ended result t

section Bounds

variable {ctx : Context σ α} {backend : σ}

omit [Scalar α] in
/-- The open nodes and those taken up are all there are. -/
theorem Placed.length_add {taken : List (Entry α)} {tree : Tree α} {f : Frontier α}
    (h : Placed taken tree f) : taken.length + f.entries.length = tree.size := by
  have hlength := h.perm.length_eq
  rw [List.length_map, List.length_append, List.length_range] at hlength
  exact hlength

/-- Each step takes up a node, so a bound on the nodes is one on the steps. -/
theorem endsWithin_of_size_le {bound : ℕ}
    (hsize : ∀ n, ((Phase.running (initial ctx backend)).advance ctx n).state.tree.size ≤ bound) :
    EndsWithin ctx (initial ctx backend) (bound + 1) := by
  have hnarrated : Narrated ctx ((rounds ctx (bound + 1) (initial ctx backend)).map Round.entry) _ :=
    (holds_of_search (P := fun _ _ => True) (fun _ _ _ => trivial) trivial (bound + 1)).1
  have hbound := hsize (bound + 1)
  cases hphase : (Phase.running (initial ctx backend)).advance ctx (bound + 1) with
  | running s =>
    have hlength := hnarrated.orderly.placed.length_add
    rw [List.length_map, length_rounds_of_running hphase, hphase] at hlength
    rw [hphase] at hbound
    have hlength' : bound + 1 + s.frontier.entries.length = s.tree.size := hlength
    have hbound' : s.tree.size ≤ bound := hbound
    omega
  | ended result t =>
    refine ⟨result, t, ?_⟩
    intro n hn
    obtain ⟨k, rfl⟩ := Nat.exists_eq_add_of_le hn
    rw [Phase.advance_add, hphase, Phase.advance_ended]

/-- Where a search stops at the limit on the nodes, there are more nodes than that. -/
theorem maxNodes_lt_size {n : ℕ} {t : State σ α}
    (h : (Phase.running (initial ctx backend)).advance ctx n = .ended (.ok .nodeLimit) t) :
    ctx.settings.maxNodes < t.tree.size := by
  obtain ⟨hopen, hnodes⟩ := (halts_of_advance h).of_nodeLimit
  have horderly := orderly_of_run ctx backend n
  rw [h] at horderly
  have hlength : _ + t.frontier.entries.length = t.tree.size := horderly.placed.length_add
  have hcounted : _ = t.processed + t.pruned := horderly.counted
  have hpos := List.length_pos_iff.mpr hopen
  omega

end Bounds

/-! ## The limit on the nodes -/

/-- Nodes are created two at a time, for a node that was processed, and no more than the limit are
processed. -/
structure Budgeted (maxNodes : ℕ) (s : Ledger α) : Prop where
  size_le : s.tree.size ≤ 1 + 2 * s.processed
  processed_le : s.processed ≤ maxNodes

/-- A turn creates no node, or two for one that it processes. -/
theorem Turn.size_le {ctx : Context σ α} {e : Entry α} {s t : Ledger α} (h : Turn ctx e s t) :
    t.tree.size + 2 * s.processed ≤ s.tree.size + 2 * t.processed := by
  cases h with
  | unsolved hnode => exact Nat.add_le_add_left (Nat.mul_le_mul_left 2 (Nat.le_succ _)) _
  | pruned hnode hclosed => exact Nat.le_of_eq (by simp [Ledger.prune])
  | integer hnode x relax =>
    obtain ⟨htree, -, hprocessed, -⟩ := place_offer ((s.enter _).tell e.node .integer relax none)
      e.node x relax
    rw [htree, hprocessed]
    simp [Ledger.tell, Ledger.enter]
  | branched hnode hpriorities hdown hup =>
    have hsize := Tree.size_children hdown hup
    simp only [Ledger.tell, Ledger.enter, Tree.size_modify] at hsize
    simp only [Ledger.split, Ledger.tell, Ledger.enter, hsize]
    omega
  | _ => simp [Ledger.tell, Ledger.enter]

/-- A turn within the budget keeps to it. -/
theorem Budgeted.turn {ctx : Context σ α} {e : Entry α} {s t : Ledger α} {maxNodes : ℕ}
    (h : Budgeted maxNodes s) (hwithin : s.processed < maxNodes) (hturn : Turn ctx e s t) :
    Budgeted maxNodes t := by
  have hsize := hturn.size_le
  have hcounted := hturn.counted
  have hbefore := h.size_le
  exact ⟨by omega, by omega⟩

/-- No run processes more nodes than it may. -/
theorem budgeted_of_run (ctx : Context σ α) (backend : σ) (n : ℕ) :
    Budgeted ctx.settings.maxNodes
      ((Phase.running (initial ctx backend)).advance ctx n).state.ledger := by
  have hround : ∀ {done : List (Round σ α)} {s t : State σ α} {e rest},
      Narrated ctx (done.map Round.entry) s.ledger → Budgeted ctx.settings.maxNodes s.ledger →
      TakesUp ctx e rest s t → Budgeted ctx.settings.maxNodes t.ledger := by
    intro done s t e rest hnarrated hs htakes
    obtain ⟨node, hnode⟩ := hnarrated.orderly.exists_node htakes.pop?
    have hopened : Budgeted ctx.settings.maxNodes { s.ledger with frontier := rest } :=
      ⟨hs.size_le, hs.processed_le⟩
    exact hopened.turn htakes.within_nodes
      (htakes.dealt.turn (s := { s with frontier := rest }) hnode)
  exact (holds_of_search (P := fun _ s => Budgeted ctx.settings.maxNodes s.ledger) hround
    ⟨Nat.le_refl 1, Nat.zero_le _⟩ n).2

/-- The steps that a search takes at most are enough for it to end. -/
theorem endsWithin_stepBound (ctx : Context σ α) (backend : σ) :
    EndsWithin ctx (initial ctx backend) (stepBound ctx.settings) := by
  have hsize : ∀ n, ((Phase.running (initial ctx backend)).advance ctx n).state.tree.size
      ≤ 2 * ctx.settings.maxNodes + 1 := by
    intro n
    have hbudgeted := budgeted_of_run ctx backend n
    have hsize : ((Phase.running (initial ctx backend)).advance ctx n).state.tree.size
        ≤ 1 + 2 * _ := hbudgeted.size_le
    have hprocessed := hbudgeted.processed_le
    omega
  exact endsWithin_of_size_le hsize

omit [Scalar α] in
theorem foldl_note_eq (notes : List (Note α)) (s : State σ α) :
    ∃ journal, notes.foldl State.note s = s.withJournal journal := by
  induction notes generalizing s with
  | nil => exact ⟨s.scoring.journal, rfl⟩
  | cons n notes ih =>
    obtain ⟨journal, hjournal⟩ := ih (s.note n)
    exact ⟨journal, hjournal⟩

/-- So the outcome of a search is read off a run that has ended, however many steps it was given. -/
theorem search_of_ended {ctx : Context σ α} {backend : σ} {n : ℕ}
    {result : Except (SolveError α) SolveStatus} {s : State σ α}
    (h : (Phase.running (initial ctx backend)).advance ctx n = .ended result s) :
    (search ctx backend).result = result.map (solution ctx · s) ∧
      ∃ journal, (search ctx backend).state = s.withJournal journal := by
  have hlast : (Phase.running (initial ctx backend)).advance ctx (stepBound ctx.settings)
      = .ended result s := by
    obtain ⟨result', t, hended⟩ := endsWithin_stepBound ctx backend
    have hmore := hended (stepBound ctx.settings + n) (Nat.le_add_right _ _)
    rw [Nat.add_comm, Phase.advance_add, h, Phase.advance_ended] at hmore
    rw [hended _ (Nat.le_refl _), hmore]
  unfold search
  rw [hlast]
  cases result with
  | error err => exact ⟨rfl, s.scoring.journal, rfl⟩
  | ok status => exact ⟨rfl, foldl_note_eq _ s⟩

/-- A search that returns has ended within its bound on steps. -/
theorem ended_of_search_ok {ctx : Context σ α} {backend : σ} {sol : Solution α}
    (h : (search ctx backend).result = .ok sol) :
    ∃ s, (Phase.running (initial ctx backend)).advance ctx (stepBound ctx.settings)
      = .ended (.ok sol.status) s := by
  obtain ⟨result, t, hended⟩ := endsWithin_stepBound ctx backend
  have hlast := hended (stepBound ctx.settings) (Nat.le_refl _)
  obtain ⟨hresult, -⟩ := search_of_ended hlast
  rw [h] at hresult
  cases result with
  | error err => cases hresult
  | ok status =>
    cases hresult
    exact ⟨t, hlast⟩

/-! ## The limit on the depth -/

/-- Nodes there is room for below a node at this depth, where none may be deeper than the limit. -/
def roomBelow (limit depth : ℕ) : ℕ := 2 ^ (limit - depth + 1) - 2

/-- Two children have the room below them that their parent had, but for themselves. -/
theorem roomBelow_eq {limit depth : ℕ} (h : depth < limit) :
    roomBelow limit depth = 2 + (roomBelow limit (depth + 1) + roomBelow limit (depth + 1)) := by
  unfold roomBelow
  obtain ⟨k, rfl⟩ := Nat.exists_eq_add_of_lt h
  have hparent : depth + k + 1 - depth + 1 = k + 2 := by omega
  have hchild : depth + k + 1 - (depth + 1) + 1 = k + 1 := by omega
  rw [hparent, hchild, pow_succ 2 (k + 1)]
  have hpos : 2 ≤ 2 ^ (k + 1) := by
    rw [pow_succ]
    have := Nat.one_le_two_pow (n := k)
    omega
  omega

/-- No node is deeper than the limit, and with the room below the open nodes there is no more than a
full tree of that depth has. -/
structure Shallow (limit : ℕ) (tree : Tree α) (entries : List (Entry α)) : Prop where
  depth_le : ∀ {k node}, tree.get? k = some node → node.depth ≤ limit
  room : tree.size + (entries.map fun d => roomBelow limit (tree.depthOf d.node)).sum + 1
    ≤ 2 ^ (limit + 1)

namespace Shallow

omit [Scalar α]

variable {limit : ℕ} {tree tree' tree'' : Tree α} {entries : List (Entry α)} {e : Entry α}

theorem modify {g : Node α → Node α} {id : ℕ} (h : Shallow limit tree entries)
    (hg : KeepsPlace g) : Shallow limit (tree.modify id g) entries where
  depth_le hk := by
    obtain ⟨before, hbefore, -, -, hdepth, -⟩ := Tree.exists_of_keepsPlace hg hk
    rw [hdepth]
    exact h.depth_le hbefore
  room := by
    rw [Tree.size_modify, Tree.depthOf_modify hg]
    exact h.room

/-- The room below a node that is no longer open is free. -/
theorem close (h : Shallow limit tree (e :: entries)) : Shallow limit tree entries where
  depth_le := h.depth_le
  room := by
    have hroom := h.room
    rw [List.map_cons, List.sum_cons] at hroom
    omega

/-- A node above the limit may get two open children. -/
theorem split [Scalar α] {taken : List (Entry α)} {f : Frontier α} {node : Node α} {b c : Branch α}
    (priority priority' bound : α) (h : Shallow limit tree (e :: f.entries))
    (hplaced : Placed (taken ++ [e]) tree f) (hnode : tree.get? e.node = some node)
    (hdepth : node.depth < limit) (hdown : tree.addChild? e.node b = some tree')
    (hup : tree'.addChild? e.node c = some tree'') :
    Shallow limit tree''
      ((f.push tree.size priority bound).push (tree.size + 1) priority' bound).entries where
  depth_le {k child} hk := by
    rw [Tree.get?_children hnode hdown hup] at hk
    split at hk
    · cases hk
      exact hdepth
    · split at hk
      · cases hk
        exact hdepth
      · exact h.depth_le hk
  room := by
    have hroom := h.room
    have hold : (f.entries.map fun d => roomBelow limit (tree''.depthOf d.node))
        = f.entries.map fun d => roomBelow limit (tree.depthOf d.node) := by
      apply List.map_congr_left
      intro d hd
      rw [Tree.depthOf_children_of_lt hnode hdown hup (hplaced.lt_size hd)]
    obtain ⟨hfirst, hsecond⟩ := Tree.depthOf_children hnode hdown hup
    rw [List.map_cons, List.sum_cons, Tree.depthOf_eq hnode, roomBelow_eq hdepth] at hroom
    simp only [Frontier.push, List.map_append, List.sum_append, hold, List.map_cons, List.map_nil,
      List.sum_cons, List.sum_nil, hfirst, hsecond, Tree.size_children hdown hup]
    omega

end Shallow

/-- A turn keeps the tree within the limit, as nodes at the limit are not branched on. -/
theorem Shallow.takesUp {ctx : Context σ α} {limit : ℕ} {taken : List (Entry α)} {s t : State σ α}
    {e : Entry α} {rest : Frontier α} (h : Shallow limit s.tree s.frontier.entries)
    (hlimit : ctx.depthLimit = some limit) (hplaced : Placed taken s.tree s.frontier)
    (htakes : TakesUp ctx e rest s t) : Shallow limit t.tree t.frontier.entries := by
  obtain ⟨hplaced', ⟨node, hnode, -⟩, -⟩ := hplaced.pop htakes.pop?
  have hperm := hplaced.numbered.perm_pop? hplaced.nodup_entries htakes.pop?
  have hopen : Shallow limit s.tree (e :: rest.entries) := by
    refine ⟨h.depth_le, ?_⟩
    rw [(hperm.map fun d => roomBelow limit (s.tree.depthOf d.node)).sum_eq]
    exact h.room
  have hturn := htakes.dealt.turn (s := { s with frontier := rest }) hnode
  cases hturn.grows with
  | @stays g hg htree hfrontier =>
    have htree' : t.tree = s.tree.modify e.node g := htree
    have hfrontier' : t.frontier = rest := hfrontier
    rw [htree', hfrontier']
    exact hopen.close.modify hg
  | @splits g node' c table tree down up bound hg hnode' hpriorities hdown hup hfrontier hdepth =>
    have hup' : tree.addChild? e.node c.up = some t.tree := hup
    have hsize : t.tree.size = (s.tree.modify e.node g).size + 2 := Tree.size_children hdown hup'
    have hfrontier' : t.frontier = (rest.push (s.tree.modify e.node g).size down bound).push
        ((s.tree.modify e.node g).size + 1) up bound := by
      rw [Tree.size_modify]
      exact hfrontier
    -- a node that gets children is above the limit
    have hgrown : s.tree.size < t.tree.size := by
      rw [hsize, Tree.size_modify]
      omega
    obtain ⟨asked, box, a, scoring, hasked, -, -, hdeep⟩ := htakes.dealt.expanded hgrown
    have habove : node'.depth < limit := by
      obtain ⟨before, hbefore, -, -, hsame, -⟩ := Tree.exists_of_keepsPlace hg hnode'
      cases hasked.get?.symm.trans hbefore
      unfold Context.tooDeep at hdeep
      rw [hlimit, Option.any_some, decide_eq_false_iff_not] at hdeep
      omega
    rw [hfrontier']
    exact (hopen.modify hg).split down up bound (hplaced'.modify hg) hnode' habove hdown hup'

theorem shallow_initial (ctx : Context σ α) (backend : σ) (limit : ℕ) :
    Shallow limit (initial ctx backend).tree (initial ctx backend).frontier.entries where
  depth_le {k node} hk := by
    have hlt : k < 1 := Tree.get?_lt_size hk
    obtain rfl : k = 0 := by omega
    cases hk
    exact Nat.zero_le _
  room := by
    show 1 + (roomBelow limit 0 + 0) + 1 ≤ _
    have hpos := Nat.one_le_two_pow (n := limit)
    unfold roomBelow
    rw [Nat.sub_zero, pow_succ]
    omega

/-- Trees stay within the depth limit. -/
theorem shallow_of_run {ctx : Context σ α} {limit : ℕ} (hlimit : ctx.depthLimit = some limit)
    (backend : σ) (n : ℕ) :
    Shallow limit ((Phase.running (initial ctx backend)).advance ctx n).state.tree
      ((Phase.running (initial ctx backend)).advance ctx n).state.frontier.entries :=
  (holds_of_search (P := fun _ s => Shallow limit s.tree s.frontier.entries)
    (fun hnarrated hs htakes => hs.takesUp hlimit hnarrated.orderly.placed htakes)
    (shallow_initial ctx backend limit) n).2

/-! ## Every search -/

/-- Every search ends, whatever its backend answers: it creates at most two nodes for each one that
it processes, and processes no more than its limit. Where a limit on the depth is in effect, no node
is deeper, the tree is no larger than a full one of that depth, and this alone ends the search: a
limit on the nodes that leaves room for the full tree is never what stops it. -/
theorem search_ends (ctx : Context σ α) (backend : σ) :
    EndsWithin ctx (initial ctx backend) (stepBound ctx.settings) ∧
    (∀ n s, ((Phase.running (initial ctx backend)).advance ctx n).state = s →
      s.tree.size ≤ 1 + 2 * s.processed ∧ s.processed ≤ ctx.settings.maxNodes) ∧
    ∀ limit, ctx.depthLimit = some limit →
      (∀ n s, ((Phase.running (initial ctx backend)).advance ctx n).state = s →
        (∀ id node, s.tree.get? id = some node → node.depth ≤ limit) ∧
        s.tree.size ≤ 2 ^ (limit + 1) - 1) ∧
      EndsWithin ctx (initial ctx backend) (2 ^ (limit + 1)) ∧
      (2 ^ (limit + 1) - 1 ≤ ctx.settings.maxNodes → ∀ sol,
        (search ctx backend).result = .ok sol → sol.status ≠ .nodeLimit) := by
  refine ⟨endsWithin_stepBound ctx backend, ?_, ?_⟩
  · rintro n s rfl
    have hbudgeted := budgeted_of_run ctx backend n
    exact ⟨hbudgeted.size_le, hbudgeted.processed_le⟩
  · intro limit hlimit
    have hshallow := shallow_of_run hlimit backend
    have hsize : ∀ n, ((Phase.running (initial ctx backend)).advance ctx n).state.tree.size
        ≤ 2 ^ (limit + 1) - 1 := by
      intro n
      have hroom := (hshallow n).room
      omega
    refine ⟨?_, ?_, ?_⟩
    · rintro n s rfl
      exact ⟨fun id node hnode => (hshallow n).depth_le hnode, hsize n⟩
    · have hends := endsWithin_of_size_le hsize
      rw [Nat.sub_add_cancel Nat.one_le_two_pow] at hends
      exact hends
    · intro hbudget sol hok hstatus
      have hended := ended_of_search_ok hok
      rw [hstatus] at hended
      obtain ⟨s, hended⟩ := hended
      have hmore := maxNodes_lt_size hended
      have hfull := hsize (stepBound ctx.settings)
      rw [hended] at hfull
      have hfull' : s.tree.size ≤ 2 ^ (limit + 1) - 1 := hfull
      omega

/-- The search for the largest whole number whose double is within a limit, with a limit on the
depth. -/
def levelContext (b : ℚ) (limit : ℕ) : Context Unit ExtRat :=
  { doubledContext b with
    settings := { Settings.standard.generalInteger with depthLimit := some limit } }

/-- Where the root alone may be branched on, there are three nodes, as many as a full tree has. -/
theorem search_ends_level :
    (search (levelContext 3 1) ()).state.tree.size = 3 ∧
      EndsWithin (levelContext 3 1) (initial (levelContext 3 1) ()) 4 ∧
      ∀ sol, (search (levelContext 3 1) ()).result = .ok sol → sol.status ≠ .nodeLimit := by
  obtain ⟨-, -, hlimited⟩ := search_ends (levelContext 3 1) ()
  obtain ⟨-, hends, hunlimited⟩ := hlimited 1 rfl
  exact ⟨by decide +kernel, hends, hunlimited (by decide +kernel)⟩

end Search

end BranchBound
