import BranchBound.Proofs.Search.BestFirst
import BranchBound.Proofs.Search.Exhaustive
import BranchBound.Proofs.Search.History
import BranchBound.Proofs.Search.Observations

/-!
# The order of an enumeration

Where every node is looked at, the keys of children come from the incumbent of their time and not
from their relaxations. As long as there is no incumbent all keys are the same, and nodes are taken
up in the order in which they were added. Later on a child that was added under a better incumbent
overtakes older nodes that are still open, and by estimates so does one with a smaller predicted
loss. Nothing else changes the order.

* `Round.opened`, `everOpen`: the nodes that a round adds, and all that were ever added.
* `Opens`, `opens_of_dealt`: what a visit adds to the open nodes.
* `Priced`: where the keys come from.
* `Sequenced`, `sequenced_of_run`: a node is taken up before all that were added later, except those
  with smaller keys.
* `Tells`, `updated_of_run`: the events tell the nodes in the order in which they were taken up, and
  all of them unless the visit of the last one failed.
* `onTable_rounds`: what holds of the pseudocosts whenever nodes are added.
* `enumeration_order`: which order the events of an enumeration tell.
* `enumeration_out_of_order`: two runs that leave the order of addition.
-/

namespace BranchBound

open Relaxation

variable {σ α : Type}

/-! ## Lists in order -/

section Lists

variable {β : Type} {u l : List β} {x y : β}

/-- Two elements that stand in this order stand so in any beginning that has the second one. -/
theorem sublist_of_isPrefix (hnodup : l.Nodup) (hbegin : u <+: l) (hy : y ∈ u)
    (h : [x, y].Sublist l) : [x, y].Sublist u := by
  obtain ⟨v, rfl⟩ := hbegin
  obtain ⟨p, q, hpair, hp, hq⟩ := List.sublist_append_iff.mp h
  cases q with
  | nil =>
    rw [List.append_nil] at hpair
    rw [hpair]
    exact hp
  | cons z q =>
    -- the second one would stand behind the beginning as well
    have hlast : (p ++ z :: q).getLast? = some y := by
      rw [← hpair]
      rfl
    rw [List.getLast?_append_of_ne_nil _ (List.cons_ne_nil z q)] at hlast
    have hbehind : y ∈ v := hq.subset (List.mem_of_getLast? hlast)
    exact absurd rfl ((List.nodup_append.mp hnodup).2.2 y hy y hbehind)

/-- Numbers that each stand behind all smaller ones are the first ones in their order. -/
theorem eq_range_of_sublist {l : List ℕ} (hnodup : l.Nodup)
    (h : ∀ k ∈ l, ∀ j < k, [j, k].Sublist l) : l = List.range l.length := by
  induction l using List.reverseRecOn with
  | nil => rfl
  | append_singleton l k ih =>
    have hbegin : l <+: l ++ [k] := List.prefix_append l [k]
    obtain ⟨hl, -, hdisjoint⟩ := List.nodup_append.mp hnodup
    have hk : k ∉ l := fun hmem => hdisjoint k hmem k (List.mem_singleton.mpr rfl) rfl
    have hrange : l = List.range l.length := by
      apply ih hl
      intro i hi j hj
      exact sublist_of_isPrefix hnodup hbegin hi (h i (hbegin.subset hi) j hj)
    have hlast : ∀ j < k, j ∈ l := by
      intro j hj
      have hmem := (h k (by simp) j hj).subset List.mem_cons_self
      rcases List.mem_append.mp hmem with hmem | hmem
      · exact hmem
      · exact absurd (List.mem_singleton.mp hmem) (Nat.ne_of_lt hj)
    have hge : l.length ≤ k := by
      rw [hrange, List.mem_range] at hk
      exact Nat.le_of_not_lt hk
    have hle : ¬ l.length < k := by
      intro hlt
      have hmem := hlast l.length hlt
      rw [hrange, List.mem_range, List.length_range] at hmem
      exact Nat.lt_irrefl _ hmem
    rw [List.length_append, List.length_singleton, List.range_succ, ← hrange]
    congr 2
    omega

end Lists

/-- Two children are reached by the branches they were added with. -/
theorem Tree.branch_children {t u v : Tree α} {id : ℕ} {node : Node α} {b c : Branch α}
    (hnode : t.get? id = some node) (hu : t.addChild? id b = some u)
    (hv : u.addChild? id c = some v) :
    (v.get? t.size).bind Node.branch = some b ∧
      (v.get? (t.size + 1)).bind Node.branch = some c := by
  constructor
  · rw [get?_children hnode hu hv, if_neg (Nat.ne_of_lt (Nat.lt_succ_self _)), if_pos rfl]
    rfl
  · rw [get?_children hnode hu hv, if_pos rfl]
    rfl

namespace Search

/-! ## What a round adds -/

/-- The nodes that a round adds to the open ones, in order. -/
def Round.opened (r : Round σ α) : List (Entry α) :=
  r.after.frontier.entries.drop r.before.frontier.entries.length

/-- The nodes that the events update, in order. -/
def State.updated (s : State σ α) : List ℕ := s.events.toList.filterMap Event.updated?

variable [Scalar α]

/-- All nodes that were ever added to the open ones, in order: the root, and then what each round
added. -/
def everOpen (done : List (Round σ α)) : List (Entry α) :=
  ⟨0, -Scalar.infinity, 0, Scalar.infinity⟩ :: done.flatMap Round.opened

theorem everOpen_snoc (done : List (Round σ α)) (r : Round σ α) :
    everOpen (done ++ [r]) = everOpen done ++ r.opened := by
  simp [everOpen]

/-- What a visit adds to the open nodes: nothing, or the two children of a node at a fractional
value. -/
inductive Opens (ctx : Context σ α) (s t : State σ α) : Prop
  | nothing (hfrontier : t.frontier = s.frontier) (hsize : t.tree.size = s.tree.size)
  | children {c : Candidate α} {depth : ℕ} {relax bound down up : α}
      (hbound : bound = childBound ctx s.incumbent.objective relax)
      (hfraction : Problem.fractionalTol < Scalar.fractionality c.value)
      (hpriorities : childPriorities? ctx.settings.selection t.scoring.table depth bound c
        = some (down, up))
      (hdown : (t.tree.get? s.tree.size).bind Node.branch = some c.down)
      (hup : (t.tree.get? (s.tree.size + 1)).bind Node.branch = some c.up)
      (hfrontier : t.frontier
        = (s.frontier.push s.tree.size down bound).push (s.tree.size + 1) up bound)
      (hsize : t.tree.size = s.tree.size + 2)

section Opens

variable {ctx : Context σ α} {s t : State σ α} {e : Entry α}

theorem opens_of_visits (h : Visits ctx e.node e.bound s t) : Opens ctx s t := by
  cases h with
  | pruned hnode hclosed => exact .nothing rfl (Tree.size_modify _ _ _)
  | infeasible hasked hnot journal => exact .nothing rfl (Tree.size_modify _ _ _)
  | @integer node box a scoring learned hasked hoptimal hlearns hinteger journal =>
    have hcore := core_offer ((s.solved node learned).record e.node node.depth .integer a.objective
      none) e.node a.x a.objective
    refine .nothing (congrArg Core.frontier hcore) ?_
    have htree : State.tree (State.offer _ _ _ _) = s.tree.modify e.node _ :=
      congrArg Core.tree hcore
    show (State.tree (State.offer _ _ _ _)).size = _
    rw [htree, Tree.size_modify]
  | fathomed hasked hoptimal hlearns hinteger hclosed hinfeasibility journal =>
    exact .nothing rfl (Tree.size_modify _ _ _)
  | @branched node box a scoring learned chosen c down up first last hasked hoptimal hlearns
      hinteger hopen hdepth infeasibility hinfeasibility noted hselect hpriorities hdown hup
      journal =>
    obtain ⟨fs, hfs, hc⟩ := Scoring.fraction_mem_of_runs_select hselect
    obtain ⟨-, -, hfraction⟩ := Problem.fractional?_spec hfs hc
    have htable : last.scoring.table = chosen.table := by
      rw [scoring_of_addChild? hup, scoring_of_addChild? hdown]
      rfl
    obtain ⟨tree, htree, tree', htree', hledger⟩ := ledger_of_addChild? hdown hup
    have hlast : last.tree = tree' := congrArg (fun ledger => ledger.tree) hledger
    have hfrontier : last.frontier = _ := congrArg (fun ledger => ledger.frontier) hledger
    have hrecorded := get?_recorded s.core e.node a.objective .candidate (some infeasibility)
      hasked.get?
    have hsize := size_recorded s.core e.node a.objective .candidate (some infeasibility)
    have hbranches := Tree.branch_children hrecorded htree htree'
    rw [hsize] at hbranches
    refine .children rfl hfraction (htable ▸ hpriorities) ?_ ?_ ?_ ?_
    · show (last.tree.get? s.tree.size).bind Node.branch = _
      rw [hlast]
      exact hbranches.1
    · show (last.tree.get? (s.tree.size + 1)).bind Node.branch = _
      rw [hlast]
      exact hbranches.2
    · show last.frontier = _
      rw [hfrontier, ledger_record]
      exact congrArg (fun size => (s.frontier.push size down _).push (size + 1) up _) hsize
    · show last.tree.size = _
      rw [hlast]
      exact (Tree.size_children htree htree').trans (congrArg (· + 2) hsize)

/-- A visit that fails adds nothing, unless it was over. -/
theorem opens_of_dealt (h : Dealt ctx e s t) : Opens ctx s t := by
  cases h with
  | visits hvisits => exact opens_of_visits hvisits
  | breaks hbreaks =>
    cases hbreaks with
    | missing hmissing => exact .nothing rfl rfl
    | unsolved hnode err scoring => exact .nothing rfl rfl
    | unbranched hasked hoptimal hlearns infeasibility err last =>
      exact .nothing rfl (Tree.size_modify _ _ _)
    | unreported hvisits => exact opens_of_visits hvisits

/-- New nodes stand behind the open ones and have the next numbers. -/
theorem Opens.exists_new (h : Opens ctx s t) (hadded : s.frontier.added = s.tree.size) :
    ∃ new, t.frontier.entries = s.frontier.entries ++ new ∧
      List.range t.tree.size = List.range s.tree.size ++ new.map Entry.node ∧
      ∀ d ∈ new, d.serial = d.node := by
  cases h with
  | nothing hfrontier hsize =>
    refine ⟨[], ?_, ?_, nofun⟩
    · rw [hfrontier, List.append_nil]
    · rw [hsize, List.map_nil, List.append_nil]
  | @children c depth relax bound down up hbound hfraction hpriorities hdown hup hfrontier hsize =>
    refine ⟨[⟨s.tree.size, down, s.tree.size, bound⟩,
      ⟨s.tree.size + 1, up, s.tree.size + 1, bound⟩], ?_, ?_, ?_⟩
    · rw [hfrontier]
      simp [Frontier.push, hadded]
    · rw [hsize, List.range_succ, List.range_succ]
      simp
    · simp

end Opens

/-! ## Keys -/

/-- The two children that a round adds with these keys. Their bound is below the incumbent of that
time. -/
def Round.children (r : Round σ α) (down up : α) : List (Entry α) :=
  [⟨r.before.tree.size, down, r.before.tree.size, r.before.incumbent.objective - 1⟩,
    ⟨r.before.tree.size + 1, up, r.before.tree.size + 1, r.before.incumbent.objective - 1⟩]

/-- Where the keys of the nodes added by a round come from. -/
inductive Priced (ctx : Context σ α) (r : Round σ α) : Prop
  | nothing (hopened : r.opened = [])
  /-- Best first, the keys of both children are the negative of their bound. -/
  | best (hselection : ctx.settings.selection = .bestFirst)
      (hopened : r.opened = r.children (-(r.before.incumbent.objective - 1))
        (-(r.before.incumbent.objective - 1)))
  /-- By estimates, the loss predicted for the branch to a child is added. -/
  | estimate {c : Candidate α} {down up : α} (hselection : ctx.settings.selection = .bestEstimate)
      (hfraction : Problem.fractionalTol < Scalar.fractionality c.value)
      (hdown : (r.after.tree.get? r.before.tree.size).bind Node.branch = some c.down)
      (hup : (r.after.tree.get? (r.before.tree.size + 1)).bind Node.branch = some c.up)
      (hgains : r.after.scoring.table.gains? c.var c.value = some (down, up))
      (hopened : r.opened = r.children (-(r.before.incumbent.objective - 1) + down)
        (-(r.before.incumbent.objective - 1) + up))

theorem Opens.priced {ctx : Context σ α} {r : Round σ α} (h : Opens ctx r.before r.after)
    (hall : ctx.settings.enumerateAll = true) (hselection : ctx.settings.selection ≠ .depthFirst)
    (hadded : r.before.frontier.added = r.before.tree.size) : Priced ctx r := by
  cases h with
  | nothing hfrontier hsize =>
    refine .nothing ?_
    rw [Round.opened, hfrontier, List.drop_length]
  | @children c depth relax bound down up hbound hfraction hpriorities hdown hup hfrontier hsize =>
    rw [childBound, if_pos hall] at hbound
    subst hbound
    have hopened : r.opened = r.children down up := by
      rw [Round.opened, hfrontier]
      simp [Frontier.push, Round.children, hadded]
    cases hsel : ctx.settings.selection with
    | depthFirst => exact absurd hsel hselection
    | bestFirst =>
      rw [hsel] at hpriorities
      cases hpriorities
      exact .best hsel hopened
    | bestEstimate =>
      rw [hsel] at hpriorities
      obtain ⟨⟨gain, gain'⟩, hgains, hkeys⟩ := Option.map_eq_some_iff.mp hpriorities
      cases hkeys
      exact .estimate hsel hfraction hdown hup hgains hopened

/-! ## Who comes first -/

/-- An entry that comes before another one has a smaller key, or the same and an earlier place. -/
theorem lt_or_of_before {a b : Entry α} (h : a.before b = true) :
    Scalar.totalCompare a.priority b.priority = .lt ∨
      Scalar.totalCompare a.priority b.priority = .eq ∧ a.serial < b.serial := by
  unfold Entry.before at h
  cases hcompare : Scalar.totalCompare a.priority b.priority with
  | lt => exact .inl rfl
  | eq =>
    rw [hcompare] at h
    exact .inr ⟨rfl, of_decide_eq_true h⟩
  | gt =>
    rw [hcompare] at h
    cases h

/-- The nodes added so far have their numbers in order, their keys come from the incumbents, and
those taken up came before all that were open then. So a node was taken up before one that was added
later, unless the later one had a smaller key. -/
structure Sequenced (ctx : Context σ α) (done : List (Round σ α)) (s : State σ α) : Prop where
  nodes : (everOpen done).map Entry.node = List.range s.tree.size
  serial : ∀ d ∈ everOpen done, d.serial = d.node
  opened : ∀ d ∈ s.frontier.entries, d ∈ everOpen done
  taken : ∀ r ∈ done, r.entry ∈ everOpen done
  priced : ∀ r ∈ done, Priced ctx r
  least : ∀ r ∈ done, ∀ d ∈ r.before.frontier.entries,
    d ∈ everOpen done ∧ r.entry.before d = true
  order : ∀ d ∈ everOpen done, ∀ r ∈ done, d.node < r.entry.node →
    [d, r.entry].Sublist (done.map Round.entry) ∨
      Scalar.totalCompare r.entry.priority d.priority = .lt

section Sequenced

variable {ctx : Context σ α} {done : List (Round σ α)} {s t : State σ α} {e : Entry α}
  {rest : Frontier α}

namespace Sequenced

theorem nodup (h : Sequenced ctx done s) : ((everOpen done).map Entry.node).Nodup := by
  rw [h.nodes]
  exact List.nodup_range

theorem node_lt (h : Sequenced ctx done s) {d : Entry α} (hd : d ∈ everOpen done) :
    d.node < s.tree.size := by
  rw [← List.mem_range, ← h.nodes]
  exact List.mem_map_of_mem hd

/-- A node that was added is open, or it was taken up. -/
theorem open_or_taken (h : Sequenced ctx done s)
    (hplaced : Placed (done.map Round.entry) s.tree s.frontier) {d : Entry α}
    (hd : d ∈ everOpen done) : d ∈ s.frontier.entries ∨ d ∈ done.map Round.entry := by
  have hmem : d.node ∈ (done.map Round.entry ++ s.frontier.entries).map Entry.node :=
    hplaced.perm.mem_iff.mpr (List.mem_range.mpr (h.node_lt hd))
  obtain ⟨c, hc, hnode⟩ := List.mem_map.mp hmem
  -- entries with one number are the same, so it is this one that was found
  rcases List.mem_append.mp hc with hc | hc
  · obtain ⟨r, hr, rfl⟩ := List.mem_map.mp hc
    rw [← List.inj_on_of_nodup_map h.nodup (h.taken r hr) hd hnode]
    exact .inr hc
  · rw [← List.inj_on_of_nodup_map h.nodup (h.opened c hc) hd hnode]
    exact .inl hc

variable [Std.TransCmp (Scalar.totalCompare : α → α → Ordering)]

/-- The next node was added before all that are open, except those with larger keys. -/
theorem order_next (h : Sequenced ctx done s)
    (hplaced : Placed (done.map Round.entry) s.tree s.frontier)
    (hpop : s.frontier.pop? = some (e, rest)) {d : Entry α} (hd : d ∈ everOpen done)
    (hlt : d.node < e.node) :
    [d, e].Sublist (done.map Round.entry ++ [e]) ∨
      Scalar.totalCompare e.priority d.priority = .lt := by
  obtain ⟨he, -⟩ := Frontier.pop?_eq_some hpop
  rcases h.open_or_taken hplaced hd with hopen | htaken
  · right
    have hne : d ≠ e := fun heq => absurd (congrArg Entry.node heq) (Nat.ne_of_lt hlt)
    have hleft : d ∈ rest.entries :=
      List.mem_of_ne_of_mem hne (((hplaced.numbered.pop? hpop).2 d).mp hopen)
    rcases lt_or_of_before (Frontier.before_of_pop? hpop d hleft) with hkey | ⟨-, hserial⟩
    · exact hkey
    · rw [h.serial e (h.opened e he), h.serial d hd] at hserial
      exact absurd hserial (Nat.not_lt_of_gt hlt)
  · exact .inl ((List.singleton_sublist.mpr htaken).append (List.Sublist.refl [e]))

/-- A round keeps the order. -/
theorem round (hall : ctx.settings.enumerateAll = true)
    (hselection : ctx.settings.selection ≠ .depthFirst) (h : Sequenced ctx done s)
    (hplaced : Placed (done.map Round.entry) s.tree s.frontier)
    (htakes : TakesUp ctx e rest s t) :
    Sequenced ctx (done ++ [⟨e, { s with frontier := rest }, t⟩]) t := by
  obtain ⟨he, -, hadded, -⟩ := Frontier.pop?_eq_some htakes.pop?
  have hopens := opens_of_dealt (s := { s with frontier := rest }) htakes.dealt
  have hserial : rest.added = s.tree.size := hadded.trans hplaced.added
  have hpriced := hopens.priced (r := ⟨e, { s with frontier := rest }, t⟩) hall hselection hserial
  obtain ⟨new, hentries, hrange, hnumbers⟩ := hopens.exists_new hserial
  have hopened : (⟨e, { s with frontier := rest }, t⟩ : Round σ α).opened = new := by
    rw [Round.opened, hentries, List.drop_left]
  have hever : everOpen (done ++ [⟨e, { s with frontier := rest }, t⟩]) = everOpen done ++ new := by
    rw [everOpen_snoc, hopened]
  have hleft : ∀ d ∈ rest.entries, d ∈ everOpen done := by
    intro d hd
    apply h.opened d
    exact ((hplaced.numbered.pop? htakes.pop?).2 d).mpr (List.mem_cons_of_mem e hd)
  -- numbers of new nodes are above all others
  have hnew : ∀ d ∈ new, s.tree.size ≤ d.node := by
    intro d hd
    have hnodup : (List.range t.tree.size).Nodup := List.nodup_range
    rw [hrange] at hnodup
    by_contra hlt
    exact (List.nodup_append.mp hnodup).2.2 d.node (List.mem_range.mpr (Nat.lt_of_not_le hlt))
      d.node (List.mem_map_of_mem hd) rfl
  constructor
  case nodes => rw [hever, List.map_append, h.nodes, hrange]
  case serial =>
    rw [hever]
    exact List.forall_mem_append.mpr ⟨h.serial, hnumbers⟩
  case opened =>
    intro d hd
    rw [hentries] at hd
    rw [hever, List.mem_append]
    exact (List.mem_append.mp hd).imp_left (hleft d)
  case taken =>
    rw [hever]
    refine List.forall_mem_append.mpr ⟨fun r hr => ?_, fun r hr => ?_⟩
    · exact List.mem_append_left _ (h.taken r hr)
    · rw [List.mem_singleton.mp hr]
      exact List.mem_append_left _ (h.opened e he)
  case priced =>
    refine List.forall_mem_append.mpr ⟨h.priced, fun r hr => ?_⟩
    rw [List.mem_singleton.mp hr]
    exact hpriced
  case least =>
    rw [hever]
    refine List.forall_mem_append.mpr ⟨fun r hr d hd => ?_, fun r hr d hd => ?_⟩
    · obtain ⟨hmem, hbefore⟩ := h.least r hr d hd
      exact ⟨List.mem_append_left _ hmem, hbefore⟩
    · rw [List.mem_singleton.mp hr] at hd ⊢
      exact ⟨List.mem_append_left _ (hleft d hd), Frontier.before_of_pop? htakes.pop? d hd⟩
  case order =>
    have hnode : ∀ r ∈ done ++ [⟨e, { s with frontier := rest }, t⟩],
        r.entry.node < s.tree.size := by
      refine List.forall_mem_append.mpr ⟨fun r hr => h.node_lt (h.taken r hr), fun r hr => ?_⟩
      rw [List.mem_singleton.mp hr]
      exact h.node_lt (h.opened e he)
    intro d hd r hr hlt
    rw [hever] at hd
    rw [List.map_append]
    rcases List.mem_append.mp hd with hd | hd
    · rcases List.mem_append.mp hr with hr | hr
      · refine (h.order d hd r hr hlt).imp_left fun hsublist => ?_
        exact hsublist.trans (List.sublist_append_left _ _)
      · rw [List.mem_singleton.mp hr] at hlt ⊢
        exact h.order_next hplaced htakes.pop? hd hlt
    · have hge := hnew d hd
      have hbelow := hnode r hr
      omega

end Sequenced

theorem sequenced_initial (ctx : Context σ α) (backend : σ) :
    Sequenced ctx [] (initial ctx backend) where
  nodes := rfl
  serial d hd := by
    rw [List.mem_singleton.mp hd]
  opened d hd := hd
  taken r hr := absurd hr List.not_mem_nil
  priced r hr := absurd hr List.not_mem_nil
  least r hr := absurd hr List.not_mem_nil
  order d hd r hr := absurd hr List.not_mem_nil

/-- At all times of a search, nodes are taken up in the order in which they were added, except where
a later one has a smaller key. -/
theorem sequenced_of_run [Std.TransCmp (Scalar.totalCompare : α → α → Ordering)]
    (hall : ctx.settings.enumerateAll = true) (hselection : ctx.settings.selection ≠ .depthFirst)
    (backend : σ) (n : ℕ) :
    Narrated ctx ((rounds ctx n (initial ctx backend)).map Round.entry)
        ((Phase.running (initial ctx backend)).advance ctx n).state.ledger ∧
      Sequenced ctx (rounds ctx n (initial ctx backend))
        ((Phase.running (initial ctx backend)).advance ctx n).state :=
  holds_of_search (P := Sequenced ctx)
    (fun hnarrated hs htakes => hs.round hall hselection hnarrated.orderly.placed htakes)
    (sequenced_initial ctx backend) n

end Sequenced

/-! ## What the events tell -/

section Updated

variable {ctx : Context σ α} {s t : State σ α} {e : Entry α}

/-- A visit tells of its node. -/
theorem updated_of_visits (h : Visits ctx e.node e.bound s t) :
    t.updated = s.updated ++ [e.node] := by
  cases h with
  | pruned hnode hclosed =>
    simp [State.updated, State.prune, State.emit, State.note, Event.updated?]
  | infeasible hasked hnot journal =>
    simp [State.updated, State.withJournal, State.closeInfeasible, State.emit, State.note,
      State.solved, State.enter, Event.updated?]
  | integer hasked hoptimal hlearns hinteger journal =>
    unfold State.updated State.withJournal State.offer
    split
    · simp [State.record, State.emit, State.note, State.solved, State.enter, Event.updated?]
    · simp [State.record, State.emit, State.note, State.solved, State.enter, Event.updated?]
  | fathomed hasked hoptimal hlearns hinteger hclosed hinfeasibility journal =>
    simp [State.updated, State.withJournal, State.record, State.emit, State.note, State.solved,
      State.enter, Event.updated?]
  | branched hasked hoptimal hlearns hinteger hopen hdepth hinfeasibility hselect hpriorities hdown
      hup journal =>
    obtain ⟨tree, -, rfl⟩ := Option.map_eq_some_iff.mp hdown
    obtain ⟨tree', -, rfl⟩ := Option.map_eq_some_iff.mp hup
    simp [State.updated, State.withJournal, State.record, State.emit, State.note, State.solved,
      State.enter, Event.updated?]

/-- A visit that fails tells of its node, or of none. -/
theorem updated_of_dealt (h : Dealt ctx e s t) :
    t.updated = s.updated ∨ t.updated = s.updated ++ [e.node] := by
  cases h with
  | visits hvisits => exact .inr (updated_of_visits hvisits)
  | breaks hbreaks =>
    cases hbreaks with
    | missing hmissing => exact .inl rfl
    | unsolved hnode err scoring => exact .inl rfl
    | unbranched hasked hoptimal hlearns infeasibility err last =>
      right
      simp [State.updated, State.record, State.emit, State.note, State.solved, State.enter,
        Event.updated?]
    | unreported hvisits => exact .inr (updated_of_visits hvisits)

/-- The nodes that events tell of are those of the rounds, in order. Only the last one may be
missing, and only if its visit failed. -/
inductive Tells (ctx : Context σ α) (done : List (Round σ α)) (told : List ℕ) : Prop
  | all (htold : told = done.map fun r => r.entry.node)
  | allButLast {earlier : List (Round σ α)} {r : Round σ α} {err : SolveError α}
      (hdone : done = earlier ++ [r])
      (hfails : Fails (visit ctx r.entry.node r.entry.bound) r.before err r.after)
      (htold : told = earlier.map fun r => r.entry.node)

section Tells

variable {done : List (Round σ α)} {told : List ℕ}

theorem Tells.isPrefix (h : Tells ctx done told) : told <+: done.map fun r => r.entry.node := by
  cases h with
  | all htold => rw [htold]
  | allButLast hdone hfails htold =>
    rw [htold, hdone, List.map_append]
    exact List.prefix_append _ _

/-- An earlier round whose node is told of changes nothing. -/
theorem Tells.cons (h : Tells ctx done told) (r : Round σ α) :
    Tells ctx (r :: done) (r.entry.node :: told) := by
  cases h with
  | all htold => exact .all (by rw [htold, List.map_cons])
  | @allButLast earlier last _ hdone hfails htold =>
    have hlonger : r :: done = (r :: earlier) ++ [last] := congrArg (r :: ·) hdone
    exact .allButLast hlonger hfails (by rw [htold, List.map_cons])

end Tells

/-- The events of a run tell of the nodes taken up. -/
theorem updated_of_run (ctx : Context σ α) (n : ℕ) (s : State σ α) :
    ∃ told, ((Phase.running s).advance ctx n).state.updated = s.updated ++ told ∧
      Tells ctx (rounds ctx n s) told := by
  induction n generalizing s with
  | zero => exact ⟨[], (List.append_nil _).symm, .all rfl⟩
  | succ n ih =>
    rw [Phase.advance]
    cases hstep : step ctx s with
    | running t =>
      obtain ⟨e, rest, htake⟩ := takes_of_step_running hstep
      obtain ⟨told, htold, htells⟩ := ih t
      have hvisit : t.updated = s.updated ++ [e.node] :=
        updated_of_visits (s := { s with frontier := rest }) (visits_of_runs_visit htake.visit)
      refine ⟨e.node :: told, ?_, ?_⟩
      · rw [htold, hvisit, List.append_assoc, List.singleton_append]
      · rw [rounds_of_running hstep htake.pop?]
        exact htells.cons ⟨e, _, t⟩
    | ended result t =>
      rw [Phase.advance_ended]
      cases result with
      | ok status =>
        obtain ⟨rfl, -⟩ := stopped_of_step_ended hstep
        rw [rounds_of_stopped hstep]
        exact ⟨[], (List.append_nil _).symm, .all rfl⟩
      | error err =>
        obtain ⟨e, rest, hpop, hfails⟩ := fails_of_step_ended hstep
        rw [rounds_of_failed hstep hpop]
        rcases updated_of_dealt (s := { s with frontier := rest })
          (.breaks (breaks_of_fails_visit hfails)) with hsame | htold
        · -- the visit failed before anything was known about its node
          exact ⟨[], hsame.trans (List.append_nil _).symm,
            .allButLast (List.nil_append _).symm hfails rfl⟩
        · exact ⟨[e.node], htold, .all rfl⟩

end Updated

/-! ## What a round has learned -/

/-- What observations keep true of a table is true whenever a run adds nodes. -/
theorem onTable_rounds {P : PseudocostTable α → Prop} {ctx : Context σ α} {s : State σ α}
    (hP : PseudocostTable.Lasting P) (n : ℕ) (hs : P s.scoring.table) :
    ∀ r ∈ rounds ctx n s, r.opened ≠ [] → P r.after.scoring.table := by
  induction n generalizing s with
  | zero => exact fun r hr => absurd hr List.not_mem_nil
  | succ n ih =>
    cases hstep : step ctx s with
    | running t =>
      obtain ⟨e, rest, htake⟩ := takes_of_step_running hstep
      have ht : P t.scoring.table := onTable_visits (s := { s with frontier := rest }) hP
        (visits_of_runs_visit htake.visit) hs
      rw [rounds_of_running hstep htake.pop?]
      exact List.forall_mem_cons.mpr ⟨fun _ => ht, ih ht⟩
    | ended result t =>
      cases result with
      | ok status =>
        rw [rounds_of_stopped hstep]
        exact fun r hr => absurd hr List.not_mem_nil
      | error err =>
        obtain ⟨e, rest, hpop, hfails⟩ := fails_of_step_ended hstep
        rw [rounds_of_failed hstep hpop]
        intro r hr hopened
        rw [List.mem_singleton.mp hr] at hopened ⊢
        -- a visit that failed before its end added nothing
        cases breaks_of_fails_visit hfails with
        | unreported hvisits =>
          exact onTable_visits (s := { s with frontier := rest }) hP hvisits hs
        | _ => exact absurd List.drop_length hopened

/-! ## The order of an enumeration -/

theorem neg_sub_one_lt {a b : ExtRat} (h : -(b - 1) < -(a - 1)) : a < b := by
  by_contra hle
  have hsub : b - 1 ≤ a - 1 := by
    rw [not_lt] at hle
    cases a with
    | negInf =>
      rw [le_antisymm hle (ExtRat.negInf_le b)]
    | posInf => exact ExtRat.le_posInf _
    | fin a =>
      cases b with
      | negInf => exact ExtRat.negInf_le _
      | posInf => exact hle.elim
      | fin b =>
        rw [ExtRat.one_eq_fin, ExtRat.fin_sub, ExtRat.fin_sub, ExtRat.fin_le_fin]
        exact sub_le_sub_right (ExtRat.fin_le_fin.mp hle) 1
  exact not_lt.mpr ((ExtRat.neg_le_neg_iff _ _).mpr hsub) h

/-- How an enumeration goes through its nodes, told by its rounds and by the updates among its
events. -/
structure Enumerates (ctx : Context σ ExtRat) (done : List (Round σ ExtRat)) (updated : List ℕ) :
    Prop where
  /-- The nodes updated are those taken up, in that order; only the last one may be missing, if its
  visit failed. -/
  told : Tells ctx done updated
  /-- Nodes are numbered in the order in which they are added. -/
  numbered : (everOpen done).map Entry.node = List.range (everOpen done).length
  /-- The keys of children come from the incumbent of that time. -/
  priced : ∀ r ∈ done, Priced ctx r
  /-- The node taken up has the least key, and was added first among those that have it. -/
  least : ∀ r ∈ done, ∀ d ∈ r.before.frontier.entries, r.entry.priority < d.priority ∨
    r.entry.priority = d.priority ∧ r.entry.node < d.node
  /-- A node is updated after all that were added before it, unless it has a smaller key. -/
  overtakes : ∀ d ∈ everOpen done, ∀ e ∈ everOpen done, d.node < e.node → e.node ∈ updated →
    [d.node, e.node].Sublist updated ∨ e.priority < d.priority
  /-- Best first, it has a smaller key only if it was added under a better incumbent. -/
  improved : ctx.settings.selection = .bestFirst → ∀ r ∈ done, ∀ r' ∈ done, ∀ d ∈ r.opened,
    ∀ e ∈ r'.opened, d.node < e.node → e.node ∈ updated →
      [d.node, e.node].Sublist updated ∨
        r.before.incumbent.objective < r'.before.incumbent.objective
  /-- As long as children are added without an incumbent, the order is that of addition. -/
  insertion : (∀ r ∈ done, r.opened ≠ [] → r.before.incumbent.objective = -Scalar.infinity) →
    updated = List.range updated.length

section Enumerates

variable {ctx : Context σ ExtRat} {done : List (Round σ ExtRat)} {s : State σ ExtRat}
  {r : Round σ ExtRat} {d : Entry ExtRat}

/-- Best first, the key of a child is the negative of a value below the incumbent. -/
theorem Priced.priority_eq (h : Priced ctx r) (hselection : ctx.settings.selection = .bestFirst)
    (hd : d ∈ r.opened) : d.priority = -(r.before.incumbent.objective - 1) := by
  cases h with
  | nothing hopened =>
    rw [hopened] at hd
    cases hd
  | best hbest hopened =>
    rw [hopened] at hd
    rcases List.mem_cons.mp hd with rfl | hd
    · rfl
    · rw [List.mem_singleton.mp hd]
  | estimate hestimate => cases hselection.symm.trans hestimate

/-- Without an incumbent, finite losses make no difference: the key of a child is infinite. -/
theorem Priced.priority_eq_posInf (h : Priced ctx r)
    (hnone : r.before.incumbent.objective = -Scalar.infinity)
    (htable : r.after.scoring.table.IsFinite) (hd : d ∈ r.opened) : d.priority = .posInf := by
  cases h with
  | nothing hopened =>
    rw [hopened] at hd
    cases hd
  | best hbest hopened =>
    rw [hopened, hnone] at hd
    rcases List.mem_cons.mp hd with rfl | hd
    · rfl
    · rw [List.mem_singleton.mp hd]
      rfl
  | @estimate c down up hestimate hfraction hdown hup hgains hopened =>
    obtain ⟨v, hv, -⟩ := exists_fin_of_fractional hfraction
    have hvalue : Scalar.isFinite c.value = true := by
      rw [hv]
      rfl
    obtain ⟨hfinite, hfinite'⟩ := htable.gains hvalue hgains
    rw [hopened, hnone] at hd
    rcases List.mem_cons.mp hd with rfl | hd
    · rw [← ExtRat.fin_toRat hfinite]
      rfl
    · rw [List.mem_singleton.mp hd, ← ExtRat.fin_toRat hfinite']
      rfl

/-- All of it follows from the order in which nodes are taken up. -/
theorem Sequenced.enumerates (h : Sequenced ctx done s)
    (hplaced : Placed (done.map Round.entry) s.tree s.frontier)
    (htable : ∀ r ∈ done, r.opened ≠ [] → r.after.scoring.table.IsFinite) {updated : List ℕ}
    (htold : Tells ctx done updated) : Enumerates ctx done updated := by
  have hbegin := htold.isPrefix
  have hlength : (everOpen done).length = s.tree.size := by
    have hnodes := congrArg List.length h.nodes
    rwa [List.length_map, List.length_range] at hnodes
  have htaken : (done.map fun r => r.entry.node).Nodup := by
    have hnodup := hplaced.nodup
    rw [List.map_append, List.map_map] at hnodup
    exact (List.nodup_append.mp hnodup).1
  have hovertakes : ∀ d ∈ everOpen done, ∀ e ∈ everOpen done, d.node < e.node →
      e.node ∈ updated → [d.node, e.node].Sublist updated ∨ e.priority < d.priority := by
    intro d hd e he hlt hupdated
    obtain ⟨r, hr, hnode⟩ := List.mem_map.mp (hbegin.subset hupdated)
    obtain rfl := List.inj_on_of_nodup_map h.nodup (h.taken r hr) he hnode
    refine (h.order d hd r hr hlt).imp (fun hsublist => ?_) ExtRat.totalCompare_eq_lt_iff.mp
    have hnodes := hsublist.map Entry.node
    rw [List.map_map] at hnodes
    exact sublist_of_isPrefix htaken hbegin hupdated hnodes
  have hmem : ∀ r ∈ done, ∀ d ∈ r.opened, d ∈ everOpen done := by
    intro r hr d hd
    exact List.mem_cons_of_mem _ (List.mem_flatMap.mpr ⟨r, hr, hd⟩)
  constructor
  case told => exact htold
  case numbered => rw [h.nodes, hlength]
  case priced => exact h.priced
  case least =>
    intro r hr d hd
    obtain ⟨hd, hbefore⟩ := h.least r hr d hd
    rcases lt_or_of_before hbefore with hkey | ⟨hkey, hserial⟩
    · exact .inl (ExtRat.totalCompare_eq_lt_iff.mp hkey)
    · rw [h.serial _ (h.taken r hr), h.serial d hd] at hserial
      refine .inr ⟨le_antisymm ?_ ?_, hserial⟩
      · rw [← not_lt, ← ExtRat.totalCompare_eq_gt_iff, hkey]
        exact Ordering.noConfusion
      · rw [← not_lt, ← ExtRat.totalCompare_eq_lt_iff, hkey]
        exact Ordering.noConfusion
  case overtakes => exact hovertakes
  case improved =>
    intro hselection r hr r' hr' d hd e he hlt hupdated
    refine (hovertakes d (hmem r hr d hd) e (hmem r' hr' e he) hlt hupdated).imp_right ?_
    rw [(h.priced r hr).priority_eq hselection hd, (h.priced r' hr').priority_eq hselection he]
    exact neg_sub_one_lt
  case insertion =>
    intro hnone
    apply eq_range_of_sublist (htaken.sublist hbegin.sublist)
    intro k hk j hj
    obtain ⟨r, hr, rfl⟩ := List.mem_map.mp (hbegin.subset hk)
    have hentry := h.taken r hr
    have hj' : j ∈ (everOpen done).map Entry.node := by
      rw [h.nodes, List.mem_range]
      exact hj.trans (h.node_lt hentry)
    obtain ⟨d, hd, rfl⟩ := List.mem_map.mp hj'
    refine (hovertakes d hd r.entry hentry hj hk).resolve_right ?_
    -- no key is smaller than an infinite one, and only the root has another one
    rcases List.mem_cons.mp hentry with hroot | hchild
    · rw [hroot] at hj
      exact absurd hj (Nat.not_lt_zero _)
    · obtain ⟨r', hr', hopened⟩ := List.mem_flatMap.mp hchild
      have hne := List.ne_nil_of_mem hopened
      rw [(h.priced r' hr').priority_eq_posInf (hnone r' hr' hne) (htable r' hr' hne) hopened]
      exact not_lt.mpr (ExtRat.le_posInf _)

/-- The order of an enumeration, at all times of every search and at its end, whether it ends well
or fails. A node is taken up before all that were added after it, except those with smaller keys.
The key of a child is the negative of a value just below the incumbent of its time, to which
estimates add the loss predicted for its branch. So best first, a node is overtaken only by those
that were added under a better incumbent; and as long as children are added without an incumbent,
nodes are updated in the order of their numbers. -/
theorem enumeration_order (hall : ctx.settings.enumerateAll = true)
    (hselection : ctx.settings.selection ≠ .depthFirst)
    (hfinite : ∀ v ∈ ctx.problem.objective, Scalar.isFinite v = true) (backend : σ) :
    (∀ n, Enumerates ctx (rounds ctx n (initial ctx backend))
      ((Phase.running (initial ctx backend)).advance ctx n).state.updated) ∧
    Enumerates ctx (rounds ctx (stepBound ctx.settings) (initial ctx backend))
      (search ctx backend).state.updated := by
  have htimes : ∀ n, Enumerates ctx (rounds ctx n (initial ctx backend))
      ((Phase.running (initial ctx backend)).advance ctx n).state.updated := by
    intro n
    obtain ⟨hnarrated, hsequenced⟩ := sequenced_of_run hall hselection backend n
    obtain ⟨told, hupdated, htells⟩ := updated_of_run ctx n (initial ctx backend)
    have hstart : (initial ctx backend).scoring.table.IsFinite :=
      PseudocostTable.isFinite_ofObjective hfinite
    have htable : ∀ r ∈ rounds ctx n (initial ctx backend), r.opened ≠ [] →
        r.after.scoring.table.IsFinite :=
      onTable_rounds PseudocostTable.lasting_isFinite n hstart
    refine hsequenced.enumerates hnarrated.orderly.placed htable ?_
    rw [hupdated]
    exact htells
  refine ⟨htimes, ?_⟩
  have hend : (search ctx backend).state.updated
      = ((Phase.running (initial ctx backend)).advance ctx
        (stepBound ctx.settings)).state.updated :=
    congrArg (fun ledger => ledger.events.filterMap Event.updated?) (ledger_search ctx backend)
  rw [hend]
  exact htimes _

end Enumerates

/-! ## Two enumerations out of order -/

/-- A search with the simplex backend that looks at every node and branches on the first fractional
variable. -/
def enumerationContext (p : Problem ExtRat) (selection : NodeSelection) :
    Context (SimplexState ExtRat) ExtRat :=
  ⟨p, (strategy .fixedOrder selection).completeEnumeration, simplex, id⟩

/-- Its run. -/
def enumeration (p : Problem ExtRat) (selection : NodeSelection) :
    Outcome (SimplexState ExtRat) ExtRat :=
  search (enumerationContext p selection) (.new .standard)

theorem solve_eq_enumeration (p : Problem ExtRat) (selection : NodeSelection) :
    solve p (strategy .fixedOrder selection).completeEnumeration id
      = .ok (enumeration p selection) := by
  with_unfolding_all rfl

/-- Three things, of which one or none fits. The first node that is integer is the second child of
the root. -/
def lateIncumbent : DenseData := ⟨[1, 3, 4], [[3, 3, 3], [0, 1, 4]], [3, 2]⟩

/-- The problem of the three things. -/
def lateIncumbentProblem : Problem ExtRat :=
  ⟨[.fin 1, .fin 3, .fin 4],
    [⟨"c0", [(0, .fin 3), (1, .fin 3), (2, .fin 3)], .fin 3⟩,
      ⟨"c1", [(1, .fin 1), (2, .fin 4)], .fin 2⟩],
    [.integer, .integer, .integer]⟩

theorem problem_lateIncumbent : lateIncumbent.problem = .ok lateIncumbentProblem := by
  with_unfolding_all rfl

/-- Two things of one weight, of which one fits. -/
def eitherThing : DenseData := ⟨[5, 4], [[3, 3]], [5]⟩

/-- The problem of the two things. -/
def eitherThingProblem : Problem ExtRat :=
  ⟨[.fin 5, .fin 4], [⟨"c0", [(0, .fin 3), (1, .fin 3)], .fin 5⟩], [.integer, .integer]⟩

theorem problem_eitherThing : eitherThing.problem = .ok eitherThingProblem := by
  with_unfolding_all rfl

/-- Best first, nodes 5 and 6 are added when there is an incumbent, and overtake node 4, which was
added before there was one. -/
theorem enumeration_order_lateIncumbent :
    (enumeration lateIncumbentProblem .bestFirst).state.updated = [0, 1, 2, 3, 5, 6, 4] ∧
      (rounds (enumerationContext lateIncumbentProblem .bestFirst)
          (stepBound (enumerationContext lateIncumbentProblem .bestFirst).settings)
          (initial (enumerationContext lateIncumbentProblem .bestFirst) (.new .standard))).map
          (fun r => r.entry.node)
        = [0, 1, 2, 3, 5, 6, 4] ∧
      Enumerates (enumerationContext lateIncumbentProblem .bestFirst)
        (rounds (enumerationContext lateIncumbentProblem .bestFirst)
          (stepBound (enumerationContext lateIncumbentProblem .bestFirst).settings)
          (initial (enumerationContext lateIncumbentProblem .bestFirst) (.new .standard)))
        (enumeration lateIncumbentProblem .bestFirst).state.updated := by
  have hall : (enumerationContext lateIncumbentProblem .bestFirst).settings.enumerateAll = true :=
    rfl
  have hselection : (enumerationContext lateIncumbentProblem .bestFirst).settings.selection
      ≠ .depthFirst := nofun
  have hfinite : ∀ v ∈ (enumerationContext lateIncumbentProblem .bestFirst).problem.objective,
      Scalar.isFinite v = true := by
    decide
  have hupdated : (enumeration lateIncumbentProblem .bestFirst).state.updated
      = [0, 1, 2, 3, 5, 6, 4] := by
    decide +kernel
  refine ⟨hupdated, by decide +kernel, ?_⟩
  exact (enumeration_order hall hselection hfinite (.new .standard)).2

/-- So an enumeration need not go through its nodes in the order of their numbers. Best first it
does not here; and by estimates node 4 overtakes node 3, as a smaller loss is predicted for it. -/
theorem enumeration_out_of_order :
    (∃ p out, lateIncumbent.problem = .ok p ∧
      solve p (strategy .fixedOrder .bestFirst).completeEnumeration id = .ok out ∧
      out.state.updated = [0, 1, 2, 3, 5, 6, 4] ∧
      out.state.updated ≠ List.range out.state.updated.length) ∧
    ∃ p out, eitherThing.problem = .ok p ∧
      solve p (strategy .fixedOrder .bestEstimate).completeEnumeration id = .ok out ∧
      out.state.updated = [0, 1, 2, 4, 3] ∧
      out.state.updated ≠ List.range out.state.updated.length := by
  have hlate : (enumeration lateIncumbentProblem .bestFirst).state.updated
      = [0, 1, 2, 3, 5, 6, 4] := by
    decide +kernel
  have heither : (enumeration eitherThingProblem .bestEstimate).state.updated
      = [0, 1, 2, 4, 3] := by
    decide +kernel
  constructor
  · refine ⟨_, _, problem_lateIncumbent, solve_eq_enumeration _ _, hlate, ?_⟩
    rw [hlate]
    decide
  · refine ⟨_, _, problem_eitherThing, solve_eq_enumeration _ _, heither, ?_⟩
    rw [heither]
    decide

end Search

end BranchBound
