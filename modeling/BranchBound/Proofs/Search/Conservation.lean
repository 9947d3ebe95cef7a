import BranchBound.Proofs.Search.Bound
import BranchBound.Proofs.Search.Turns

/-!
# No node is lost

The tree, the open nodes and the counts of a search agree at all times: every node of the tree is
open or was taken up, once, and a node taken up was either processed or pruned. A search that fails
leaves the node it was at as it was, without children.

* `Tree.Fresh`: nodes that nothing has been done with.
* `Placed`, `Placed.pop`, `Placed.grows`: the nodes taken up and the open ones make up the tree.
* `Orderly`, `orderly_of_run`: so it is at all times of a run.
* `nodes_conserved`: the counts agree, and a failed search has changed nothing else.
-/

namespace BranchBound

/-! ## Fresh nodes -/

namespace Tree

variable {α : Type} {t u v : Tree α} {id k : ℕ} {node : Node α} {b c : Branch α}

/-- A node that nothing has been done with: a candidate without children. -/
def Fresh (t : Tree α) (id : ℕ) : Prop :=
  (∃ node, t.get? id = some node ∧ node.status = .candidate) ∧ t.children id = []

/-- A change elsewhere leaves a node fresh. -/
theorem Fresh.modify {g : Node α → Node α} (h : t.Fresh k) (hg : KeepsPlace g) (hk : k ≠ id) :
    (t.modify id g).Fresh k := by
  unfold Fresh
  rw [children_modify hg, get?_modify, if_neg hk.symm]
  exact h

section Children

variable (hlinked : t.Linked) (hnode : t.get? id = some node) (hu : t.addChild? id b = some u)
  (hv : u.addChild? id c = some v)

include hlinked hnode hu hv in
theorem Fresh.children (h : t.Fresh k) (hk : k ≠ id) : v.Fresh k := by
  obtain ⟨⟨old, hold, hstatus⟩, hleaf⟩ := h
  unfold Fresh
  rw [children_children hlinked hnode hu hv, if_neg hk, hleaf,
    get?_children_of_lt hnode hu hv (get?_lt_size hold)]
  exact ⟨⟨old, hold, hstatus⟩, rfl⟩

include hlinked hnode hu hv in
/-- New children are fresh. -/
theorem fresh_children : v.Fresh t.size ∧ v.Fresh (t.size + 1) := by
  have hlt := get?_lt_size hnode
  unfold Fresh
  rw [children_children hlinked hnode hu hv, if_neg (by omega),
    children_children hlinked hnode hu hv, if_neg (by omega),
    hlinked.children_of_size_le (le_refl _), hlinked.children_of_size_le (Nat.le_succ _),
    get?_children hnode hu hv, if_neg (by omega), if_pos rfl, get?_children hnode hu hv, if_pos rfl]
  exact ⟨⟨⟨_, rfl, rfl⟩, rfl⟩, ⟨_, rfl, rfl⟩, rfl⟩

end Children

end Tree

namespace Search

open Relaxation

variable {σ α : Type}

/-! ## Nodes taken up and open nodes -/

/-- The nodes taken up and the open ones make up the tree, and nothing was done with the open
ones. -/
structure Placed (taken : List (Entry α)) (tree : Tree α) (frontier : Frontier α) : Prop where
  linked : tree.Linked
  numbered : frontier.Numbered
  perm : ((taken ++ frontier.entries).map Entry.node).Perm (List.range tree.size)
  fresh : ∀ d ∈ frontier.entries, tree.Fresh d.node
  added : frontier.added = tree.size
  popped : frontier.popped = taken.length
  size_eq : tree.size = 1 + 2 * tree.parents.card

namespace Placed

variable {taken : List (Entry α)} {tree : Tree α} {f : Frontier α} {e : Entry α}

/-- No node is both open and taken up, or twice either of them. -/
theorem nodup (h : Placed taken tree f) : ((taken ++ f.entries).map Entry.node).Nodup :=
  h.perm.nodup_iff.mpr List.nodup_range

theorem nodup_entries (h : Placed taken tree f) : f.entries.Nodup := by
  have hnodup := h.nodup
  rw [List.map_append] at hnodup
  exact List.Nodup.of_map _ (List.nodup_append.mp hnodup).2.1

/-- Open nodes are nodes of the tree. -/
theorem lt_size (h : Placed taken tree f) {d : Entry α} (hd : d ∈ f.entries) :
    d.node < tree.size := by
  obtain ⟨⟨node, hnode, -⟩, -⟩ := h.fresh d hd
  exact Tree.get?_lt_size hnode

/-- A node that was taken up is not open. -/
theorem not_mem_taken (h : Placed taken tree f) {d : Entry α} (hd : d ∈ f.entries) :
    d.node ∉ taken.map Entry.node := by
  have hnodup := h.nodup
  rw [List.map_append] at hnodup
  intro htaken
  exact (List.nodup_append.mp hnodup).2.2 _ htaken _ (List.mem_map_of_mem hd) rfl

/-- A node that was taken up is not open. -/
theorem ne_of_mem (h : Placed (taken ++ [e]) tree f) {d : Entry α} (hd : d ∈ f.entries) :
    d.node ≠ e.node := by
  intro heq
  apply h.not_mem_taken hd
  simp [heq]

/-- Taking an open node moves it to the nodes taken up. -/
theorem pop [Scalar α] {rest : Frontier α} (h : Placed taken tree f)
    (hpop : f.pop? = some (e, rest)) : Placed (taken ++ [e]) tree rest ∧ tree.Fresh e.node := by
  obtain ⟨he, -, hadded, hpopped⟩ := Frontier.pop?_eq_some hpop
  obtain ⟨hnumbered, hmem⟩ := h.numbered.pop? hpop
  have hentries := h.numbered.perm_pop? h.nodup_entries hpop
  refine ⟨⟨h.linked, hnumbered, ?_, ?_, ?_, ?_, h.size_eq⟩, h.fresh e he⟩
  · rw [List.append_assoc, List.singleton_append]
    exact ((hentries.append_left taken).map _).trans h.perm
  · intro d hd
    exact h.fresh d ((hmem d).mpr (List.mem_cons_of_mem e hd))
  · rw [hadded, h.added]
  · rw [hpopped, h.popped, List.length_append, List.length_singleton]

/-- The node taken up may change in its place. -/
theorem modify {g : Node α → Node α} (h : Placed (taken ++ [e]) tree f) (hg : KeepsPlace g) :
    Placed (taken ++ [e]) (tree.modify e.node g) f where
  linked := h.linked.modify hg
  numbered := h.numbered
  perm := by
    rw [Tree.size_modify]
    exact h.perm
  fresh d hd := (h.fresh d hd).modify hg (h.ne_of_mem hd)
  added := by rw [Tree.size_modify, h.added]
  popped := h.popped
  size_eq := by
    unfold Tree.parents
    rw [Tree.size_modify, Tree.children_modify hg]
    exact h.size_eq

/-- The node taken up may get two open children. -/
theorem split {tree' tree'' : Tree α} {node : Node α} {b c : Branch α}
    (priority priority' bound : α) (h : Placed (taken ++ [e]) tree f)
    (hleaf : tree.children e.node = []) (hnode : tree.get? e.node = some node)
    (hdown : tree.addChild? e.node b = some tree')
    (hup : tree'.addChild? e.node c = some tree'') :
    Placed (taken ++ [e]) tree''
      ((f.push tree.size priority bound).push (tree.size + 1) priority' bound) where
  linked := h.linked.children hnode hdown hup
  numbered := (h.numbered.push _ _ _).push _ _ _
  perm := by
    rw [Tree.size_children hdown hup, List.range_succ, List.range_succ]
    simp only [Frontier.push, ← List.append_assoc, List.map_append, List.map_cons, List.map_nil]
    have hperm := h.perm
    rw [List.map_append, List.map_append] at hperm
    exact (hperm.append_right _).append_right _
  fresh d hd := by
    obtain ⟨hfresh, hfresh'⟩ := Tree.fresh_children h.linked hnode hdown hup
    simp only [Frontier.push, List.mem_append, List.mem_singleton] at hd
    rcases hd with (hd | rfl) | rfl
    · exact (h.fresh d hd).children h.linked hnode hdown hup (h.ne_of_mem hd)
    · exact hfresh
    · exact hfresh'
  added := by
    rw [Tree.size_children hdown hup]
    simp only [Frontier.push, h.added]
  popped := h.popped
  size_eq := by
    have hsize := h.size_eq
    rw [Tree.size_children hdown hup, Tree.card_parents_children h.linked hnode hdown hup hleaf]
    omega

/-- All that a turn does leaves the nodes in order. -/
theorem grows [Scalar α] {ctx : Context σ α} {s t : Ledger α}
    (h : Placed (taken ++ [e]) s.tree s.frontier) (hfresh : s.tree.Fresh e.node)
    (hgrows : Grows ctx e s t) : Placed (taken ++ [e]) t.tree t.frontier := by
  cases hgrows with
  | stays hg htree hfrontier =>
    rw [htree, hfrontier]
    exact h.modify hg
  | @splits g node c table tree down up bound hg hnode hpriorities hdown hup hfrontier hdepth =>
    have hmodified := h.modify hg
    have hleaf : (s.tree.modify e.node g).children e.node = [] := by
      rw [Tree.children_modify hg]
      exact hfresh.2
    have hsplit := hmodified.split down up bound hleaf hnode hdown hup
    rw [Tree.size_modify] at hsplit
    rw [hfrontier]
    exact hsplit

end Placed

/-! ## Along a run -/

variable [Scalar α]

/-- The nodes taken up and the open ones make up the tree, and those taken up are counted. -/
structure Orderly (taken : List (Entry α)) (s : Ledger α) : Prop where
  placed : Placed taken s.tree s.frontier
  counted : taken.length = s.processed + s.pruned

theorem Orderly.exists_node {taken : List (Entry α)} {s : Ledger α} {e : Entry α}
    {rest : Frontier α} (h : Orderly taken s) (hpop : s.frontier.pop? = some (e, rest)) :
    ∃ node, s.tree.get? e.node = some node := by
  obtain ⟨-, ⟨node, hnode, -⟩, -⟩ := h.placed.pop hpop
  exact ⟨node, hnode⟩

/-- A turn moves one node from the open ones to those taken up, and counts it. -/
theorem Orderly.turn {ctx : Context σ α} {taken : List (Entry α)} {s t : Ledger α} {e : Entry α}
    {rest : Frontier α} (h : Orderly taken s) (hpop : s.frontier.pop? = some (e, rest))
    (hturn : Turn ctx e { s with frontier := rest } t) : Orderly (taken ++ [e]) t := by
  obtain ⟨hplaced, hfresh⟩ := h.placed.pop hpop
  have hcounted := hturn.counted
  have hlength := h.counted
  constructor
  · exact Placed.grows (s := { s with frontier := rest }) hplaced hfresh hturn.grows
  · simp only [List.length_append, List.length_singleton]
    dsimp only at hcounted
    omega

theorem orderly_initial (ctx : Context σ α) (backend : σ) :
    Orderly [] (initial ctx backend).ledger where
  placed :=
    { linked := Tree.linked_addRoot
      numbered := Frontier.numbered_empty.push _ _ _
      perm := List.Perm.refl _
      fresh := by
        intro d hd
        cases List.mem_singleton.mp hd
        exact ⟨⟨_, rfl, rfl⟩, rfl⟩
      added := rfl
      popped := rfl
      size_eq := rfl }
  counted := rfl

/-- Order is kept for any number of steps. -/
theorem orderly_of_run (ctx : Context σ α) (backend : σ) (n : ℕ) :
    Orderly (takenUp ctx n (initial ctx backend))
      ((Phase.running (initial ctx backend)).advance ctx n).state.ledger :=
  holds_of_turns (P := Orderly) Orderly.exists_node Orderly.turn n (orderly_initial ctx backend)

/-! ## The counts -/

/-- The tree, the open nodes, the nodes taken up and the counts agree. -/
structure Conserved (taken : List ℕ) (s : State σ α) : Prop where
  size_eq_added : s.tree.size = s.frontier.added
  added_eq : s.frontier.added = s.frontier.size + s.frontier.popped
  popped_eq : s.frontier.popped = s.processed + s.pruned
  length_taken : taken.length = s.frontier.popped
  nodup_taken : taken.Nodup
  nodup_open : (s.frontier.entries.map Entry.node).Nodup
  mem_open_iff : ∀ id, id ∈ s.frontier.entries.map Entry.node ↔ id < s.tree.size ∧ id ∉ taken
  size_eq : s.tree.size = 1 + 2 * s.tree.parents.card

/-- What a search that failed at a node has changed since it took that node up: the node is counted
as processed, has no children and is a candidate still. -/
structure Abandoned (id : ℕ) (s t : State σ α) : Prop where
  processed_eq : t.processed = s.processed + 1
  pruned_eq : t.pruned = s.pruned
  fresh : t.tree.Fresh id
  incumbent_eq : t.incumbent = s.incumbent
  get?_of_ne : ∀ k, k ≠ id → t.tree.get? k = s.tree.get? k

omit [Scalar α] in
/-- An orderly ledger gives the counts. -/
theorem Orderly.conserved {taken : List (Entry α)} {s : State σ α} (h : Orderly taken s.ledger) :
    Conserved (taken.map Entry.node) s := by
  have hplaced : Placed taken s.tree s.frontier := h.placed
  have hcounted : taken.length = s.processed + s.pruned := h.counted
  have hadded := hplaced.added
  have hpopped := hplaced.popped
  have hperm := hplaced.perm
  have hnodup := hplaced.nodup
  rw [List.map_append] at hperm hnodup
  have hlength := hperm.length_eq
  simp only [List.length_append, List.length_map, List.length_range] at hlength
  refine ⟨by omega, ?_, by omega, ?_, ?_, ?_, ?_, hplaced.size_eq⟩
  · unfold Frontier.size
    omega
  · rw [List.length_map]
    omega
  · exact (List.nodup_append.mp hnodup).1
  · exact (List.nodup_append.mp hnodup).2.1
  · intro id
    rw [← List.mem_range, ← hperm.mem_iff, List.mem_append]
    constructor
    · intro hopen
      obtain ⟨d, hd, rfl⟩ := List.mem_map.mp hopen
      exact ⟨.inr hopen, hplaced.not_mem_taken hd⟩
    · rintro ⟨hmem | hmem, hnot⟩
      · exact absurd hmem hnot
      · exact hmem

/-- A visit that fails changes the node it is at, which stays a candidate, and no other. -/
theorem abandoned_of_breaks {ctx : Context σ α} {e : Entry α} {s t : State σ α}
    {err : SolveError α} (hfresh : s.tree.Fresh e.node)
    (hbreaks : Breaks ctx e.node e.bound s err t) (herr : err ≠ .zeroLogInterval) :
    Abandoned e.node s t := by
  obtain ⟨⟨node, hnode, hstatus⟩, hleaf⟩ := hfresh
  cases hbreaks with
  | missing hmissing => cases hnode.symm.trans hmissing
  | unsolved hnode' err scoring =>
    exact ⟨rfl, rfl, ⟨⟨node, hnode, hstatus⟩, hleaf⟩, rfl, fun _ _ => rfl⟩
  | @unbranched node' box a scoring learned hasked hoptimal hlearns infeasibility err last =>
    have hkeeps := keepsPlace_record a.objective .candidate (some infeasibility)
    refine ⟨rfl, rfl, ⟨?_, ?_⟩, rfl, ?_⟩
    · exact ⟨_, get?_recorded s.core e.node a.objective .candidate (some infeasibility) hnode, rfl⟩
    · show (s.tree.modify e.node _).children e.node = []
      rw [Tree.children_modify hkeeps]
      exact hleaf
    · intro k hk
      show (s.tree.modify e.node _).get? k = _
      rw [Tree.get?_modify, if_neg hk.symm]
  | unreported hvisits => exact absurd rfl herr

/-- Every node is open or was taken up once, and every count agrees with this, between any two nodes
of a search and where it fails. A search that fails, other than at a report, leaves the node it is
at without children and all else as it was. -/
theorem nodes_conserved (ctx : Context σ α) (backend : σ) :
    (∀ n s, (Phase.running (initial ctx backend)).advance ctx n = .running s →
      Conserved ((takenUp ctx n (initial ctx backend)).map Entry.node) s) ∧
    ∀ err, (search ctx backend).result = .error err → err ≠ .zeroLogInterval →
      Conserved ((takenUp ctx (stepBound ctx.settings) (initial ctx backend)).map Entry.node)
        (search ctx backend).state ∧
      ∃ n s e rest, (Phase.running (initial ctx backend)).advance ctx n = .running s ∧
        s.frontier.pop? = some (e, rest) ∧
        takenUp ctx (stepBound ctx.settings) (initial ctx backend)
          = takenUp ctx n (initial ctx backend) ++ [e] ∧
        Abandoned e.node s (search ctx backend).state := by
  have horderly := orderly_of_run ctx backend
  constructor
  · intro n s hrunning
    have hs := horderly n
    rw [hrunning] at hs
    exact hs.conserved
  · intro err herror hreport
    -- the counts are those of the run's end, and the comparison is with the last state before it
    have hended := ended_of_search_error herror
    obtain ⟨n, s, e, rest, hrunning, hpop, hfails, htaken⟩ := exists_last_of_error hended
    have hs := horderly n
    rw [hrunning] at hs
    have hlast := horderly (stepBound ctx.settings)
    rw [hended] at hlast
    obtain ⟨-, hfresh⟩ := hs.placed.pop hpop
    have habandoned := abandoned_of_breaks (s := { s with frontier := rest }) hfresh
      (breaks_of_fails_visit hfails) hreport
    exact ⟨hlast.conserved, n, s, e, rest, hrunning, hpop, htaken, habandoned.processed_eq,
      habandoned.pruned_eq, habandoned.fresh, habandoned.incumbent_eq, habandoned.get?_of_ne⟩

/-! ## A backend that stops answering -/

/-- Answers a number of requests for the largest value whose double is within a limit, and fails
from then on. -/
def falteringBackend (b : ℚ) : Backend ℕ ExtRat where
  solve p box cap left :=
    match left with
    | 0 => (⟨.error (.backend .relaxation "no answer"), []⟩, 0)
    | left + 1 => (((doubledBackend b).solve p box cap ()).1, left)
  setMode _ left := ([], left)

/-- The search for the largest whole number whose double is within a limit, by that backend. -/
def falteringContext (b : ℚ) : Context ℕ ExtRat :=
  ⟨doubled b, Settings.standard.generalInteger, falteringBackend b, id⟩

/-- Where the backend fails at its second request, the root was branched on, and its first child is
abandoned. -/
theorem nodes_conserved_faltering :
    (search (falteringContext 3) 1).state.tree.size = 3 ∧
      Conserved [0, 1] (search (falteringContext 3) 1).state ∧
      ∃ n s, (Phase.running (initial (falteringContext 3) 1)).advance (falteringContext 3) n
          = .running s ∧
        Conserved [0] s ∧ Abandoned 1 s (search (falteringContext 3) 1).state := by
  have hsize : (search (falteringContext 3) 1).state.tree.size = 3 := by decide +kernel
  have hresult : ((search (falteringContext 3) 1).result.mapError SolveError.kind).map
      (fun _ => ()) = .error .relaxation := by
    decide +kernel
  have htaken : (takenUp (falteringContext 3) (stepBound (falteringContext 3).settings)
      (initial (falteringContext 3) 1)).map Entry.node = [0, 1] := by
    decide +kernel
  cases hended : (search (falteringContext 3) 1).result with
  | ok sol =>
    rw [hended] at hresult
    cases hresult
  | error err =>
    rw [hended] at hresult
    have hreport : err ≠ .zeroLogInterval := by
      rintro rfl
      cases hresult
    obtain ⟨hheads, herrors⟩ := nodes_conserved (falteringContext 3) 1
    obtain ⟨hconserved, n, s, e, rest, hrunning, -, hlast, habandoned⟩ :=
      herrors err hended hreport
    rw [htaken] at hconserved
    rw [hlast, List.map_append] at htaken
    -- the node abandoned is the last of those taken up
    obtain ⟨hbefore, he⟩ : _ = [0] ∧ [e.node] = [1] := List.append_inj' htaken rfl
    have hs := hheads n s hrunning
    rw [hbefore] at hs
    rw [List.cons.inj he |>.1] at habandoned
    exact ⟨hsize, hconserved, n, s, hrunning, hs, habandoned⟩

end Search

end BranchBound
