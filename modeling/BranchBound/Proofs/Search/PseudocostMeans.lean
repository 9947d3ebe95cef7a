import BranchBound.Proofs.Search.ObservedRounds

/-!
# Pseudocosts are means over the run

An entry of the pseudocosts is updated where a node was solved and where a child was solved for a
score. What it holds can be said without the updates, of the tree and the answers of the backend
alone: it is the mean of what was lost by the branches of its variable in its direction. The value
above a node is read from its bound, which is overwritten later; it is the value of the node above
all the same, also where the open nodes are bounded by something else.

* `Tree.loss?`, `Tree.losses`, `Tree.solvedAlong`: what the branches of a tree lost, given values.
* `value?`: the values that the backend gave.
* `Gathered`, `Gathered.snoc`: what is known between two nodes, and how a round keeps it.
* `history`, `gathered_of_running`: so it is at all times of a run.
* `pseudocosts_are_means`: what this says of every entry over exact numbers.
-/

namespace BranchBound

open Relaxation

variable {σ α : Type}

/-! ## Losses of a tree -/

/-- Where a partial map gets one more value, the list of its values does. -/
theorem perm_filterMap {β γ : Type} {f g : β → Option γ} {l : List β} {a : β} (hl : l.Nodup)
    (ha : a ∈ l) (hf : f a = none) (hsame : ∀ b ∈ l, b ≠ a → g b = f b) :
    (l.filterMap g).Perm (l.filterMap f ++ (g a).toList) := by
  obtain ⟨before, after, rfl⟩ := List.append_of_mem ha
  have hnot : a ∉ before ++ after := (List.nodup_middle.mp hl).notMem
  have hbefore : before.filterMap g = before.filterMap f := List.filterMap_congr fun b hb =>
    hsame b (by simp [hb]) fun heq => hnot (by simp [← heq, hb])
  have hafter : after.filterMap g = after.filterMap f := List.filterMap_congr fun b hb =>
    hsame b (by simp [hb]) fun heq => hnot (by simp [← heq, hb])
  rw [List.filterMap_append, List.filterMap_append, hbefore, List.filterMap_cons_none hf,
    List.append_assoc]
  refine List.Perm.append_left _ ?_
  rw [← List.singleton_append, List.filterMap_append, hafter]
  refine List.perm_append_comm.trans (List.Perm.of_eq ?_)
  cases h : g a <;> simp [h]

namespace Tree

variable {t u : Tree α} {values values' : ℕ → Option α} {id : ℕ} {node : Node α}

/-- What the branch to a node lost, where the relaxations above and below it have values. -/
def loss? (t : Tree α) (values : ℕ → Option α) (id : ℕ) : Option (Loss α) := do
  let node ← t.get? id
  return ⟨← node.branch, ← values (← node.parent), ← values id⟩

/-- What all branches of a tree lost, as far as there are values above and below them. -/
def losses (t : Tree α) (values : ℕ → Option α) : List (Loss α) :=
  (List.range t.size).filterMap (t.loss? values)

/-- The nodes with a value that were created by a branch of a variable in a direction. -/
def solvedAlong (t : Tree α) (values : ℕ → Option α) (sense : Sense) (var : ℕ) : List ℕ :=
  (List.range t.size).filter fun id =>
    ((t.get? id).bind Node.branch).any (·.along sense var) && (values id).isSome

theorem loss?_eq_some_iff {l : Loss α} : t.loss? values id = some l ↔ ∃ node p,
    t.get? id = some node ∧ node.branch = some l.branch ∧ node.parent = some p ∧
      values p = some l.above ∧ values id = some l.below := by
  unfold loss?
  simp only [Option.bind_eq_bind, Option.bind_eq_some_iff, Option.pure_def, Option.some.injEq]
  constructor
  · rintro ⟨node, hnode, b, hb, p, hp, above, habove, below, hbelow, rfl⟩
    exact ⟨node, p, hnode, hb, hp, habove, hbelow⟩
  · rintro ⟨node, p, hnode, hb, hp, habove, hbelow⟩
    exact ⟨node, hnode, _, hb, p, hp, _, habove, _, hbelow, rfl⟩

theorem loss?_eq_none (h : values id = none) : t.loss? values id = none := by
  refine Option.eq_none_iff_forall_ne_some.mpr fun l hl => ?_
  obtain ⟨node, p, -, -, -, -, hbelow⟩ := loss?_eq_some_iff.mp hl
  cases h.symm.trans hbelow

/-- Where every node with a branch has a value above it, each node with a value has a loss. -/
theorem countP_losses (h : ∀ k node b, t.get? k = some node → node.branch = some b →
    ∃ p v, node.parent = some p ∧ values p = some v) (sense : Sense) (var : ℕ) :
    (t.losses values).countP (·.branch.along sense var)
      = (t.solvedAlong values sense var).length := by
  unfold losses solvedAlong
  rw [List.countP_filterMap, ← List.countP_eq_length_filter]
  refine List.countP_congr fun k _ => ?_
  unfold loss?
  cases hk : t.get? k with
  | none => simp
  | some node =>
    cases hb : node.branch with
    | none => simp [hb]
    | some b =>
      obtain ⟨p, v, hp, hv⟩ := h k node b hk hb
      cases values k <;> simp [hb, hp, hv]

/-- If one more node gets a value, whose branch lost something by that, and new nodes have none,
then all the rest is as it was. -/
theorem perm_losses (hid : id < t.size) (hsize : t.size ≤ u.size) (hnone : values id = none)
    (hsame : ∀ k, k < t.size → k ≠ id → u.loss? values' k = t.loss? values k)
    (hnew : ∀ k, t.size ≤ k → values' k = none) :
    (u.losses values').Perm (t.losses values ++ (u.loss? values' id).toList) := by
  obtain ⟨m, hm⟩ := Nat.exists_eq_add_of_le hsize
  have hrest : ((List.range m).map (t.size + ·)).filterMap (u.loss? values') = [] := by
    refine List.filterMap_eq_nil_iff.mpr fun k hk => loss?_eq_none (hnew k ?_)
    obtain ⟨j, -, rfl⟩ := List.mem_map.mp hk
    exact Nat.le_add_right _ _
  unfold losses
  rw [hm, List.range_add, List.filterMap_append, hrest, List.append_nil]
  exact perm_filterMap List.nodup_range (List.mem_range.mpr hid) (loss?_eq_none hnone)
    fun k hk => hsame k (List.mem_range.mp hk)

end Tree

namespace Search

open Scoring

/-! ## Values -/

/-- The value of a node's relaxation, where a round has found its optimum. -/
def value? (done : List (Round (σ × List (Exchange α)) α)) (id : ℕ) : Option α :=
  (done.find? fun r => r.entry.node = id).bind fun r => r.optimum?.map Answer.objective

section Values

variable {done : List (Round (σ × List (Exchange α)) α)} {r : Round (σ × List (Exchange α)) α}
  {id : ℕ} {v : α}

theorem find?_eq_none_of_not_mem (h : id ∉ (done.map Round.entry).map Entry.node) :
    (done.find? fun r => r.entry.node = id) = none := by
  refine List.find?_eq_none.mpr fun r hr heq => h ?_
  rw [List.map_map, ← of_decide_eq_true heq]
  exact List.mem_map_of_mem (f := Entry.node ∘ Round.entry) hr

theorem value?_eq_none (h : id ∉ (done.map Round.entry).map Entry.node) :
    value? done id = none := by
  unfold value?
  rw [find?_eq_none_of_not_mem h, Option.bind_none]

theorem value?_snoc_of_ne (h : id ≠ r.entry.node) : value? (done ++ [r]) id = value? done id := by
  unfold value?
  rw [List.find?_append, List.find?_cons_of_neg (by simpa using h.symm), List.find?_nil,
    Option.or_none]

theorem value?_snoc_self (h : r.entry.node ∉ (done.map Round.entry).map Entry.node) :
    value? (done ++ [r]) r.entry.node = r.optimum?.map Answer.objective := by
  unfold value?
  rw [List.find?_append, find?_eq_none_of_not_mem h, Option.none_or,
    List.find?_cons_of_pos (by simp), Option.bind_some]

/-- A value is that of an optimum which was asked for. -/
theorem exists_of_value? (h : value? done id = some v) :
    ∃ r ∈ done, ∃ e ∈ r.exchanges, ∃ a, e.optimum? = some a ∧ a.objective = v := by
  obtain ⟨r, hr, h⟩ := Option.bind_eq_some_iff.mp h
  obtain ⟨a, ha, rfl⟩ := Option.map_eq_some_iff.mp h
  obtain ⟨e, he, ha⟩ := Option.bind_eq_some_iff.mp ha
  exact ⟨r, List.mem_of_find?_eq_some hr, e, List.mem_of_mem_head? he, a, ha, rfl⟩

end Values

/-! ## Between two nodes -/

variable [Scalar α]

/-- What the children lost that were solved for a score in some rounds. -/
def resolves (ctx : Context σ α) (done : List (Round (σ × List (Exchange α)) α)) : List (Loss α) :=
  done.flatMap (·.resolved ctx.problem ctx.settings.rule)

/-- All that the pseudocosts observe in a search: what its branches have lost, and what the children
lost that were solved for a score. -/
def observations (ctx : Context σ α) (done : List (Round (σ × List (Exchange α)) α))
    (tree : Tree α) : List (Loss α) :=
  tree.losses (value? done) ++ resolves ctx done

theorem resolves_snoc (ctx : Context σ α) (done : List (Round (σ × List (Exchange α)) α))
    (r : Round (σ × List (Exchange α)) α) : resolves ctx (done ++ [r])
      = resolves ctx done ++ r.resolved ctx.problem ctx.settings.rule := by
  unfold resolves
  rw [List.flatMap_append, List.flatMap_singleton]

/-- What is known between two nodes: the branch to each node moved its variable and there is a value
above it, which a node that was not taken up has for its bound; and the pseudocosts are seeded with
the objective and have made all observations, in some order. -/
structure Gathered (ctx : Context σ α) (done : List (Round (σ × List (Exchange α)) α))
    (tree : Tree α) (scoring : Scoring (σ × List (Exchange α)) α) : Prop where
  asks : ∀ r ∈ done, r.Asks ctx
  moved : ∀ {k node b}, tree.get? k = some node → node.branch = some b → ¬ b.distance ≤ 0
  above : ∀ {k node p}, tree.get? k = some node → node.parent = some p →
    ∃ v, value? done p = some v ∧
      (k ∉ (done.map Round.entry).map Entry.node → node.bound = v)
  table : ∃ ls : List (Loss α), ls.Perm (observations ctx done tree) ∧
    scoring.table = ls.foldl PseudocostTable.observe (.ofObjective ctx.problem.objective)
  full : scoring.fullResolves = (resolves ctx done).length

namespace Gathered

variable {ctx : Context σ α} {done : List (Round (σ × List (Exchange α)) α)}
  {r : Round (σ × List (Exchange α)) α} {rest : Frontier α}

section Step

variable (h : Gathered ctx done r.before.tree r.before.scoring)
  (hplaced : Placed (done.map Round.entry ++ [r.entry]) r.before.tree rest)
  (hfresh : r.before.tree.Fresh r.entry.node)
  (hext : r.before.tree.Extends r.after.tree)
  (hkeep : ∀ {k node}, r.before.tree.get? k = some node → k ≠ r.entry.node →
    r.after.tree.get? k = some node)
  (hsplits : r.Splits)

omit [Scalar α] in
include hplaced in
/-- A node is taken up once. -/
theorem not_mem_done : r.entry.node ∉ (done.map Round.entry).map Entry.node := by
  have hnodup := hplaced.nodup
  rw [List.map_append, List.map_append, List.append_assoc] at hnodup
  intro hmem
  exact (List.nodup_append.mp hnodup).2.2 _ hmem _ (List.mem_append_left _ (by simp)) rfl

omit [Scalar α] in
include hplaced in
/-- A number that is not taken has no value. -/
theorem value?_of_size_le {k : ℕ} (hk : r.before.tree.size ≤ k) :
    value? (done ++ [r]) k = none := by
  apply value?_eq_none
  rw [List.map_append]
  intro hmem
  have hlt : k ∈ List.range r.before.tree.size := by
    rw [← hplaced.perm.mem_iff, List.map_append]
    exact List.mem_append_left _ hmem
  exact absurd (List.mem_range.mp hlt) (Nat.not_lt.mpr hk)

omit [Scalar α] in
include hfresh in
/-- The values above the nodes that there were are as they were. -/
theorem value?_parent {k p : ℕ} {node : Node α} (hk : r.before.tree.get? k = some node)
    (hp : node.parent = some p) : value? (done ++ [r]) p = value? done p := by
  refine value?_snoc_of_ne ?_
  rintro rfl
  exact Tree.parent_ne_of_leaf hfresh.2 hk hp

include h hplaced hfresh hext hkeep hsplits in
/-- There is a value above every node still; above a new one it is that of the node taken up. -/
theorem above_snoc {k p : ℕ} {node : Node α} (hk : r.after.tree.get? k = some node)
    (hp : node.parent = some p) : ∃ v, value? (done ++ [r]) p = some v ∧
      (k ∉ ((done ++ [r]).map Round.entry).map Entry.node → node.bound = v) := by
  have hnew := not_mem_done hplaced
  cases hold : r.before.tree.get? k with
  | some old =>
    obtain ⟨node', hnode', -, hparent, -⟩ := hext k old hold
    cases hk.symm.trans hnode'
    rw [hparent] at hp
    obtain ⟨v, hv, hbound⟩ := h.above hold hp
    refine ⟨v, (value?_parent hfresh hold hp).trans hv, fun hnot => ?_⟩
    rw [List.map_append, List.map_append, List.mem_append, not_or] at hnot
    -- a node that was not taken up is as it was
    cases hk.symm.trans (hkeep hold (by simpa using hnot.2))
    exact hbound hnot.1
  | none =>
    obtain ⟨node', a, b, hnode', hoptimum, hparent, hbound, -⟩ := hsplits k node hold hk
    rw [hparent, hplaced.linked.id_eq hnode', Option.some.injEq] at hp
    subst hp
    refine ⟨a.objective, ?_, fun _ => hbound⟩
    rw [value?_snoc_self hnew, hoptimum]
    rfl

include h hext hsplits in
theorem moved_snoc {k : ℕ} {node : Node α} {b : Branch α} (hk : r.after.tree.get? k = some node)
    (hb : node.branch = some b) : ¬ b.distance ≤ 0 := by
  cases hold : r.before.tree.get? k with
  | some old =>
    obtain ⟨node', hnode', -, -, -, hbranch⟩ := hext k old hold
    cases hk.symm.trans hnode'
    exact h.moved hold (hbranch.symm.trans hb)
  | none =>
    obtain ⟨-, -, b', -, -, -, -, hb', hmoved⟩ := hsplits k node hold hk
    cases hb.symm.trans hb'
    exact hmoved

include h hplaced hfresh hext in
/-- The branch to the node taken up has lost what was observed for it: the bound of that node was
the value above it. -/
theorem loss?_entry :
    r.after.tree.loss? (value? (done ++ [r])) r.entry.node = r.own? := by
  have hnew := not_mem_done hplaced
  obtain ⟨node, hnode, -⟩ := hfresh.1
  obtain ⟨node', hnode', -, hparent, -, hbranch⟩ := hext _ _ hnode
  unfold Tree.loss? Round.own?
  rw [hnode, hnode']
  simp only [Option.bind_eq_bind, Option.bind_some, hparent, hbranch, value?_snoc_self hnew]
  cases hp : node.parent with
  | none =>
    rw [hplaced.linked.branch_eq_none hnode hp]
    rfl
  | some p =>
    obtain ⟨v, hv, hbound⟩ := h.above hnode hp
    have hv' := (value?_parent hfresh hnode hp).trans hv
    simp only [Option.bind_some, hv', hbound hnew]
    cases r.optimum? <;> rfl

include h hplaced hfresh hext hkeep in
/-- The node taken up adds the loss of its branch to those of the tree. -/
theorem perm_losses : (r.after.tree.losses (value? (done ++ [r]))).Perm
    (r.before.tree.losses (value? done) ++ r.own?.toList) := by
  obtain ⟨node, hnode, -⟩ := hfresh.1
  have hsize : r.before.tree.size ≤ r.after.tree.size := by
    by_contra hlt
    obtain ⟨last, hlast⟩ : ∃ last, r.before.tree.get? r.after.tree.size = some last :=
      Option.isSome_iff_exists.mp (by simpa [Tree.get?, Tree.size] using hlt)
    obtain ⟨last', hlast', -⟩ := hext _ _ hlast
    exact Nat.lt_irrefl _ (Tree.get?_lt_size hlast')
  rw [← loss?_entry h hplaced hfresh hext]
  refine Tree.perm_losses (Tree.get?_lt_size hnode) hsize (value?_eq_none (not_mem_done hplaced)) ?_
    fun k hk => value?_of_size_le hplaced hk
  intro k hk hne
  obtain ⟨old, hold⟩ : ∃ old, r.before.tree.get? k = some old :=
    Option.isSome_iff_exists.mp (by simpa [Tree.get?, Tree.size] using hk)
  -- the node and the values above and at it are as they were
  unfold Tree.loss?
  rw [hold, hkeep hold hne, value?_snoc_of_ne hne]
  simp only [Option.bind_eq_bind, Option.bind_some]
  cases hp : old.parent with
  | none => rfl
  | some p => simp only [Option.bind_some, value?_parent hfresh hold hp]

include h hplaced hfresh hext hkeep hsplits in
/-- A round with a successful visit keeps what is known. -/
theorem snoc (hasks : r.Asks ctx) (hobserves : r.Observes ctx) :
    Gathered ctx (done ++ [r]) r.after.tree r.after.scoring where
  asks d hd := by
    rcases List.mem_append.mp hd with hd | hd
    · exact h.asks d hd
    · cases List.mem_singleton.mp hd
      exact hasks
  moved := moved_snoc h hext hsplits
  above := above_snoc h hplaced hfresh hext hkeep hsplits
  table := by
    obtain ⟨ls, hperm, htable⟩ := h.table
    refine ⟨ls ++ (r.own?.toList ++ r.resolved ctx.problem ctx.settings.rule), ?_, ?_⟩
    · refine (hperm.append_right _).trans ?_
      unfold observations
      rw [resolves_snoc]
      refine List.Perm.trans ?_ ((perm_losses h hplaced hfresh hext hkeep).symm.append_right _)
      rw [List.append_assoc, List.append_assoc]
      exact (List.perm_append_comm_assoc _ _ _).append_left _
    · rw [hobserves.table, htable, ← List.foldl_append]
  full := by
    rw [hobserves.full, h.full, resolves_snoc, List.length_append]

end Step

end Gathered

/-! ## Runs -/

section Runs

variable {ctx : Context σ α} {backend : σ} {n : ℕ}

/-- The rounds of a search, with its requests written down. -/
def history (ctx : Context σ α) (backend : σ) (n : ℕ) : List (Round (σ × List (Exchange α)) α) :=
  rounds (ctx.over (transcribing ctx.backend)) n
    (initial (ctx.over (transcribing ctx.backend)) (backend, []))

theorem gathered_initial (ctx : Context σ α) (backend : σ) :
    Gathered ctx [] (initial (ctx.over (transcribing ctx.backend)) (backend, [])).tree
      (initial (ctx.over (transcribing ctx.backend)) (backend, [])).scoring where
  asks := nofun
  moved {k node b} hk hb := by
    have hlt : k < 1 := Tree.get?_lt_size hk
    obtain rfl : k = 0 := by omega
    cases hk
    cases hb
  above {k node p} hk hp := by
    have hlt : k < 1 := Tree.get?_lt_size hk
    obtain rfl : k = 0 := by omega
    cases hk
    cases hp
  table := ⟨[], List.Perm.refl _, rfl⟩
  full := rfl

/-- What is known between two nodes is known at all times of a run. -/
theorem gathered_of_running [DiscernibleScalar α] {s : State (σ × List (Exchange α)) α}
    (h : (Phase.running (initial (ctx.over (transcribing ctx.backend)) (backend, []))).advance
      (ctx.over (transcribing ctx.backend)) n = .running s) :
    Gathered ctx (history ctx backend n) s.tree s.scoring := by
  refine (holds_of_running (P := fun done s =>
    Narrated (ctx.over (transcribing ctx.backend)) (done.map Round.entry) s.ledger ∧
      Balanced ctx.settings.rule s.processed s.scoring ∧ Gathered ctx done s.tree s.scoring)
    ?_ ⟨narrated_initial _ _, balanced_initial ctx backend, gathered_initial ctx backend⟩ h).2.2
  rintro done s t e rest ⟨hnarrated, hbalanced, hgathered⟩ htakes
  have hvisits := visits_of_runs_visit htakes.visit
  obtain ⟨hplaced, hfresh⟩ := hnarrated.orderly.placed.pop htakes.pop?
  obtain ⟨hasks, hobserves, hsplits⟩ :=
    observes_of_visits (s := { s with frontier := rest }) hbalanced hvisits
  refine ⟨?_, balanced_visits hvisits hbalanced, ?_⟩
  · rw [List.map_append]
    exact hnarrated.turn htakes.pop? (turn_of_visits (s := { s with frontier := rest }) hvisits)
  · exact hgathered.snoc (r := ⟨e, { s with frontier := rest }, t⟩) hplaced hfresh
      hvisits.visited.extends (fun hk hne => hvisits.visited.get?_of_ne hk hne) hsplits hasks
      hobserves

/-- A run has a twin whose requests are written down. -/
theorem exists_transcribed {s : State σ α}
    (h : (Phase.running (initial ctx backend)).advance ctx n = .running s) :
    ∃ t, (Phase.running (initial (ctx.over (transcribing ctx.backend)) (backend, []))).advance
        (ctx.over (transcribing ctx.backend)) n = .running t ∧ t.tree = s.tree ∧
      t.scoring.table = s.scoring.table ∧ t.scoring.fullResolves = s.scoring.fullResolves := by
  have hrespects : Respects (ctx.over (transcribing ctx.backend)) ctx.backend
      (Scoring.Alike fun (b : σ × List (Exchange α)) c => b.1 = c) :=
    respects_alike (answersLike_transcribing ctx.backend ctx.problem)
  have hstart : (initial (ctx.over (transcribing ctx.backend)) (backend, [])).Agrees
      (Scoring.Alike fun b c => b.1 = c) (initial ctx backend) :=
    ⟨_, rfl, rfl, rfl, rfl, rfl, rfl, rfl, rfl, rfl⟩
  have hagrees : Phase.Agrees (Scoring.Alike fun b c => b.1 = c)
      ((Phase.running (initial (ctx.over (transcribing ctx.backend)) (backend, []))).advance
        (ctx.over (transcribing ctx.backend)) n)
      ((Phase.running (initial ctx backend)).advance ctx n) :=
    hrespects.agrees_advance (.inr rfl) ctx.settings.rule n (.running hstart)
  rw [h] at hagrees
  generalize Phase.advance (ctx.over (transcribing ctx.backend)) n _ = phase at hagrees ⊢
  cases hagrees with
  | running hst =>
    obtain ⟨scoring, rfl, halike⟩ := hst
    exact ⟨_, rfl, rfl, halike.table, halike.fullResolves⟩

end Runs

/-! ## Exact numbers -/

section Exact

variable {ctx : Context σ ExtRat} {backend : σ} {n : ℕ}
  {done : List (Round (σ × List (Exchange ExtRat)) ExtRat)} {tree : Tree ExtRat}
  {scoring : Scoring (σ × List (Exchange ExtRat)) ExtRat}

/-- The optima that were found in some rounds have finite values. -/
def FiniteOptima (done : List (Round (σ × List (Exchange ExtRat)) ExtRat)) : Prop :=
  ∀ r ∈ done, ∀ e ∈ r.exchanges, ∀ a ∈ e.optimum?, Scalar.isFinite a.objective = true

theorem FiniteOptima.value? (h : FiniteOptima done) {id : ℕ} {v : ExtRat}
    (hv : value? done id = some v) : Scalar.isFinite v = true := by
  obtain ⟨r, hr, e, he, a, ha, rfl⟩ := exists_of_value? hv
  exact h r hr e he a ha

/-- What the children lost that were solved for a score is observed where their values are
finite. -/
theorem Round.tells_of_mem_resolved {r : Round (σ × List (Exchange ExtRat)) ExtRat}
    (hfinite : ∀ e ∈ r.exchanges, ∀ a ∈ e.optimum?, Scalar.isFinite a.objective = true)
    {l : Loss ExtRat} (hl : l ∈ r.resolved ctx.problem ctx.settings.rule) : l.Tells := by
  unfold Round.resolved at hl
  split at hl
  · cases hl
  · rename_i a ha
    obtain ⟨e, he, ha⟩ := Option.bind_eq_some_iff.mp ha
    unfold Scoring.resolved at hl
    split at hl
    · obtain ⟨hb, habove, d, hd, b, hb', hbelow⟩ := of_mem_losses hl
      refine ⟨moved_of_mem_wanted hb, ?_, ?_⟩
      · rw [habove]
        exact hfinite e (List.mem_of_mem_head? he) a ha
      · rw [← hbelow]
        exact hfinite d (List.mem_of_mem_tail hd) b hb'
    · cases hl

/-- Where all values are finite, all losses are observed. -/
theorem Gathered.tells (h : Gathered ctx done tree scoring) (hfinite : FiniteOptima done) :
    ∀ l ∈ observations ctx done tree, l.Tells := by
  intro l hl
  rcases List.mem_append.mp hl with hl | hl
  · obtain ⟨k, -, hk⟩ := List.mem_filterMap.mp hl
    obtain ⟨node, p, hnode, hb, -, habove, hbelow⟩ := Tree.loss?_eq_some_iff.mp hk
    exact ⟨h.moved hnode hb, hfinite.value? habove, hfinite.value? hbelow⟩
  · obtain ⟨r, hr, hl⟩ := List.mem_flatMap.mp hl
    exact Round.tells_of_mem_resolved (hfinite r hr) hl

/-- The table is the same whatever order the observations are made in. -/
theorem Gathered.table_eq (h : Gathered ctx done tree scoring) (hfinite : FiniteOptima done)
    {ls : List (Loss ExtRat)} (hls : ls.Perm (observations ctx done tree)) :
    scoring.table = ls.foldl PseudocostTable.observe (.ofObjective ctx.problem.objective) := by
  obtain ⟨made, hmade, htable⟩ := h.table
  rw [htable]
  exact PseudocostTable.foldl_observe_perm (hmade.trans hls.symm)
    (fun l hl => h.tells hfinite l (hmade.mem_iff.mp hl)) _

/-- There is a value above every node that was created by a branch. -/
theorem Gathered.exists_value (h : Gathered ctx done tree scoring) (hlinked : tree.Linked) {k : ℕ}
    {node : Node ExtRat} {b : Branch ExtRat} (hk : tree.get? k = some node)
    (hb : node.branch = some b) : ∃ p v, node.parent = some p ∧ value? done p = some v := by
  cases hp : node.parent with
  | none =>
    rw [hlinked.branch_eq_none hk hp] at hb
    cases hb
  | some p =>
    obtain ⟨v, hv, -⟩ := h.above hk hp
    exact ⟨p, v, rfl, hv⟩

/-- An entry counts the nodes with a value and the children that were resolved, and it is the mean
of what they lost. -/
theorem Gathered.exists_entry (h : Gathered ctx done tree scoring) (hfinite : FiniteOptima done)
    (hlinked : tree.Linked) (sense : Sense) {var : ℕ} {c : ExtRat}
    (hc : ctx.problem.objective[var]? = some c) :
    ∃ entry, (scoring.table.side sense)[var]? = some entry ∧
      entry.count = (tree.solvedAlong (value? done) sense var).length
        + (resolves ctx done).countP (·.branch.along sense var) ∧
      entry.Averages c (ratesAlong sense var (observations ctx done tree)) := by
  obtain ⟨entry, hentry, haverages⟩ :=
    PseudocostTable.exists_averages (h.tells hfinite) hc sense
  rw [← h.table_eq hfinite (List.Perm.refl _)] at hentry
  refine ⟨entry, hentry, ?_, haverages⟩
  rw [haverages.count, ratesAlong, List.length_map, ← List.countP_eq_length_filter, observations,
    List.countP_append, Tree.countP_losses fun k node b hk hb => h.exists_value hlinked hk hb]

/-- Between any two nodes of a search with finite optima, the requests so far were for the nodes
and for the children that reliability branching wanted. The count of an entry is the number of nodes
with an optimum that were created by branching on its variable in its direction, and of the optima
found for the scores of such children. Its estimate is the mean of what these lost, or the size of
the coefficient if there are none. So the table is the same whatever order the losses are observed
in, and the resolves that are counted are those that were observed. -/
theorem pseudocosts_are_means {s : State σ ExtRat}
    (hrun : (Phase.running (initial ctx backend)).advance ctx n = .running s)
    (hfinite : FiniteOptima (history ctx backend n)) :
    (∀ r ∈ history ctx backend n, r.Asks ctx) ∧
    (∀ sense var c, ctx.problem.objective[var]? = some c →
      ∃ entry, (s.scoring.table.side sense)[var]? = some entry ∧
        entry.count
          = (s.tree.solvedAlong (value? (history ctx backend n)) sense var).length
            + (resolves ctx (history ctx backend n)).countP (·.branch.along sense var) ∧
        entry.Averages c
          (ratesAlong sense var (observations ctx (history ctx backend n) s.tree))) ∧
    (∀ ls : List (Loss ExtRat), ls.Perm (observations ctx (history ctx backend n) s.tree) →
      s.scoring.table
        = ls.foldl PseudocostTable.observe (.ofObjective ctx.problem.objective)) ∧
    s.scoring.fullResolves = (resolves ctx (history ctx backend n)).length := by
  obtain ⟨t, ht, htree, htable, hfull⟩ := exists_transcribed hrun
  have h := gathered_of_running ht
  have hlinked : s.tree.Linked := by
    have hnarrated := narrated_of_run ctx backend n
    rw [hrun] at hnarrated
    exact hnarrated.orderly.placed.linked
  rw [htree] at h
  rw [← htable, ← hfull]
  exact ⟨h.asks, fun sense var c hc => h.exists_entry hfinite hlinked sense hc,
    fun ls hls => h.table_eq hfinite hls, h.full⟩

/-- Answers to a search that looks at every node: after the root, one child has an optimum for its
score and the other one does not, and then the first child has another optimum as a node. -/
def averagingScript : Script ExtRat :=
  .new [.ok ⟨.optimal, [.fin (1 / 2)], .fin 2, 3⟩, .ok ⟨.optimal, [0], 1, 2⟩,
    .ok ⟨.iterationLimit, [1], .fin (3 / 2), 1⟩, .ok ⟨.optimal, [0], .fin (3 / 2), 1⟩]

/-- A search that is given them. -/
def averagingContext : Context (Script ExtRat) ExtRat where
  problem := doubled 3
  settings :=
    { Settings.standard.generalInteger with
      rule := .reliability .standard
      enumerateAll := true }
  backend := scripted
  clock := id

/-- The branch to the first child moved its variable by one half. It lost one unit where it was
solved for a score and half a unit as a node, so the mean of two and one is observed. -/
theorem pseudocosts_are_means_averaging :
    ∃ s, (Phase.running (initial averagingContext averagingScript)).advance averagingContext 2
        = .running s ∧
      ∃ entry, (s.scoring.table.side .down)[0]? = some entry ∧ entry.count = 1 + 1 ∧
        entry.estimate = .fin (3 / 2) := by
  have hrun : (match (Phase.running (initial averagingContext averagingScript)).advance
        averagingContext 2 with
      | .running s => some
        (s.tree.solvedAlong (value? (history averagingContext averagingScript 2)) .down 0,
          ratesAlong .down 0
            (observations averagingContext (history averagingContext averagingScript 2) s.tree))
      | .ended _ _ => none) = some ([1], [1, .fin 2]) := by
    decide +kernel
  have hresolves : (resolves averagingContext (history averagingContext averagingScript 2)).countP
      (·.branch.along .down 0) = 1 := by
    decide +kernel
  have hfinite : FiniteOptima (history averagingContext averagingScript 2) := by
    unfold FiniteOptima
    decide +kernel
  cases hphase : (Phase.running (initial averagingContext averagingScript)).advance
      averagingContext 2 with
  | ended result s =>
    rw [hphase] at hrun
    cases hrun
  | running s =>
    rw [hphase] at hrun
    obtain ⟨hnodes, hrates⟩ := Prod.mk.inj (Option.some.inj hrun)
    obtain ⟨-, hentries, -⟩ := pseudocosts_are_means hphase hfinite
    obtain ⟨entry, hentry, hcount, -, hestimate⟩ := hentries .down 0 (.fin 1) rfl
    rw [hnodes, hresolves] at hcount
    rw [hrates, if_neg (List.cons_ne_nil _ _)] at hestimate
    refine ⟨s, rfl, entry, hentry, hcount, hestimate.trans ?_⟩
    decide +kernel

end Exact

end Search

end BranchBound
