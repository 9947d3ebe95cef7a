import Mathlib.Logic.Function.Basic
import BranchBound.Proofs.Search.EventStream
import BranchBound.Proofs.Search.OrderIndependence

/-!
# The order of the nodes, replayed from the events

A reader who sees nothing but the events of a search can say which node comes next. The reader keeps
a list of the open nodes with keys of its own, which it works out from the depths, bounds and
branches that were told, and mean losses per unit for every variable, which it works out from the
bounds of the nodes that were solved. Where the rule needs no solves of its own, and the backend's
values are finite, every prediction is right.

* `Replay`, `Replay.run?`: the reader.
* `DiscernibleScalar`: what this rests on in the arithmetic. It holds of exact numbers and, as
  `ReplayDoubles` shows, of doubles.
* `Reflects`: what the reader knows agrees with the search.
* `Mirrors`, `mirrors_visits`: a visit keeps the agreement.
* `replay_predicts`: all predictions are right, however the search ends.
-/

namespace BranchBound

/-! ## The reader -/

/-- An open node, as the reader knows it. -/
structure Replay.Item (α : Type) where
  key : α
  /-- How many items came before. -/
  number : ℕ
  node : ℕ

/-- What a reader of the events has worked out. -/
structure Replay (α : Type) where
  queue : List (Replay.Item α)
  /-- Number of items ever added. -/
  pushed : ℕ
  /-- Mean losses per unit of all variables in a direction, with the numbers of observations. -/
  means : Sense → List (α × ℕ)
  depthOf : ℕ → Option ℕ
  /-- Values of the nodes that were solved. -/
  boundOf : ℕ → Option α
  /-- Parent and branch of a node. -/
  branchOf : ℕ → Option (ℕ × Branch α)
  /-- The nodes predicted so far. -/
  predicted : List ℕ

namespace Replay

open Search

variable {α : Type} [Scalar α]

/-- Nothing was told yet; the means are seeded with the sizes of the objective coefficients. -/
def new (objective : List α) : Replay α where
  queue := []
  pushed := 0
  means _ := objective.map fun c => (Scalar.abs c, 0)
  depthOf _ := none
  boundOf _ := none
  branchOf _ := none
  predicted := []

/-- By key, then by number. -/
def Item.compare (a b : Item α) : Ordering :=
  (Scalar.totalCompare a.key b.key).then (Ord.compare a.number b.number)

/-- The first of the least items. -/
def least (first : Item α) (rest : List (Item α)) : Item α :=
  rest.foldl (fun best x => if best.compare x = .gt then x else best) first

/-- Adds an open node. -/
def push {α : Type} (r : Replay α) (key : α) (node : ℕ) : Replay α :=
  { r with queue := r.queue ++ [⟨key, r.pushed, node⟩], pushed := r.pushed + 1 }

/-- Takes out the least item, and predicts its node. -/
def predict? (r : Replay α) : Option (Replay α) :=
  match r.queue with
  | [] => none
  | first :: rest =>
    let next := least first rest
    some { r with
      queue := r.queue.filter fun x => x.number ≠ next.number
      predicted := r.predicted ++ [next.node] }

/-- Adds the loss along a branch to the mean of its variable. -/
def learn? (r : Replay α) (b : Branch α) (parent child : α) : Option (Replay α) :=
  (r.means b.sense)[b.var]?.map fun (mean, n) =>
    let loss := (parent - child) / Scalar.abs (b.value - b.rhs)
    let mean := (mean * Scalar.ofNat n + loss) / (Scalar.ofNat n + 1)
    { r with
      means := Function.update r.means b.sense ((r.means b.sense).set b.var (mean, n + 1)) }

/-- A node was solved. -/
def solve? (r : Replay α) (id : ℕ) (bound : α) : Option (Replay α) :=
  let r := { r with boundOf := Function.update r.boundOf id (some bound) }
  match r.branchOf id with
  | none => some r
  | some (parent, b) => do
    let above ← r.boundOf parent
    r.learn? b above bound

/-- How far a branch moves its variable. -/
def movement (b : Branch α) : α :=
  match b.sense with
  | .down => b.value - Scalar.floor b.value
  | .up => Scalar.ceil b.value - b.value

/-- Key of a child, from the depth and the value of its parent. -/
def childKey? (selection : NodeSelection) (r : Replay α) (b : Branch α) (depth : ℕ) (bound : α) :
    Option α :=
  match selection with
  | .depthFirst => some (-(Scalar.ofNat depth) - 1)
  | .bestFirst => some (-bound)
  | .bestEstimate => (r.means b.sense)[b.var]?.map fun (mean, _) => -bound + mean * movement b

/-- Whether a node with this status was solved. One that was pruned before has no infeasibility. -/
def isSolved {α : Type} : NodeStatus → Option (Infeasibility α) → Bool
  | .integer, _ => true
  | .candidate, _ => true
  | .fathomed, infeasibility => infeasibility.isSome
  | .infeasible, _ => false

/-- What the reader makes of an event. -/
def feed? (selection : NodeSelection) (r : Replay α) : Event α → Option (Replay α)
  | .created id none depth _ =>
    some ({ r with depthOf := Function.update r.depthOf id (some depth) }.push
      (-Scalar.infinity) id)
  | .created id (some parent) depth (some b) => do
    let above ← r.depthOf parent
    let bound ← r.boundOf parent
    guard (depth = above + 1)
    let key ← childKey? selection r b above bound
    some ({ r with
      depthOf := Function.update r.depthOf id (some depth)
      branchOf := Function.update r.branchOf id (some (parent, b)) }.push key id)
  | .created _ (some _) _ none => none
  | .updated id status bound infeasibility => do
    let r ← r.predict?
    if isSolved status infeasibility then r.solve? id bound else some r
  | .incumbent _ _ => some r

/-- What the reader makes of all events. -/
def run? (selection : NodeSelection) (objective : List α) (events : List (Event α)) :
    Option (Replay α) :=
  events.foldlM (feed? selection) (new objective)

theorem run?_snoc (selection : NodeSelection) (objective : List α) (events : List (Event α))
    (event : Event α) : run? selection objective (events ++ [event])
      = (run? selection objective events).bind fun r => feed? selection r event := by
  simp [run?, List.foldlM_append]

end Replay

/-! ## Arithmetic -/

/-- The total comparison can be read from either side, and a fractional value is apart from the
whole numbers around it. -/
class DiscernibleScalar (α : Type) [Scalar α] : Prop where
  totalCompare_swap : ∀ a b : α, Scalar.totalCompare a b = (Scalar.totalCompare b a).swap
  apart : ∀ v : α, Problem.fractionalTol < Scalar.fractionality v →
    ¬ Scalar.abs (v - Scalar.floor v) ≤ 0 ∧ ¬ Scalar.abs (v - Scalar.ceil v) ≤ 0

instance : DiscernibleScalar ExtRat where
  totalCompare_swap a b := by
    rcases lt_trichotomy a b with h | rfl | h
    · rw [ExtRat.totalCompare_eq_lt_iff.mpr h, ExtRat.totalCompare_eq_gt_iff.mpr h]
      rfl
    · rw [ExtRat.totalCompare_self]
      rfl
    · rw [ExtRat.totalCompare_eq_lt_iff.mpr h, ExtRat.totalCompare_eq_gt_iff.mpr h]
      rfl
  apart v hv := by
    obtain ⟨a, rfl, hfloor, hceil⟩ := exists_fin_of_fractional hv
    rw [ExtRat.floor_fin, ExtRat.ceil_fin, ExtRat.fin_sub, ExtRat.fin_sub, ExtRat.abs_fin,
      ExtRat.abs_fin, ExtRat.zero_eq_fin, ExtRat.fin_le_fin, ExtRat.fin_le_fin]
    constructor
    · exact not_le.mpr (abs_pos.mpr (sub_ne_zero.mpr (ne_of_gt hfloor)))
    · exact not_le.mpr (abs_pos.mpr (sub_ne_zero.mpr (ne_of_lt hceil)))

/-- What is chosen as a candidate moves its variable in both directions. -/
theorem Candidate.apart {α : Type} [Scalar α] [DiscernibleScalar α] {c : Candidate α}
    (h : Problem.fractionalTol < Scalar.fractionality c.value) :
    ¬ c.down.distance ≤ 0 ∧ ¬ c.up.distance ≤ 0 :=
  DiscernibleScalar.apart c.value h

/-! ## Agreement -/

namespace PseudocostTable

variable {α : Type}

/-- The means of a table, without its structure. -/
def means (t : PseudocostTable α) (sense : Sense) : List (α × ℕ) :=
  (t.side sense).map fun p => (p.estimate, p.count)

theorem side_set (t : PseudocostTable α) (sense : Sense) (var : ℕ) (p : Pseudocost α) :
    (t.set sense var p).side = Function.update t.side sense ((t.side sense).set var p) := by
  funext other
  cases sense <;> cases other <;> rfl

end PseudocostTable

namespace Replay

open Search

variable {α : Type}

/-- An open node of a search, as the reader should know it. -/
def Item.ofEntry (e : Entry α) : Item α := ⟨e.priority, e.serial, e.node⟩

variable [Scalar α]

/-- The means are seeded as the pseudocosts are. -/
theorem means_new (objective : List α) :
    (new objective).means = (PseudocostTable.ofObjective objective).means := by
  funext sense
  cases sense with
  | down =>
    simp [new, PseudocostTable.means, PseudocostTable.side, PseudocostTable.ofObjective,
      Pseudocost.seed]
  | up =>
    simp [new, PseudocostTable.means, PseudocostTable.side, PseudocostTable.ofObjective,
      Pseudocost.seed]

/-- The reader gives up an item for another one where the search does. -/
theorem compare_eq_gt_iff [DiscernibleScalar α] (a b : Entry α) :
    (Item.ofEntry a).compare (Item.ofEntry b) = .gt ↔ b.before a = true := by
  unfold Item.compare Item.ofEntry Entry.before
  rw [DiscernibleScalar.totalCompare_swap a.priority b.priority]
  cases Scalar.totalCompare b.priority a.priority with
  | lt => simp
  | eq => simp [Nat.compare_eq_gt]
  | gt => simp

theorem least_map [DiscernibleScalar α] (e : Entry α) (rest : List (Entry α)) :
    least (.ofEntry e) (rest.map .ofEntry) = .ofEntry (Frontier.first e rest) := by
  unfold least Frontier.first
  rw [List.foldl_map]
  induction rest generalizing e with
  | nil => rfl
  | cons d rest ih =>
    rw [List.foldl_cons, List.foldl_cons, ← ih]
    congr 1
    by_cases h : d.before e = true
    · rw [if_pos h, if_pos ((compare_eq_gt_iff e d).mpr h)]
    · rw [if_neg h, if_neg fun hgt => h ((compare_eq_gt_iff e d).mp hgt)]

/-- Where the reader's queue is the frontier, it predicts the node that is taken. -/
theorem predict?_eq [DiscernibleScalar α] {r : Replay α} {f rest : Frontier α} {e : Entry α}
    (hqueue : r.queue = f.entries.map .ofEntry) (hpop : f.pop? = some (e, rest)) :
    r.predict? = some { r with
      queue := rest.entries.map .ofEntry
      predicted := r.predicted ++ [e.node] } := by
  obtain ⟨-, hentries, -⟩ := Frontier.pop?_eq_some hpop
  unfold Frontier.pop? at hpop
  split at hpop
  · cases hpop
  · rename_i d tail hlist
    cases hpop
    unfold predict?
    rw [hqueue, hlist, List.map_cons]
    dsimp only
    rw [least_map, ← List.map_cons, List.filter_map]
    rfl

/-- A branch that moved its variable between finite values is observed as the table learns it. -/
theorem learn?_eq {r : Replay α} {table table' : PseudocostTable α} {b : Branch α}
    {parent child : α} {changed : Option (Pseudocost α)} (hmeans : r.means = table.means)
    (hmoved : ¬ b.distance ≤ 0) (hparent : Scalar.isFinite parent = true)
    (hchild : Scalar.isFinite child = true)
    (hupdate : table.update? b parent child = some (table', changed)) :
    r.learn? b parent child = some { r with means := table'.means } := by
  have hinformative : PseudocostTable.informative b parent child = true := by
    simp [PseudocostTable.informative, hmoved, hparent, hchild]
  unfold PseudocostTable.update? at hupdate
  rw [if_pos hinformative] at hupdate
  obtain ⟨entry, hentry, hset⟩ := Option.map_eq_some_iff.mp hupdate
  cases hset
  have hmean : (r.means b.sense)[b.var]? = some (entry.estimate, entry.count) := by
    rw [hmeans, PseudocostTable.means, List.getElem?_map, hentry]
    rfl
  -- the new means differ from the old ones in one direction, at one variable
  unfold learn?
  rw [hmean, Option.map_some]
  dsimp only
  congr 2
  funext sense
  rw [PseudocostTable.means, PseudocostTable.side_set]
  by_cases hsense : sense = b.sense
  · rw [hsense, Function.update_self, Function.update_self, hmeans, PseudocostTable.means,
      List.map_set]
    rfl
  · rw [Function.update_of_ne hsense, Function.update_of_ne hsense, hmeans]
    rfl

/-- The reader gives the children of a node the priorities they have. -/
theorem childKey?_eq {r : Replay α} {table : PseudocostTable α} {selection : NodeSelection}
    {depth : ℕ} {bound down up : α} {c : Candidate α} (hmeans : r.means = table.means)
    (h : childPriorities? selection table depth bound c = some (down, up)) :
    childKey? selection r c.down depth bound = some down ∧
      childKey? selection r c.up depth bound = some up := by
  cases selection with
  | depthFirst =>
    cases h
    exact ⟨rfl, rfl⟩
  | bestFirst =>
    cases h
    exact ⟨rfl, rfl⟩
  | bestEstimate =>
    obtain ⟨⟨loss, loss'⟩, hgains, heq⟩ := Option.map_eq_some_iff.mp h
    cases heq
    unfold PseudocostTable.gains? at hgains
    obtain ⟨p, hp, hgains⟩ := Option.bind_eq_some_iff.mp hgains
    obtain ⟨q, hq, hgains⟩ := Option.bind_eq_some_iff.mp hgains
    cases hgains
    have hdown : (r.means .down)[c.var]? = some (p.estimate, p.count) := by
      rw [hmeans, PseudocostTable.means, List.getElem?_map]
      show (table.down[c.var]?).map _ = _
      rw [hp]
      rfl
    have hup : (r.means .up)[c.var]? = some (q.estimate, q.count) := by
      rw [hmeans, PseudocostTable.means, List.getElem?_map]
      show (table.up[c.var]?).map _ = _
      rw [hq]
      rfl
    constructor
    · show ((r.means .down)[c.var]?).map _ = _
      rw [hdown]
      rfl
    · show ((r.means .up)[c.var]?).map _ = _
      rw [hup]
      rfl

end Replay

namespace Search

open Relaxation

variable {σ α : Type} [Scalar α]

/-- What the reader needs to know of a node to observe its branch: the value of its parent, which is
finite, and a branch that moved its variable. -/
structure Known (r : Replay α) (node : Node α) (parent : ℕ) : Prop where
  boundOf : r.boundOf parent = some node.bound
  isFinite : Scalar.isFinite node.bound = true
  moved : ∃ b, node.branch = some b ∧ ¬ b.distance ≤ 0

/-- What the reader knows agrees with the tree, the open nodes and the pseudocosts. -/
structure Reflects (r : Replay α) (tree : Tree α) (f : Frontier α) (table : PseudocostTable α) :
    Prop where
  queue : r.queue = f.entries.map .ofEntry
  pushed : r.pushed = f.added
  means : r.means = table.means
  depth : ∀ {id node}, tree.get? id = some node → r.depthOf id = some node.depth
  branch : ∀ {id node}, tree.get? id = some node →
    r.branchOf id = node.parent.bind fun p => node.branch.map fun b => (p, b)
  known : ∀ {d node p}, d ∈ f.entries → tree.get? d.node = some node → node.parent = some p →
    Known r node p

/-- What the optimum of a node adds to the pseudocosts. -/
def TableLearns (node : Node α) (relax : α) (table table' : PseudocostTable α) : Prop :=
  match node.branch with
  | none => table' = table
  | some b => ∃ changed, table.update? b node.bound relax = some (table', changed)

namespace Reflects

variable {r : Replay α} {tree tree' : Tree α} {f rest : Frontier α} {e : Entry α}
  {table table' : PseudocostTable α} {taken : List (Entry α)} {node : Node α} {id : ℕ}

/-- The reader follows when a node is taken up and changed in its place. -/
theorem take {g : Node α → Node α} (h : Reflects r tree f table)
    (hplaced : Placed (taken ++ [e]) tree rest) (hpop : f.pop? = some (e, rest))
    (hg : KeepsPlace g) (ids : List ℕ) :
    Reflects { r with queue := rest.entries.map .ofEntry, predicted := ids }
      (tree.modify e.node g) rest table where
  queue := rfl
  pushed := by
    obtain ⟨-, -, hadded, -⟩ := Frontier.pop?_eq_some hpop
    rw [hadded]
    exact h.pushed
  means := h.means
  depth hnode := by
    obtain ⟨before, hbefore, -, -, hdepth, -⟩ := Tree.exists_of_keepsPlace hg hnode
    rw [hdepth]
    exact h.depth hbefore
  branch hnode := by
    obtain ⟨before, hbefore, -, hparent, -, hbranch⟩ := Tree.exists_of_keepsPlace hg hnode
    rw [hparent, hbranch]
    exact h.branch hbefore
  known {d node p} hd hnode hparent := by
    obtain ⟨-, hentries, -⟩ := Frontier.pop?_eq_some hpop
    rw [Tree.get?_modify, if_neg (hplaced.ne_of_mem hd).symm] at hnode
    rw [hentries] at hd
    obtain ⟨hbound, hfinite, hmoved⟩ := h.known (List.mem_filter.mp hd).1 hnode hparent
    exact ⟨hbound, hfinite, hmoved⟩

/-- The reader learns the value of a node without children. -/
theorem setBound (h : Reflects r tree f table) (hleaf : tree.children id = []) (relax : α) :
    Reflects { r with boundOf := Function.update r.boundOf id (some relax) } tree f table where
  queue := h.queue
  pushed := h.pushed
  means := h.means
  depth := h.depth
  branch := h.branch
  known {d node p} hd hnode hparent := by
    obtain ⟨hbound, hfinite, hmoved⟩ := h.known hd hnode hparent
    have hne : p ≠ id := by
      rintro rfl
      exact Tree.parent_ne_of_leaf hleaf hnode hparent
    exact ⟨(Function.update_of_ne hne _ _).trans hbound, hfinite, hmoved⟩

/-- The reader learns from the value of a node what the search learns. -/
theorem solve {relax : α} (h : Reflects r tree f table) (hleaf : tree.children id = [])
    (hbranch : r.branchOf id = node.parent.bind fun p => node.branch.map fun b => (p, b))
    (hroot : node.parent = none → node.branch = none) (hself : node.parent ≠ some id)
    (hknown : ∀ p, node.parent = some p → Known r node p)
    (hfinite : Scalar.isFinite relax = true) (hlearns : TableLearns node relax table table') :
    ∃ r', r.solve? id relax = some r' ∧ Reflects r' tree f table' ∧
      r'.boundOf id = some relax ∧ r'.predicted = r.predicted := by
  have hset := h.setBound hleaf relax
  -- the root has no branch to learn from; below it the value of the parent is known
  unfold Replay.solve?
  unfold TableLearns at hlearns
  cases hparent : node.parent with
  | none =>
    rw [hroot hparent] at hlearns
    rw [hparent, Option.bind_none] at hbranch
    rw [hlearns]
    dsimp only
    rw [hbranch]
    exact ⟨_, rfl, hset, Function.update_self _ _ _, rfl⟩
  | some p =>
    obtain ⟨hbound, habove, b, hb, hmoved⟩ := hknown p hparent
    rw [hb] at hlearns
    obtain ⟨changed, hupdate⟩ := hlearns
    have hne : p ≠ id := fun heq => hself (hparent.trans (congrArg some heq))
    rw [hparent, hb, Option.bind_some, Option.map_some] at hbranch
    dsimp only
    rw [hbranch]
    dsimp only
    rw [Function.update_of_ne hne, hbound]
    have hlearn := Replay.learn?_eq hset.means hmoved habove hfinite hupdate
    refine ⟨_, hlearn, ⟨hset.queue, hset.pushed, rfl, hset.depth, hset.branch, ?_⟩,
      Function.update_self _ _ _, rfl⟩
    intro d node p hd hnode hparent
    obtain ⟨hbound, hfinite, hmoved⟩ := hset.known hd hnode hparent
    exact ⟨hbound, hfinite, hmoved⟩

/-- The reader follows when a node that was solved gets a child. -/
theorem create {selection : NodeSelection} {b : Branch α} {key : α} (h : Reflects r tree f table)
    (hlinked : tree.Linked) (hopen : ∀ d ∈ f.entries, d.node < tree.size)
    (hnode : tree.get? id = some node) (hbound : r.boundOf id = some node.bound)
    (hfinite : Scalar.isFinite node.bound = true) (hmoved : ¬ b.distance ≤ 0)
    (hkey : Replay.childKey? selection r b node.depth node.bound = some key)
    (hchild : tree.addChild? id b = some tree') (bound : α) :
    ∃ r', r.feed? selection (.created tree.size (some id) (node.depth + 1) (some b)) = some r' ∧
      Reflects r' tree' (f.push tree.size key bound) table ∧ r'.boundOf = r.boundOf ∧
      r'.predicted = r.predicted := by
  have hid := hlinked.id_eq hnode
  refine ⟨{ r with
      depthOf := Function.update r.depthOf tree.size (some (node.depth + 1))
      branchOf := Function.update r.branchOf tree.size (some (id, b)) }.push key tree.size,
    ?_, ⟨?_, ?_, h.means, ?_, ?_, ?_⟩, rfl, rfl⟩
  · unfold Replay.feed?
    simp only [h.depth hnode, hbound, hkey, Option.bind_eq_bind, Option.bind_some, guard]
    rfl
  · simp only [Replay.push, Frontier.push, h.queue, h.pushed, List.map_append, List.map_cons,
      List.map_nil, Replay.Item.ofEntry]
  · simp only [Replay.push, Frontier.push, h.pushed]
  · intro k other hk
    rcases Tree.get?_addChild?_cases hnode hchild hk with ⟨rfl, rfl⟩ | ⟨hlt, hk⟩
    · exact Function.update_self _ _ _
    · exact (Function.update_of_ne (Nat.ne_of_lt hlt) _ _).trans (h.depth hk)
  · intro k other hk
    rcases Tree.get?_addChild?_cases hnode hchild hk with ⟨rfl, rfl⟩ | ⟨hlt, hk⟩
    · rw [Node.child, hid]
      exact Function.update_self _ _ _
    · exact (Function.update_of_ne (Nat.ne_of_lt hlt) _ _).trans (h.branch hk)
  · intro d other p hd hother hparent
    rcases List.mem_append.mp hd with hd | hd
    · rw [Tree.get?_addChild?_of_lt hnode hchild (hopen d hd)] at hother
      obtain ⟨hbound', hfinite', hmoved'⟩ := h.known hd hother hparent
      exact ⟨hbound', hfinite', hmoved'⟩
    · cases List.mem_singleton.mp hd
      rw [Tree.get?_addChild? hnode hchild, if_pos rfl] at hother
      cases hother
      cases hparent
      rw [hid]
      exact ⟨hbound, hfinite, b, rfl, hmoved⟩

end Reflects

/-! ## Turns -/

/-- The reader has followed all events, predicted every node right, and agrees with the search. -/
structure Mirrors (ctx : Context σ α) (r : Replay α) (s : Ledger α) (table : PseudocostTable α) :
    Prop where
  replayed : Replay.run? ctx.settings.selection ctx.problem.objective s.events = some r
  predicted : r.predicted = s.events.filterMap Event.updated?
  reflects : Reflects r s.tree s.frontier table

namespace Mirrors

variable {ctx : Context σ α} {r : Replay α} {s t : Ledger α} {table table' : PseudocostTable α}
  {taken : List (Entry α)} {e : Entry α} {rest : Frontier α} {g : Node α → Node α}
  {status : NodeStatus} {infeasibility : Option (Infeasibility α)} {relax : α}

/-- The reader predicts the node taken up. -/
theorem feed?_updated [DiscernibleScalar α] (h : Mirrors ctx r s table)
    (hpop : s.frontier.pop? = some (e, rest)) (status : NodeStatus) (bound : α)
    (infeasibility : Option (Infeasibility α)) :
    Replay.run? ctx.settings.selection ctx.problem.objective
        (s.events ++ [.updated e.node status bound infeasibility])
      = if Replay.isSolved status infeasibility then
          { r with
            queue := rest.entries.map .ofEntry
            predicted := r.predicted ++ [e.node] }.solve? e.node bound
        else some { r with
          queue := rest.entries.map .ofEntry
          predicted := r.predicted ++ [e.node] } := by
  rw [Replay.run?_snoc, h.replayed, Option.bind_some, Replay.feed?,
    Replay.predict?_eq h.reflects.queue hpop]
  rfl

/-- The reader follows when a node is closed that was not solved. -/
theorem close [DiscernibleScalar α] {bound : α} (h : Mirrors ctx r s table)
    (hplaced : Placed taken s.tree s.frontier) (hpop : s.frontier.pop? = some (e, rest))
    (hevents : t.events = s.events ++ [.updated e.node status bound infeasibility])
    (hunsolved : Replay.isSolved status infeasibility = false)
    (htree : t.tree = s.tree.modify e.node g) (hg : KeepsPlace g) (hfrontier : t.frontier = rest) :
    ∃ r', Mirrors ctx r' t table := by
  obtain ⟨hplaced, -⟩ := hplaced.pop hpop
  have hrun := h.feed?_updated hpop status bound infeasibility
  rw [hunsolved, if_neg Bool.false_ne_true, ← hevents] at hrun
  refine ⟨_, hrun, ?_, ?_⟩
  · rw [hevents, List.filterMap_append, ← h.predicted]
    rfl
  · rw [htree, hfrontier]
    exact h.reflects.take hplaced hpop hg _

/-- The reader follows when a node is solved. -/
theorem solve [DiscernibleScalar α] {node : Node α} (h : Mirrors ctx r s table)
    (hplaced : Placed taken s.tree s.frontier) (hpop : s.frontier.pop? = some (e, rest))
    (hevents : t.events = s.events ++ [.updated e.node status relax infeasibility])
    (hsolved : Replay.isSolved status infeasibility = true)
    (hnode : s.tree.get? e.node = some node) (hfinite : Scalar.isFinite relax = true)
    (hlearns : TableLearns node relax table table')
    (htree : t.tree = s.tree.modify e.node g) (hg : KeepsPlace g) (hfrontier : t.frontier = rest) :
    ∃ r', Mirrors ctx r' t table' ∧ r'.boundOf e.node = some relax := by
  obtain ⟨he, -⟩ := Frontier.pop?_eq_some hpop
  obtain ⟨hplaced, -, hleaf⟩ := hplaced.pop hpop
  have hlinked := hplaced.linked
  have hrun := h.feed?_updated hpop status relax infeasibility
  rw [hsolved, if_pos rfl, ← hevents] at hrun
  have htaken := h.reflects.take hplaced hpop hg (r.predicted ++ [e.node])
  have hleaf' : (s.tree.modify e.node g).children e.node = [] := by
    rw [Tree.children_modify hg]
    exact hleaf
  have hknown : ∀ p, node.parent = some p → Known { r with
      queue := rest.entries.map .ofEntry
      predicted := r.predicted ++ [e.node] } node p := by
    intro p hp
    obtain ⟨hbound, hfinite, hmoved⟩ := h.reflects.known he hnode hp
    exact ⟨hbound, hfinite, hmoved⟩
  have hself : node.parent ≠ some e.node := by
    intro hparent
    exact Nat.lt_irrefl _ (hlinked.parent_lt hnode hparent)
  obtain ⟨r', hsolve, hreflects, hbound, hpredicted⟩ := htaken.solve hleaf'
    (h.reflects.branch hnode) (hlinked.branch_eq_none hnode) hself hknown hfinite hlearns
  refine ⟨r', ⟨hrun.trans hsolve, ?_, ?_⟩, hbound⟩
  · rw [hpredicted, hevents, List.filterMap_append, ← h.predicted]
    rfl
  · rw [htree, hfrontier]
    exact hreflects

/-- An incumbent is nothing to the reader. -/
theorem offer (h : Mirrors ctx r s table) (id : ℕ) (x : List α) (objective : α) :
    Mirrors ctx r (s.offer id x objective) table := by
  unfold Ledger.offer
  split
  · refine ⟨?_, ?_, h.reflects⟩
    · rw [Replay.run?_snoc, h.replayed]
      rfl
    · rw [List.filterMap_append, h.predicted]
      exact (List.append_nil _).symm
  · exact h

/-- The reader follows when a node that was solved gets two children. -/
theorem split [DiscernibleScalar α] {id : ℕ} {node : Node α} {c : Candidate α}
    {tree tree' : Tree α} {down up : α} (h : Mirrors ctx r s table) (hlinked : s.tree.Linked)
    (hopen : ∀ d ∈ s.frontier.entries, d.node < s.tree.size) (hnode : s.tree.get? id = some node)
    (hbound : r.boundOf id = some node.bound) (hfinite : Scalar.isFinite node.bound = true)
    (hfraction : Problem.fractionalTol < Scalar.fractionality c.value)
    (hpriorities : childPriorities? ctx.settings.selection table node.depth node.bound c
      = some (down, up))
    (hdown : s.tree.addChild? id c.down = some tree) (hup : tree.addChild? id c.up = some tree')
    (bound : α) :
    ∃ r', Mirrors ctx r' (s.split id node.depth c.down c.up tree' down up bound) table := by
  obtain ⟨hlower, hupper⟩ := Candidate.apart hfraction
  obtain ⟨hkey, -⟩ := Replay.childKey?_eq h.reflects.means hpriorities
  obtain ⟨r₁, hfeed, hreflects, hbound₁, hpredicted⟩ := h.reflects.create hlinked hopen hnode hbound
    hfinite hlower hkey hdown bound
  -- the first child is open now, and its parent is as before
  have hlinked' := hlinked.addChild? hnode hdown
  have hsize := Tree.size_addChild? hdown
  have hopen' : ∀ d ∈ (s.frontier.push s.tree.size down bound).entries, d.node < tree.size := by
    intro d hd
    rw [hsize]
    rcases List.mem_append.mp hd with hd | hd
    · exact Nat.lt_succ_of_lt (hopen d hd)
    · cases List.mem_singleton.mp hd
      exact Nat.lt_succ_self _
  have hnode' := Tree.get?_addChild?_of_get? hnode hdown hnode
  obtain ⟨-, hkey'⟩ := Replay.childKey?_eq hreflects.means hpriorities
  obtain ⟨r₂, hfeed', hreflects', -, hpredicted'⟩ := hreflects.create hlinked' hopen' hnode'
    (by rw [hbound₁, hbound]) hfinite hupper hkey' hup bound
  rw [hsize] at hfeed' hreflects'
  refine ⟨r₂, ?_, ?_, hreflects'⟩
  · have hevents : (s.split id node.depth c.down c.up tree' down up bound).events
        = s.events ++ [.created s.tree.size (some id) (node.depth + 1) (some c.down)]
          ++ [.created (s.tree.size + 1) (some id) (node.depth + 1) (some c.up)] := by
      simp [Ledger.split]
    rw [hevents, Replay.run?_snoc, Replay.run?_snoc, h.replayed, Option.bind_some, hfeed,
      Option.bind_some, hfeed']
  · rw [hpredicted', hpredicted, h.predicted]
    simp [Ledger.split, Event.updated?]

end Mirrors

/-! ## Visits -/

section Visits

variable {ctx : Context σ α} {s t : State σ α} {node : Node α} {box : Box α} {a : Answer α}
  {scoring learned : Scoring σ α} {e : Entry α} {rest : Frontier α}

theorem Asked.table_eq {id : ℕ} (h : Asked ctx id s node box a scoring) :
    scoring.table = s.scoring.table := by
  rw [Scoring.eq_of_runs_ask h.ask]

theorem tableLearns_of_learns {relax : α} (h : Learns node relax scoring learned) :
    TableLearns node relax scoring.table learned.table := by
  unfold Learns at h
  unfold TableLearns
  cases hbranch : node.branch with
  | none =>
    rw [hbranch] at h
    exact congrArg Scoring.table h
  | some b =>
    rw [hbranch] at h
    exact Scoring.update?_of_runs_learn h

theorem table_offer (u : State σ α) (id : ℕ) (x : List α) (objective : α) :
    (u.offer id x objective).scoring.table = u.scoring.table := by
  unfold State.offer
  split <;> rfl

omit [Scalar α] in
theorem scoring_of_addChild? {id depth : ℕ} {b : Branch α} {priority bound : α}
    (h : s.addChild? id depth b priority bound = some t) : t.scoring = s.scoring := by
  obtain ⟨tree, -, rfl⟩ := Option.map_eq_some_iff.mp h
  rfl

/-- The optima that a backend reports for nodes have finite values. -/
def FiniteOn (B : Backend σ α) (p : Problem α) : Prop :=
  ∀ box state a, (B.solve p box none state).1.outcome = .ok a → a.isOptimal = true →
    Scalar.isFinite a.objective = true

theorem Asked.isFinite {id : ℕ} (h : Asked ctx id s node box a scoring)
    (hfinite : FiniteOn ctx.backend ctx.problem) (hoptimal : a.isOptimal = true) :
    Scalar.isFinite a.objective = true :=
  hfinite box _ a (outcome_of_runs_solveNode h.ask) hoptimal

/-- The reader follows when the optimum of a node is recorded. -/
theorem Mirrors.record [DiscernibleScalar α] {r : Replay α} {taken : List (Entry α)}
    (status : NodeStatus) (infeasibility : Option (Infeasibility α))
    (h : Mirrors ctx r s.ledger s.scoring.table) (hplaced : Placed taken s.tree s.frontier)
    (hpop : s.frontier.pop? = some (e, rest)) (hfinite : FiniteOn ctx.backend ctx.problem)
    (hasked : Asked ctx e.node { s with frontier := rest } node box a scoring)
    (hoptimal : a.isOptimal = true) (hlearns : Learns node a.objective scoring learned)
    (hsolved : Replay.isSolved status infeasibility = true) :
    ∃ r', Mirrors ctx r' (((State.ledger { s with frontier := rest }).enter node.depth).tell
        e.node status a.objective infeasibility) learned.table ∧
      r'.boundOf e.node = some a.objective := by
  have htable := tableLearns_of_learns hlearns
  rw [hasked.table_eq] at htable
  exact h.solve hplaced hpop rfl hsolved hasked.get? (hasked.isFinite hfinite hoptimal) htable rfl
    (keepsPlace_record a.objective status infeasibility) rfl

/-- A rule without solves of its own chooses a fractional variable and learns nothing. -/
theorem chosen_of_runs_select {c : Candidate α} {chosen : Scoring σ α} {noted : Array (Note α)}
    {limit : ℕ} {point : NodePoint α} (hrule : learned.rule.usesResolves = false)
    (h : Runs (Scoring.select ctx.backend ctx.problem limit point) { learned with journal := noted }
      (some c) chosen) :
    chosen.table = learned.table ∧ Problem.fractionalTol < Scalar.fractionality c.value := by
  have hkept := Scoring.eq_of_runs_select (s := { learned with journal := noted }) hrule h
  obtain ⟨fs, hfs, hc⟩ := Scoring.fraction_mem_of_runs_select h
  obtain ⟨-, -, hfraction⟩ := Problem.fractional?_spec hfs hc
  exact ⟨by rw [hkept], hfraction⟩

/-- The reader follows when a node that was recorded gets two children. -/
theorem Mirrors.branch [DiscernibleScalar α] {r : Replay α} {taken : List (Entry α)}
    {c : Candidate α} {chosen : Scoring σ α} {infeasibility : Infeasibility α} {down up bound : α}
    {table : PseudocostTable α} {first last : State σ α}
    (h : Mirrors ctx r ((s.ledger.enter node.depth).tell e.node .candidate a.objective
      (some infeasibility)) table)
    (hbound : r.boundOf e.node = some a.objective) (hplaced : Placed taken s.tree s.frontier)
    (hnode : s.tree.get? e.node = some node) (hfinite : Scalar.isFinite a.objective = true)
    (hfraction : Problem.fractionalTol < Scalar.fractionality c.value)
    (hpriorities : childPriorities? ctx.settings.selection table node.depth a.objective c
      = some (down, up))
    (hdown : ((s.solved node chosen).record e.node node.depth .candidate a.objective
      (some infeasibility)).addChild? e.node node.depth c.down down bound = some first)
    (hup : first.addChild? e.node node.depth c.up up bound = some last) :
    ∃ r', Mirrors ctx r' last.ledger table := by
  obtain ⟨tree, htree, tree', htree', hledger⟩ := ledger_of_addChild? hdown hup
  rw [ledger_record] at htree hledger
  have hlinked : (recorded s.core e.node a.objective .candidate (some infeasibility)).Linked :=
    hplaced.linked.modify (keepsPlace_record a.objective .candidate (some infeasibility))
  have hopen : ∀ d ∈ s.frontier.entries, d.node < (recorded s.core e.node a.objective .candidate
      (some infeasibility)).size := by
    intro d hd
    rw [size_recorded]
    exact hplaced.lt_size hd
  have hnode' := get?_recorded s.core e.node a.objective .candidate (some infeasibility) hnode
  rw [hledger]
  exact h.split hlinked hopen hnode' hbound hfinite hfraction hpriorities htree htree' bound

/-- The reader follows a visit. -/
theorem mirrors_visits [DiscernibleScalar α] {r : Replay α} {taken : List (Entry α)}
    (h : Mirrors ctx r s.ledger s.scoring.table) (hplaced : Placed taken s.tree s.frontier)
    (hpop : s.frontier.pop? = some (e, rest)) (hfinite : FiniteOn ctx.backend ctx.problem)
    (hrule : s.scoring.rule.usesResolves = false) (hpruning : ctx.settings.enumerateAll = false)
    (hvisits : Visits ctx e.node e.bound { s with frontier := rest } t) :
    ∃ r', Mirrors ctx r' t.ledger t.scoring.table := by
  cases hvisits with
  | pruned hnode hclosed =>
    rw [ledger_prune]
    exact h.close (t := Ledger.prune _ e.node e.bound) hplaced hpop rfl rfl rfl
      (fun _ => ⟨rfl, rfl, rfl, rfl⟩) rfl
  | @infeasible node box a scoring hasked hnot journal =>
    have htable : scoring.table = s.scoring.table := hasked.table_eq
    show ∃ r', Mirrors ctx r' (State.ledger (State.closeInfeasible _ _ _)) scoring.table
    rw [ledger_closeInfeasible hasked.get?, htable]
    exact h.close (t := ((State.ledger { s with frontier := rest }).enter node.depth).tell e.node
      .infeasible node.bound _) hplaced hpop rfl rfl rfl (keepsPlace_record _ _ _) rfl
  | @integer node box a scoring learned hasked hoptimal hlearns hinteger journal =>
    obtain ⟨r', hr', -⟩ := h.record .integer none hplaced hpop hfinite hasked hoptimal hlearns rfl
    have hoffer := hr'.offer e.node a.x a.objective
    show ∃ r', Mirrors ctx r' (State.ledger (State.offer _ _ _ _))
      (State.offer _ _ _ _).scoring.table
    rw [table_offer, ledger_offer, ledger_record]
    exact ⟨r', hoffer⟩
  | fathomed hasked hoptimal hlearns hinteger hclosed hinfeasibility journal =>
    obtain ⟨r', hr', -⟩ := h.record .fathomed (some _) hplaced hpop hfinite hasked hoptimal hlearns
      rfl
    show ∃ r', Mirrors ctx r' (State.ledger (State.record _ _ _ _ _ _)) (Scoring.table _)
    rw [ledger_record]
    exact ⟨r', hr'⟩
  | @branched node box a scoring learned chosen c down up first last hasked hoptimal hlearns
      hinteger hopen hdepth infeasibility hinfeasibility noted hselect hpriorities hdown hup
      journal =>
    obtain ⟨r', hr', hbound⟩ := h.record .candidate (some infeasibility) hplaced hpop hfinite hasked
      hoptimal hlearns rfl
    have hlearned : learned.rule.usesResolves = false := by
      rw [hlearns.rule_eq, hasked.rule_eq]
      exact hrule
    obtain ⟨hchosen, hfraction⟩ := chosen_of_runs_select hlearned hselect
    have hlast : last.scoring.table = learned.table := by
      rw [scoring_of_addChild? hup, scoring_of_addChild? hdown]
      exact hchosen
    -- the keys are made from the optimum, since nodes may be pruned
    rw [hchosen, childBound_eq hpruning] at hpriorities
    obtain ⟨hplaced', -⟩ := hplaced.pop hpop
    show ∃ r', Mirrors ctx r' last.ledger last.scoring.table
    rw [hlast]
    exact hr'.branch (s := { s with frontier := rest }) hbound hplaced' hasked.get?
      (hasked.isFinite hfinite hoptimal) hfraction hpriorities hdown hup

end Visits

/-! ## Whole searches -/

/-- At first the reader has been told of the root. -/
theorem mirrors_initial (ctx : Context σ α) (backend : σ) :
    ∃ r, Mirrors ctx r (initial ctx backend).ledger (initial ctx backend).scoring.table := by
  have honly : ∀ {k node}, (initial ctx backend).tree.get? k = some node →
      k = 0 ∧ node = .root := by
    intro k node hk
    have hlt : k < 1 := Tree.get?_lt_size hk
    obtain rfl : k = 0 := by omega
    cases hk
    exact ⟨rfl, rfl⟩
  refine ⟨_, rfl, rfl, ⟨rfl, rfl, ?_, ?_, ?_, ?_⟩⟩
  · exact Replay.means_new ctx.problem.objective
  · intro k node hk
    obtain ⟨rfl, rfl⟩ := honly hk
    rfl
  · intro k node hk
    obtain ⟨-, rfl⟩ := honly hk
    rfl
  · intro d node p hd hnode hparent
    obtain ⟨-, rfl⟩ := honly hnode
    cases hparent

section Runs

variable [DiscernibleScalar α] {ctx : Context σ α} {backend : σ} {s : State σ α}

/-- Between two nodes the reader agrees with the search. -/
theorem mirrors_of_reachable (hrule : ctx.settings.rule.usesResolves = false)
    (hpruning : ctx.settings.enumerateAll = false) (hfinite : FiniteOn ctx.backend ctx.problem)
    (h : Reachable ctx (initial ctx backend) s) :
    (∃ taken, Orderly taken s.ledger) ∧ s.scoring.rule = ctx.settings.rule ∧
      ∃ r, Mirrors ctx r s.ledger s.scoring.table := by
  induction h with
  | start => exact ⟨⟨[], orderly_initial ctx backend⟩, rfl, mirrors_initial ctx backend⟩
  | @take s t e rest hs htake ih =>
    obtain ⟨⟨taken, horderly⟩, hkept, r, hr⟩ := ih
    have hvisits := visits_of_runs_visit htake.visit
    have hresolves : s.scoring.rule.usesResolves = false := by
      rw [hkept]
      exact hrule
    refine ⟨⟨taken ++ [e], horderly.turn htake.pop? (turn_of_visits hvisits)⟩, ?_, ?_⟩
    · exact (hvisits.rule_eq hresolves).trans hkept
    · exact mirrors_visits hr horderly.placed htake.pop? hfinite hresolves hpruning hvisits

/-- The reader has followed all events where a visit failed. -/
theorem replayed_of_breaks {r : Replay α} {taken : List (Entry α)} {e : Entry α}
    {rest : Frontier α} {t : State σ α} {err : SolveError α}
    (hr : Mirrors ctx r s.ledger s.scoring.table) (horderly : Orderly taken s.ledger)
    (hpop : s.frontier.pop? = some (e, rest)) (hfinite : FiniteOn ctx.backend ctx.problem)
    (hrule : s.scoring.rule.usesResolves = false) (hpruning : ctx.settings.enumerateAll = false)
    (hbreaks : Breaks ctx e.node e.bound { s with frontier := rest } err t) :
    ∃ r, Replay.run? ctx.settings.selection ctx.problem.objective t.events.toList = some r ∧
      r.predicted = t.events.toList.filterMap Event.updated? := by
  cases hbreaks with
  | missing hmissing =>
    obtain ⟨node, hnode⟩ := horderly.exists_node hpop
    cases hnode.symm.trans hmissing
  | unsolved hnode err scoring => exact ⟨r, hr.replayed, hr.predicted⟩
  | @unbranched node box a scoring learned hasked hoptimal hlearns infeasibility err last =>
    obtain ⟨r', hr', -⟩ := hr.record .candidate (some infeasibility) horderly.placed hpop hfinite
      hasked hoptimal hlearns rfl
    rw [← ledger_record _ learned] at hr'
    exact ⟨r', hr'.replayed, hr'.predicted⟩
  | unreported hvisits =>
    obtain ⟨r', hr'⟩ :=
      mirrors_visits hr horderly.placed hpop hfinite hrule hpruning hvisits
    exact ⟨r', hr'.replayed, hr'.predicted⟩

/-- Where a rule needs no solves of its own, nodes may be pruned and a backend's values are finite,
the events alone tell which node comes next: the reader's predictions are the nodes that were
updated, however the search ends, and nothing is left in its queue where nothing is left open. -/
theorem replay_predicts (ctx : Context σ α) (backend : σ)
    (hrule : ctx.settings.rule.usesResolves = false)
    (hpruning : ctx.settings.enumerateAll = false) (hfinite : FiniteOn ctx.backend ctx.problem) :
    ∃ r, Replay.run? ctx.settings.selection ctx.problem.objective
        (search ctx backend).state.events.toList = some r ∧
      r.predicted = (search ctx backend).state.events.toList.filterMap Event.updated? ∧
      ∀ sol, (search ctx backend).result = .ok sol →
        (search ctx backend).state.frontier.entries = [] → r.queue = [] := by
  cases hresult : (search ctx backend).result with
  | ok sol =>
    -- only notes are added after the last state between two nodes
    obtain ⟨s, hreach, -, -, hstate⟩ := reachable_of_search hresult
    obtain ⟨-, -, r, hr⟩ := mirrors_of_reachable hrule hpruning hfinite hreach
    have hledger : (search ctx backend).state.ledger = s.ledger := by
      rw [hstate, ledger_foldl_note]
    rw [← hledger] at hr
    refine ⟨r, hr.replayed, hr.predicted, ?_⟩
    intro _ _ hempty
    have hqueue : r.queue = (search ctx backend).state.frontier.entries.map .ofEntry :=
      hr.reflects.queue
    rw [hqueue, hempty, List.map_nil]
  | error err =>
    -- the visit that failed may have told of its node, or have been over
    have hended := ended_of_search_error hresult
    obtain ⟨n, s, e, rest, hrunning, hpop, hfails, -⟩ := exists_last_of_error hended
    obtain ⟨⟨taken, horderly⟩, hkept, r, hr⟩ :=
      mirrors_of_reachable hrule hpruning hfinite (reachable_of_advance hrunning)
    rw [← hkept] at hrule
    obtain ⟨r', hrun, hpredicted⟩ := replayed_of_breaks hr horderly hpop hfinite hrule hpruning
      (breaks_of_fails_visit hfails)
    exact ⟨r', hrun, hpredicted, fun _ h => nomatch h⟩

end Runs

/-! ## A backend with finite values -/

/-- The answers of a backend, where those without a finite value are taken for infeasible. -/
def finitely (B : Backend σ α) : Backend σ α where
  solve p box cap state :=
    let (reply, state) := B.solve p box cap state
    (⟨reply.outcome.map fun a => if Scalar.isFinite a.objective then a else .infeasible 0,
      reply.notes⟩, state)
  setMode := B.setMode

theorem finiteOn_finitely (B : Backend σ α) (p : Problem α) : FiniteOn (finitely B) p := by
  intro box state a h hoptimal
  unfold finitely at h
  dsimp only at h
  cases houtcome : (B.solve p box none state).1.outcome with
  | error err =>
    rw [houtcome] at h
    cases h
  | ok b =>
    rw [houtcome] at h
    cases h
    dsimp only at hoptimal ⊢
    by_cases hfinite : Scalar.isFinite b.objective = true
    · rw [if_pos hfinite]
      exact hfinite
    · rw [if_neg hfinite] at hoptimal
      cases hoptimal

/-- A search for the largest whole number whose double is within a limit, by estimates. -/
def estimatingContext (b : ℚ) : Context Unit ExtRat where
  problem := doubled b
  settings := { Settings.standard.generalInteger.withSelection .bestEstimate with
    rule := .pseudocost }
  backend := finitely (doubledBackend b)
  clock := id

/-- The root of the search for the largest whole number whose double is at most three and a half has
the value one and three quarters. The upper child is closer, so it comes first, and the reader
predicts it. -/
theorem replay_predicts_estimating :
    ∃ r, Replay.run? .bestEstimate (doubled (7 / 2)).objective
        (search (estimatingContext (7 / 2)) ()).state.events.toList = some r ∧
      r.predicted = [0, 2, 1] ∧ r.queue.map Replay.Item.node = [] := by
  have hupdated : (search (estimatingContext (7 / 2)) ()).state.events.toList.filterMap
      Event.updated? = [0, 2, 1] := by
    decide +kernel
  have hempty : (search (estimatingContext (7 / 2)) ()).state.frontier.entries.map Entry.node
      = [] := by
    decide +kernel
  have hok : (search (estimatingContext (7 / 2)) ()).result.toOption.map (fun sol => sol.status)
      = some .optimal := by
    decide +kernel
  obtain ⟨sol, hsol, -⟩ := exists_ok_of_toOption_map hok
  obtain ⟨r, hrun, hpredicted, hqueue⟩ := replay_predicts (estimatingContext (7 / 2)) () rfl rfl
    (finiteOn_finitely (doubledBackend (7 / 2)) (doubled (7 / 2)))
  refine ⟨r, hrun, hpredicted.trans hupdated, ?_⟩
  rw [hqueue sol hsol (List.map_eq_nil_iff.mp hempty)]
  rfl

end Search

end BranchBound
