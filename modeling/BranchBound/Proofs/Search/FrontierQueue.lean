import Mathlib.Data.List.ReduceOption
import BranchBound.Proofs.Scalar.Comparable
import BranchBound.Proofs.Search.BestFirst

/-!
# The frontier is a stable minimum queue

However nodes are pushed and taken out, each one taken out is the pending one with the least
priority, the earliest push among equals. This is so for the scan of a list, and equally for a
priority queue that only promises to give up a greatest entry first, once it is handed the
comparison turned around.

* `QueueOp`, `Queue`, `Queue.run`: sequences of operations and what they answer.
* `Serves`: what a stable minimum queue answers, and which entries it leaves pending.
* `Queue.Lawful`: what one operation has to do.
* `Queue.Lawful.shows`: from this, what any sequence of operations does.
* `MaxHeap`: priority queues that give up a greatest element first.
* `frontier_serves`: the scanned list and every heap are stable minimum queues.
-/

namespace BranchBound

variable {α Q H : Type}

/-! ## Queues of open nodes -/

/-- An operation on a queue of open nodes. -/
inductive QueueOp (α : Type) where
  | push (node : ℕ) (priority bound : α)
  | pop

namespace QueueOp

/-- The entries pushed by a sequence of operations, numbered from `k` on. -/
def pushedFrom (k : ℕ) : List (QueueOp α) → List (Entry α)
  | [] => []
  | push node priority bound :: ops => ⟨node, priority, k, bound⟩ :: pushedFrom (k + 1) ops
  | pop :: ops => pushedFrom k ops

/-- The entries pushed by a sequence of operations. Each is numbered by the pushes before it. -/
def pushed (ops : List (QueueOp α)) : List (Entry α) := pushedFrom 0 ops

/-- Entries are numbered on from those before them. -/
theorem pushedFrom_concat (k : ℕ) (ops : List (QueueOp α)) (op : QueueOp α) :
    pushedFrom k (ops ++ [op]) =
      pushedFrom k ops ++ pushedFrom (k + (pushedFrom k ops).length) [op] := by
  induction ops generalizing k with
  | nil => rfl
  | cons first ops ih =>
    cases first with
    | push node priority bound =>
      have hcount : ∀ n : ℕ, k + 1 + n = k + (n + 1) := by omega
      show _ :: pushedFrom (k + 1) (ops ++ [op]) = _
      rw [ih (k + 1), hcount]
      rfl
    | pop => exact ih k

theorem pushed_push (ops : List (QueueOp α)) (node : ℕ) (priority bound : α) :
    pushed (ops ++ [push node priority bound]) =
      pushed ops ++ [⟨node, priority, (pushed ops).length, bound⟩] := by
  rw [pushed, pushedFrom_concat, Nat.zero_add]
  rfl

/-- Taking an entry out pushes none. -/
theorem pushed_pop (ops : List (QueueOp α)) : pushed (ops ++ [pop]) = pushed ops := by
  rw [pushed, pushedFrom_concat]
  exact List.append_nil _

/-- No two pushes get the same number. -/
theorem nodup_serial_pushed (ops : List (QueueOp α)) : ((pushed ops).map Entry.serial).Nodup := by
  have hrange : ∀ (k : ℕ) (ops : List (QueueOp α)),
      (pushedFrom k ops).map Entry.serial = List.range' k (pushedFrom k ops).length := by
    intro k ops
    induction ops generalizing k with
    | nil => rfl
    | cons op ops ih =>
      cases op with
      | push node priority bound => exact congrArg (k :: ·) (ih (k + 1))
      | pop => exact ih k
  rw [pushed, hrange]
  exact List.nodup_range'

end QueueOp

/-- A queue of open nodes, as a search sees it. Taking out gives a node and its bound. -/
structure Queue (α Q : Type) where
  empty : Q
  push : Q → ℕ → α → α → Q
  pop? : Q → Option ((ℕ × α) × Q)
  size : Q → ℕ
  added : Q → ℕ
  popped : Q → ℕ
  bestBound : Q → α

/-- A queue in use, with what it answered whenever a node was to be taken out. -/
structure Session (α Q : Type) where
  answers : List (Option (ℕ × α))
  queue : Q

namespace Queue

/-- Carries out one operation. -/
def apply (q : Queue α Q) (s : Session α Q) : QueueOp α → Session α Q
  | .push node priority bound => ⟨s.answers, q.push s.queue node priority bound⟩
  | .pop =>
    match q.pop? s.queue with
    | none => ⟨s.answers ++ [none], s.queue⟩
    | some (answer, rest) => ⟨s.answers ++ [some answer], rest⟩

/-- Carries out a sequence of operations on an empty queue. -/
def run (q : Queue α Q) (ops : List (QueueOp α)) : Session α Q := ops.foldl q.apply ⟨[], q.empty⟩

theorem run_concat (q : Queue α Q) (ops : List (QueueOp α)) (op : QueueOp α) :
    q.run (ops ++ [op]) = q.apply (q.run ops) op := by
  simp [run]

end Queue

/-! ## Stable minimum queues -/

section Serves

variable [Scalar α]

/-- What a stable minimum queue does with a sequence of operations: the entries it answers with, and
those it leaves pending. What it takes out comes before all that is left. -/
inductive Serves : List (QueueOp α) → List (Option (Entry α)) → List (Entry α) → Prop
  | nil : Serves [] [] []
  | push {ops answers pending} (node : ℕ) (priority bound : α) (h : Serves ops answers pending) :
      Serves (ops ++ [.push node priority bound]) answers
        (⟨node, priority, (QueueOp.pushed ops).length, bound⟩ :: pending)
  | pop {ops answers pending e rest} (h : Serves ops answers pending)
      (hperm : pending.Perm (e :: rest)) (hleast : ∀ d ∈ rest, e.before d = true) :
      Serves (ops ++ [.pop]) (answers ++ [some e]) rest
  | idle {ops answers} (h : Serves ops answers []) : Serves (ops ++ [.pop]) (answers ++ [none]) []

namespace Serves

variable {ops : List (QueueOp α)} {answers : List (Option (Entry α))} {pending : List (Entry α)}

/-- What was pushed was taken out or is pending, each entry once. -/
theorem perm_pushed (h : Serves ops answers pending) :
    (answers.reduceOption ++ pending).Perm (QueueOp.pushed ops) := by
  induction h with
  | nil => exact .nil
  | push node priority bound h ih =>
    rw [QueueOp.pushed_push]
    exact List.perm_middle.trans ((ih.cons _).trans (List.perm_append_singleton _ _).symm)
  | @pop ops answers pending e rest h hperm hleast ih =>
    rw [QueueOp.pushed_pop, List.reduceOption_append, List.append_assoc]
    exact (hperm.symm.append_left _).trans ih
  | idle h ih =>
    rw [QueueOp.pushed_pop, List.reduceOption_append]
    simpa using ih

/-- Pending entries differ in their numbers. -/
theorem nodup_serial (h : Serves ops answers pending) : (pending.map Entry.serial).Nodup := by
  have hall := (h.perm_pushed.map Entry.serial).nodup_iff.mpr (QueueOp.nodup_serial_pushed ops)
  rw [List.map_append] at hall
  exact hall.of_append_right

end Serves

/-- Where numbers tell open nodes apart, the one taken out and those left are all that were open. -/
theorem Frontier.perm_of_pop? {f rest : Frontier α} {e : Entry α}
    (hserial : (f.entries.map Entry.serial).Nodup) (hpop : f.pop? = some (e, rest)) :
    f.entries.Perm (e :: rest.entries) := by
  obtain ⟨he, hentries, -⟩ := pop?_eq_some hpop
  obtain ⟨s, t, hsplit⟩ := List.append_of_mem he
  rw [hsplit, List.map_append, List.map_cons, List.nodup_middle, ← List.map_append] at hserial
  have hkeep : ∀ d ∈ s ++ t, decide (d.serial ≠ e.serial) = true := by
    intro d hd
    refine decide_eq_true fun heq => (List.nodup_cons.mp hserial).1 ?_
    rw [← heq]
    exact List.mem_map_of_mem hd
  have hrest : rest.entries = s ++ t := by
    rw [hentries, hsplit, ← List.filter_eq_self.mpr hkeep, List.filter_append, List.filter_append,
      List.filter_cons_of_neg (by simp)]
  rw [hsplit, hrest]
  exact List.perm_middle

variable [Std.TransCmp (Scalar.totalCompare : α → α → Ordering)]

/-- No two entries are before one another. -/
theorem Entry.not_before_of_before {e d : Entry α} (h : e.before d = true) :
    ¬ d.before e = true := by
  have hswap : d.order e = (e.order d).swap := Std.OrientedCmp.eq_swap
  rw [Entry.before_iff] at h ⊢
  rw [hswap, h]
  exact Ordering.noConfusion

/-- Of what is left pending, one entry comes first. -/
theorem exists_least {pending : List (Entry α)} (hne : pending ≠ [])
    (hserial : (pending.map Entry.serial).Nodup) :
    ∃ e rest, pending.Perm (e :: rest) ∧ ∀ d ∈ rest, e.before d = true := by
  let f : Frontier α := ⟨pending, 0, 0⟩
  cases hpop : f.pop? with
  | none => exact absurd (Frontier.pop?_eq_none_iff.mp hpop) hne
  | some found =>
    exact ⟨found.1, found.2.entries, Frontier.perm_of_pop? hserial hpop,
      Frontier.before_of_pop? hpop⟩

/-- Every sequence of operations can be served. -/
theorem exists_serves (ops : List (QueueOp α)) : ∃ answers pending, Serves ops answers pending := by
  induction ops using List.reverseRecOn with
  | nil => exact ⟨[], [], .nil⟩
  | append_singleton ops op ih =>
    obtain ⟨answers, pending, h⟩ := ih
    cases op with
    | push node priority bound => exact ⟨_, _, h.push node priority bound⟩
    | pop =>
      by_cases hne : pending = []
      · subst hne
        exact ⟨_, _, h.idle⟩
      · obtain ⟨e, rest, hperm, hleast⟩ := exists_least hne h.nodup_serial
        exact ⟨_, _, h.pop hperm hleast⟩

/-! ## Queues that do what they should in each operation -/

/-- What the operations of a stable minimum queue do, where `view` lists what is pending, in any
order. -/
structure Queue.Lawful (q : Queue α Q) (view : Q → List (Entry α)) : Prop where
  empty : view q.empty = [] ∧ q.added q.empty = 0 ∧ q.popped q.empty = 0
  push : ∀ s node priority bound,
    (view (q.push s node priority bound)).Perm (⟨node, priority, q.added s, bound⟩ :: view s) ∧
      q.added (q.push s node priority bound) = q.added s + 1 ∧
      q.popped (q.push s node priority bound) = q.popped s
  pop?_eq_none : ∀ s, q.pop? s = none → view s = []
  pop?_eq_some : ∀ s answer t, q.pop? s = some (answer, t) → ((view s).map Entry.serial).Nodup →
    ∃ e, answer = (e.node, e.bound) ∧ (view s).Perm (e :: view t) ∧
      (∀ d ∈ view t, e.before d = true) ∧ q.added t = q.added s ∧ q.popped t = q.popped s + 1
  size_eq : ∀ s, q.size s = (view s).length
  bestBound_eq : ∀ s, q.bestBound s =
    (view s).foldl (fun best e => Scalar.maxNum best e.bound) (-Scalar.infinity)

/-- A value is the largest of a list. -/
def IsLargest (v : α) (vs : List α) : Prop := (∀ w ∈ vs, w ≤ v) ∧ ∃ w ∈ vs, v ≤ w

/-- What a queue shows of the answers it gave and the entries it holds. -/
structure Queue.Shows (q : Queue α Q) (ops : List (QueueOp α)) (answers : List (Option (Entry α)))
    (pending : List (Entry α)) : Prop where
  answers_eq : (q.run ops).answers = answers.map (Option.map fun e => (e.node, e.bound))
  added_eq : q.added (q.run ops).queue = (QueueOp.pushed ops).length
  popped_eq : q.popped (q.run ops).queue = answers.reduceOption.length
  popped_le_added : q.popped (q.run ops).queue ≤ q.added (q.run ops).queue
  size_eq_length : q.size (q.run ops).queue = pending.length
  size_eq_sub : q.size (q.run ops).queue =
    q.added (q.run ops).queue - q.popped (q.run ops).queue
  bestBound_of_nil : pending = [] → q.bestBound (q.run ops).queue = -Scalar.infinity
  bestBound_largest : pending ≠ [] →
    IsLargest (q.bestBound (q.run ops).queue) (pending.map Entry.bound)

namespace Queue.Lawful

variable {q : Queue α Q} {view : Q → List (Entry α)} {ops : List (QueueOp α)}
  {answers : List (Option (Entry α))} {pending : List (Entry α)}

/-- A lawful queue has given the answers of a stable minimum queue, holds what that one has pending,
and has counted what it did. -/
theorem tracks (hq : q.Lawful view) (h : Serves ops answers pending) :
    (q.run ops).answers = answers.map (Option.map fun e => (e.node, e.bound)) ∧
      (view (q.run ops).queue).Perm pending ∧
      q.added (q.run ops).queue = (QueueOp.pushed ops).length ∧
      q.popped (q.run ops).queue = answers.reduceOption.length := by
  induction h with
  | nil =>
    obtain ⟨hview, hadded, hpopped⟩ := hq.empty
    exact ⟨rfl, .of_eq hview, hadded, hpopped⟩
  | push node priority bound h ih =>
    obtain ⟨hanswers, hview, hadded, hpopped⟩ := ih
    obtain ⟨hview', hadded', hpopped'⟩ := hq.push (q.run _).queue node priority bound
    rw [run_concat]
    refine ⟨hanswers, ?_, ?_, hpopped'.trans hpopped⟩
    · rw [hadded] at hview'
      exact hview'.trans (hview.cons _)
    · rw [QueueOp.pushed_push, List.length_append]
      exact hadded'.trans (congrArg (· + 1) hadded)
  | @pop ops answers pending e rest h hperm hleast ih =>
    obtain ⟨hanswers, hview, hadded, hpopped⟩ := ih
    have hserial := (hview.map Entry.serial).nodup_iff.mpr h.nodup_serial
    rw [run_concat, QueueOp.pushed_pop, apply]
    split
    case h_1 hnone =>
      have hnil := hq.pop?_eq_none _ hnone
      rw [hnil] at hview
      exact absurd (List.nil_perm.mp (hview.trans hperm)) (List.cons_ne_nil e rest)
    case h_2 answer t hsome =>
      obtain ⟨d, rfl, htaken, hfirst, hadded', hpopped'⟩ := hq.pop?_eq_some _ _ _ hsome hserial
      have hboth : (d :: view t).Perm (e :: rest) := htaken.symm.trans (hview.trans hperm)
      -- both come first, so they are the same
      have heq : d = e := by
        by_contra hne
        have he := hboth.mem_iff.mpr List.mem_cons_self
        have hd := hboth.mem_iff.mp List.mem_cons_self
        exact Entry.not_before_of_before
          (hfirst e ((List.mem_cons.mp he).resolve_left (Ne.symm hne)))
          (hleast d ((List.mem_cons.mp hd).resolve_left hne))
      subst heq
      refine ⟨?_, (List.perm_cons d).mp hboth, hadded'.trans hadded, ?_⟩
      · simp [hanswers]
      · rw [hpopped', hpopped, List.reduceOption_append]
        simp
  | idle h ih =>
    obtain ⟨hanswers, hview, hadded, hpopped⟩ := ih
    rw [run_concat, QueueOp.pushed_pop, apply]
    split
    case h_1 hnone =>
      refine ⟨?_, hview, hadded, ?_⟩
      · simp [hanswers]
      · rw [hpopped, List.reduceOption_append]
        simp
    case h_2 answer t hsome =>
      have hnil := hview.eq_nil
      obtain ⟨d, -, htaken, -⟩ := hq.pop?_eq_some _ _ _ hsome (by rw [hnil]; exact List.nodup_nil)
      rw [hnil] at htaken
      exact absurd (List.nil_perm.mp htaken) (List.cons_ne_nil _ _)

/-- After any sequence of operations, a lawful queue has answered and kept what a stable minimum
queue does. -/
theorem shows [ComparableScalar α] (hq : q.Lawful view) (h : Serves ops answers pending)
    (hdefined : ∀ e ∈ QueueOp.pushed ops, Scalar.isUndefined e.bound = false) :
    q.Shows ops answers pending := by
  obtain ⟨hanswers, hview, hadded, hpopped⟩ := hq.tracks h
  have hsize : q.size (q.run ops).queue = pending.length := (hq.size_eq _).trans hview.length_eq
  have hcount : answers.reduceOption.length + pending.length = (QueueOp.pushed ops).length :=
    (List.length_append).symm.trans h.perm_pushed.length_eq
  have hbounds : ∀ e ∈ view (q.run ops).queue, Scalar.isUndefined e.bound = false := fun e he =>
    hdefined e (h.perm_pushed.mem_iff.mp (List.mem_append_right _ (hview.mem_iff.mp he)))
  obtain ⟨hleast, hall, hfound⟩ := ComparableScalar.foldl_maxNum Entry.bound
    ComparableScalar.defined_neg_infinity hbounds
  rw [← hq.bestBound_eq] at hleast hall hfound
  refine ⟨hanswers, hadded, hpopped, by omega, hsize, by omega, fun hnil => ?_,
    fun hne => ⟨?_, ?_⟩⟩
  · subst hnil
    rw [hq.bestBound_eq, hview.eq_nil]
    rfl
  · rintro _ hw
    obtain ⟨e, he, rfl⟩ := List.mem_map.mp hw
    exact hall e (hview.mem_iff.mpr he)
  · rcases hfound with hbest | ⟨e, he, hbest⟩
    · -- even the least value can be the largest, if all bounds are as low
      obtain ⟨e, he⟩ := List.exists_mem_of_ne_nil pending hne
      refine ⟨e.bound, List.mem_map_of_mem he, ?_⟩
      rw [hbest]
      exact ComparableScalar.neg_infinity_le _ (hbounds e (hview.mem_iff.mpr he))
    · refine ⟨e.bound, List.mem_map_of_mem (hview.mem_iff.mp he), ?_⟩
      rw [hbest]
      have hbound := hbounds e he
      exact (ComparableScalar.le_total _ _ hbound hbound).elim id id

end Queue.Lawful

/-! ## The scanned list -/

/-- The frontier as a queue. -/
def Frontier.queue : Queue α (Frontier α) where
  empty := .empty
  push := push
  pop? f := f.pop?.map fun (e, rest) => ((e.node, e.bound), rest)
  size := size
  added := added
  popped := popped
  bestBound := bestBound

/-- The scanned list is a lawful queue. -/
theorem Frontier.lawful_queue : (queue : Queue α _).Lawful entries where
  empty := ⟨rfl, rfl, rfl⟩
  push f node priority bound := ⟨List.perm_append_singleton _ _, rfl, rfl⟩
  pop?_eq_none f h := pop?_eq_none_iff.mp (Option.map_eq_none_iff.mp h)
  pop?_eq_some f answer rest h hserial := by
    obtain ⟨⟨e, t⟩, hpop, heq⟩ := Option.map_eq_some_iff.mp h
    cases heq
    obtain ⟨-, -, hadded, hpopped⟩ := pop?_eq_some hpop
    exact ⟨e, rfl, perm_of_pop? hserial hpop, before_of_pop? hpop, hadded, hpopped⟩
  size_eq f := rfl
  bestBound_eq f := rfl

/-! ## Heaps -/

/-- A priority queue that gives up a greatest element first. Its elements can be listed, in any
order. -/
structure MaxHeap (β : Type) (cmp : β → β → Ordering) (H : Type) where
  empty : H
  push : H → β → H
  pop? : H → Option (β × H)
  length : H → ℕ
  elements : H → List β
  elements_empty : elements empty = []
  elements_push : ∀ h b, (elements (push h b)).Perm (b :: elements h)
  pop?_eq_none : ∀ h, pop? h = none → elements h = []
  pop?_eq_some : ∀ h b t, pop? h = some (b, t) →
    (elements h).Perm (b :: elements t) ∧ ∀ c ∈ elements t, cmp b c ≠ .lt
  length_eq : ∀ h, length h = (elements h).length

/-- The comparison that makes the entry to be taken up first the greatest one. -/
def Entry.reversed (a b : Entry α) : Ordering :=
  (Scalar.totalCompare b.priority a.priority).then (compare b.serial a.serial)

/-- Open nodes in a heap, with counts of what was ever added and taken. -/
structure HeapFrontier (H : Type) where
  heap : H
  added : ℕ
  popped : ℕ

namespace MaxHeap

/-- Open nodes in a heap as a queue. -/
def queue (M : MaxHeap (Entry α) Entry.reversed H) : Queue α (HeapFrontier H) where
  empty := ⟨M.empty, 0, 0⟩
  push f node priority bound :=
    ⟨M.push f.heap ⟨node, priority, f.added, bound⟩, f.added + 1, f.popped⟩
  pop? f := (M.pop? f.heap).map fun (e, rest) => ((e.node, e.bound), ⟨rest, f.added, f.popped + 1⟩)
  size f := M.length f.heap
  added := HeapFrontier.added
  popped := HeapFrontier.popped
  bestBound f := ((M.elements f.heap).map Entry.bound).foldl Scalar.maxNum (-Scalar.infinity)

/-- So is every heap that keeps the greatest element on top. -/
theorem lawful_queue (M : MaxHeap (Entry α) Entry.reversed H) :
    M.queue.Lawful fun f => M.elements f.heap where
  empty := ⟨M.elements_empty, rfl, rfl⟩
  push f node priority bound := ⟨M.elements_push _ _, rfl, rfl⟩
  pop?_eq_none f h := M.pop?_eq_none _ (Option.map_eq_none_iff.mp h)
  pop?_eq_some f answer rest h hserial := by
    obtain ⟨⟨e, t⟩, hpop, heq⟩ := Option.map_eq_some_iff.mp h
    cases heq
    obtain ⟨hperm, hgreatest⟩ := M.pop?_eq_some _ _ _ hpop
    refine ⟨e, rfl, hperm, fun d hd => ?_, rfl, rfl⟩
    have hnodup := (hperm.map Entry.serial).nodup_iff.mp hserial
    rw [List.map_cons, List.nodup_cons] at hnodup
    refine Entry.before_of_order ?_ fun heq => hnodup.1 ?_
    · -- not below in the reversed comparison is not above in the comparison itself
      rw [Ordering.isLE_iff_ne_gt, Std.OrientedCmp.gt_iff_lt]
      exact hgreatest d hd
    · rw [heq]
      exact List.mem_map_of_mem hd
  size_eq f := M.length_eq _
  bestBound_eq f := List.foldl_map

/-- Takes the greatest element out of a list. -/
def takeGreatest {β : Type} (cmp : β → β → Ordering) (b : β) : List β → β × List β
  | [] => (b, [])
  | c :: rest =>
    let taken := takeGreatest cmp c rest
    if cmp taken.1 b = .lt then (b, taken.1 :: taken.2) else (taken.1, b :: taken.2)

/-- What is taken out is no less than what is left, and nothing is lost. -/
theorem takeGreatest_spec {β : Type} {cmp : β → β → Ordering} [Std.TransCmp cmp] (b : β)
    (rest : List β) :
    (b :: rest).Perm ((takeGreatest cmp b rest).1 :: (takeGreatest cmp b rest).2) ∧
      ∀ c ∈ (takeGreatest cmp b rest).2, cmp (takeGreatest cmp b rest).1 c ≠ .lt := by
  induction rest generalizing b with
  | nil => exact ⟨.refl _, fun c hc => (List.not_mem_nil hc).elim⟩
  | cons c rest ih =>
    obtain ⟨hperm, hgreatest⟩ := ih c
    rw [takeGreatest]
    split
    case isTrue hlt =>
      refine ⟨hperm.cons b, fun d hd => ?_⟩
      rcases List.mem_cons.mp hd with rfl | hd
      · exact Std.OrientedCmp.not_lt_of_lt hlt
      · intro hlt'
        exact hgreatest d hd (Std.TransCmp.lt_trans hlt hlt')
    case isFalse hnot =>
      refine ⟨(hperm.cons b).trans (.swap _ _ _), fun d hd => ?_⟩
      rcases List.mem_cons.mp hd with rfl | hd
      · exact hnot
      · exact hgreatest d hd

/-- A list that is searched for its greatest element gives up a greatest element first. -/
def ofList {β : Type} (cmp : β → β → Ordering) [Std.TransCmp cmp] : MaxHeap β cmp (List β) where
  empty := []
  push h b := b :: h
  pop? h :=
    match h with
    | [] => none
    | b :: rest => some (takeGreatest cmp b rest)
  length := List.length
  elements h := h
  elements_empty := rfl
  elements_push h b := .refl _
  pop?_eq_none h hpop := by
    cases h with
    | nil => rfl
    | cons b rest => cases hpop
  pop?_eq_some h b t hpop := by
    cases h with
    | nil => cases hpop
    | cons c rest =>
      have htake : takeGreatest cmp c rest = (b, t) := Option.some.inj hpop
      have hspec := @takeGreatest_spec β cmp _ c rest
      rw [htake] at hspec
      exact hspec
  length_eq h := rfl

end MaxHeap

instance : Std.TransCmp (Entry.reversed : Entry α → Entry α → Ordering) :=
  inferInstanceAs (Std.TransCmp fun a b : Entry α => b.order a)

/-! ## Every sequence of operations -/

/-- After any sequence of pushes and pops, the frontier has answered each pop with the pending entry
of least priority and, among these, of the earliest push, or with nothing if nothing was pending.
What was pushed was taken out once or is pending. The number of open nodes is that of the nodes
added less those taken out, and the best bound is the largest one pending. A heap under the reversed
comparison shows exactly the same. -/
theorem frontier_serves [ComparableScalar α] (M : MaxHeap (Entry α) Entry.reversed H)
    (ops : List (QueueOp α))
    (hdefined : ∀ e ∈ QueueOp.pushed ops, Scalar.isUndefined e.bound = false) :
    ∃ answers pending, Serves ops answers pending ∧
      (answers.reduceOption ++ pending).Perm (QueueOp.pushed ops) ∧
      ((QueueOp.pushed ops).map Entry.serial).Nodup ∧
      Frontier.queue.Shows ops answers pending ∧ M.queue.Shows ops answers pending := by
  obtain ⟨answers, pending, h⟩ := exists_serves ops
  exact ⟨answers, pending, h, h.perm_pushed, QueueOp.nodup_serial_pushed ops,
    Frontier.lawful_queue.shows h hdefined, M.lawful_queue.shows h hdefined⟩

/-- Two nodes of one priority between two of a better one. -/
def twoPairs : List (QueueOp Float) :=
  [.push 1 (-2) 0, .push 2 (-2) 1, .pop, .push 3 (-3) 0, .push 4 (-3) 0, .pop, .pop, .pop, .pop]

theorem frontier_serves_twoPairs :
    (∀ e ∈ QueueOp.pushed twoPairs, Scalar.isUndefined e.bound = false) ∧
    ∃ answers pending, Serves twoPairs answers pending ∧
      (answers.reduceOption ++ pending).Perm (QueueOp.pushed twoPairs) ∧
      ((QueueOp.pushed twoPairs).map Entry.serial).Nodup ∧
      Frontier.queue.Shows twoPairs answers pending ∧
      (MaxHeap.ofList Entry.reversed).queue.Shows twoPairs answers pending := by
  have hdefined : ∀ e ∈ QueueOp.pushed twoPairs, Scalar.isUndefined e.bound = false := by decide
  exact ⟨hdefined, frontier_serves (MaxHeap.ofList Entry.reversed) twoPairs hdefined⟩

example : (Frontier.queue.run twoPairs).answers =
    [some (1, 0), some (3, 0), some (4, 0), some (2, 1), none] := by rfl

end Serves

end BranchBound
