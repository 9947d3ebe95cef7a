import Mathlib.Logic.Relation
import BranchBound.Proofs.Scalar.Ordered
import BranchBound.Proofs.Search.Path
import BranchBound.Proofs.Search.Selection

/-!
# The full tree

Over a backend whose answers depend on the box alone and a rule without memory, a search walks
through one tree that is fixed in advance. How much of it is walked through, and in which order,
is up to the search.

* `Branch.restrict?_comm`, `replay?_cons`: branches may be replayed in any order.
* `BranchingRule.pick?`: the choice of a rule without memory, `Scoring.pick?_of_runs_select`.
* `Outline`: what the tree depends on, `Outline.Child`: its links.
* `Outline.Leads`: an integer optimum of a certain value is found at a place or below it.
* `Outline.Leads.le`: where no child is better than its parent, nothing below a place is.
-/

namespace BranchBound

/-! ## Replaying branches -/

/-- Changes at two entries, or at one entry by functions that commute, may be made in any order. -/
theorem modify_comm {β : Type} {f g : β → β} (hfg : ∀ b, f (g b) = g (f b)) (l : List β)
    (i j : ℕ) : (l.modify i f).modify j g = (l.modify j g).modify i f := by
  apply List.ext_getElem?
  intro k
  simp only [List.getElem?_modify]
  cases l[k]? with
  | none => rfl
  | some b =>
    by_cases hi : i = k
    · by_cases hj : j = k
      · simp [hi, hj, hfg]
      · simp [hi, hj]
    · simp [hi]

section Replay

variable {α : Type} [Scalar α]

/-- Bounds on different sides do not meet. -/
theorem Box.tightenUpper?_tightenLower? (box : Box α) (i j : ℕ) (p q : α) :
    (box.tightenUpper? i p).bind (·.tightenLower? j q)
      = (box.tightenLower? j q).bind (·.tightenUpper? i p) := by
  unfold tightenUpper? tightenLower?
  by_cases hi : i < box.upper.length <;> by_cases hj : j < box.lower.length <;> simp [hi, hj]

variable [LinearScalar α]

theorem Box.tightenUpper?_comm (box : Box α) (i j : ℕ) (p q : α) :
    (box.tightenUpper? i p).bind (·.tightenUpper? j q)
      = (box.tightenUpper? j q).bind (·.tightenUpper? i p) := by
  have hcomm : (box.upper.modify i fun u => Scalar.minNum u p).modify j (fun u => Scalar.minNum u q)
      = (box.upper.modify j fun u => Scalar.minNum u q).modify i fun u => Scalar.minNum u p := by
    refine modify_comm (fun u => ?_) box.upper i j
    simp only [LinearScalar.minNum_eq_min]
    exact min_right_comm u q p
  unfold tightenUpper?
  by_cases hi : i < box.upper.length <;> by_cases hj : j < box.upper.length <;>
    simp [hi, hj, hcomm]

theorem Box.tightenLower?_comm (box : Box α) (i j : ℕ) (p q : α) :
    (box.tightenLower? i p).bind (·.tightenLower? j q)
      = (box.tightenLower? j q).bind (·.tightenLower? i p) := by
  have hcomm : (box.lower.modify i fun l => Scalar.maxNum l p).modify j (fun l => Scalar.maxNum l q)
      = (box.lower.modify j fun l => Scalar.maxNum l q).modify i fun l => Scalar.maxNum l p := by
    refine modify_comm (fun l => ?_) box.lower i j
    simp only [LinearScalar.maxNum_eq_max]
    exact max_right_comm l q p
  unfold tightenLower?
  by_cases hi : i < box.lower.length <;> by_cases hj : j < box.lower.length <;>
    simp [hi, hj, hcomm]

/-- Two branches leave the same box in either order. -/
theorem Branch.restrict?_comm (b c : Branch α) (box : Box α) :
    (b.restrict? box).bind c.restrict? = (c.restrict? box).bind b.restrict? := by
  unfold Branch.restrict?
  cases b.sense with
  | down =>
    cases c.sense with
    | down => exact box.tightenUpper?_comm _ _ _ _
    | up => exact box.tightenUpper?_tightenLower? _ _ _ _
  | up =>
    cases c.sense with
    | down => exact (box.tightenUpper?_tightenLower? _ _ _ _).symm
    | up => exact box.tightenLower?_comm _ _ _ _

omit [LinearScalar α] in
/-- The branch nearest to a node is replayed first. -/
theorem Box.replay?_cons_first (root : Box α) (b : Branch α) (bs : List (Branch α)) :
    root.replay? (b :: bs) = (b.restrict? root).bind (·.replay? bs) := List.foldlM_cons

/-- The box of a child is the box of its parent, restricted by its own branch. -/
theorem Box.replay?_cons (root : Box α) (b : Branch α) (bs : List (Branch α)) :
    root.replay? (b :: bs) = (root.replay? bs).bind b.restrict? := by
  induction bs generalizing root with
  | nil =>
    rw [replay?_cons_first]
    show (b.restrict? root).bind some = b.restrict? root
    exact Option.bind_fun_some _
  | cons c bs ih =>
    calc root.replay? (b :: c :: bs)
        = ((b.restrict? root).bind c.restrict?).bind (·.replay? bs) := by
          rw [replay?_cons_first, Option.bind_assoc]
          exact Option.bind_congr fun box _ => box.replay?_cons_first c bs
      _ = ((c.restrict? root).bind b.restrict?).bind (·.replay? bs) := by
          rw [Branch.restrict?_comm]
      _ = (c.restrict? root).bind (fun box => (box.replay? bs).bind b.restrict?) := by
          rw [Option.bind_assoc]
          exact Option.bind_congr fun box _ => (box.replay?_cons_first b bs).symm.trans (ih box)
      _ = (root.replay? (c :: bs)).bind b.restrict? := by
          rw [replay?_cons_first, Option.bind_assoc]

end Replay

/-! ## Rules without memory -/

namespace BranchingRule

variable {α : Type} [Scalar α]

/-- The rules that look at nothing but the values of the variables. -/
def HistoryFree (rule : BranchingRule α) : Prop := rule = .fixedOrder ∨ rule = .mostFractional

omit [Scalar α] in
/-- A rule without history asks for no solves of its own. -/
theorem HistoryFree.usesResolves_eq {rule : BranchingRule α} (h : rule.HistoryFree) :
    rule.usesResolves = false := by
  rcases h with rfl | rfl
  · rfl
  · rfl

/-- The candidate such a rule chooses among the fractional variables. -/
def pick? (rule : BranchingRule α) : List (ℕ × α) → Option (Candidate α)
  | [] => none
  | first :: rest =>
    match rule with
    | .fixedOrder => some (.byFractionality first)
    | .mostFractional => some (.best (.byFractionality first) (rest.map .byFractionality))
    | _ => none

end BranchingRule

namespace Scoring

variable {σ α : Type} [Scalar α] {s t : Scoring σ α}

open Relaxation

/-- Without memory, the choice is read off the values, and scoring stays as it is. -/
theorem pick?_of_runs_select {B : Backend σ α} {p : Problem α} {limit : ℕ} {node : NodePoint α}
    {c : Candidate α} (hrule : s.rule.HistoryFree) (h : Runs (select B p limit node) s (some c) t) :
    t = s ∧ ∃ fs, p.fractional? node.x = some fs ∧ s.rule.pick? fs = some c := by
  cases selects_of_runs_select h with
  | chosen hfs hswitches hchoose =>
    rcases hrule with hrule | hrule <;> cases hswitches with
    | stays =>
      rw [hrule] at hchoose ⊢
      obtain ⟨rfl, rfl⟩ := runs_pure_iff.mp hchoose
      exact ⟨rfl, _, hfs, rfl⟩
    | givesWay hhybrid => cases hrule.symm.trans hhybrid

end Scoring

/-! ## Places -/

/-- A place in the full tree. -/
structure Place (α : Type) where
  depth : ℕ
  box : Box α

/-- What the full tree of a search depends on. -/
structure Outline (α : Type) where
  problem : Problem α
  integralityTol : α
  rule : BranchingRule α
  tooDeep : ℕ → Bool
  root : Box α
  answer : Box α → Relaxation.Answer α

namespace Outline

variable {α : Type} [Scalar α]

/-- Where the full tree starts. -/
def start (o : Outline α) : Place α := ⟨0, o.root⟩

/-- The optimum at a place is fractional and not too deep, and this is one of its two children. -/
inductive Child (o : Outline α) (p : Place α) : Place α → Prop
  | intro {fs : List (ℕ × α)} {c : Candidate α} {b : Branch α} {box : Box α}
      (hoptimal : (o.answer p.box).isOptimal = true)
      (hinteger : o.problem.integerFeasible? (o.answer p.box).x o.integralityTol = some false)
      (hdepth : o.tooDeep p.depth = false)
      (hfs : o.problem.fractional? (o.answer p.box).x = some fs) (hc : o.rule.pick? fs = some c)
      (hb : b = c.down ∨ b = c.up) (hbox : b.restrict? p.box = some box) :
      Child o p ⟨p.depth + 1, box⟩

/-- The optimum at a place is integer. -/
def IsInteger (o : Outline α) (p : Place α) : Prop :=
  (o.answer p.box).isOptimal = true ∧
    o.problem.integerFeasible? (o.answer p.box).x o.integralityTol = some true

/-- One place lies below another, or is the same. -/
def Below (o : Outline α) : Place α → Place α → Prop := Relation.ReflTransGen o.Child

/-- An integer optimum of this value is found at a place or below it. -/
def Leads (o : Outline α) (p : Place α) (v : α) : Prop :=
  ∃ q, o.Below p q ∧ o.IsInteger q ∧ (o.answer q.box).objective = v

/-- No child has a larger optimum than its parent. -/
def Monotone (answer : Box α → Relaxation.Answer α) : Prop :=
  ∀ (b : Branch α) (box child : Box α), b.restrict? box = some child →
    (answer box).isOptimal = true → (answer child).isOptimal = true →
    (answer child).objective ≤ (answer box).objective

variable {o : Outline α} {p q : Place α} {v : α}

/-- Where the optimum is fractional and not too deep, the children are those of the variable that
the rule chooses. -/
theorem child_iff {fs : List (ℕ × α)} {c : Candidate α}
    (hoptimal : (o.answer p.box).isOptimal = true)
    (hinteger : o.problem.integerFeasible? (o.answer p.box).x o.integralityTol = some false)
    (hdepth : o.tooDeep p.depth = false)
    (hfs : o.problem.fractional? (o.answer p.box).x = some fs) (hc : o.rule.pick? fs = some c) :
    o.Child p q ↔ ∃ b box, (b = c.down ∨ b = c.up) ∧ b.restrict? p.box = some box ∧
      q = ⟨p.depth + 1, box⟩ := by
  constructor
  · intro h
    cases h with
    | intro _ _ _ hfs' hc' hb hbox =>
      cases hfs.symm.trans hfs'
      cases hc.symm.trans hc'
      exact ⟨_, _, hb, hbox, rfl⟩
  · rintro ⟨b, box, hb, hbox, rfl⟩
    exact .intro hoptimal hinteger hdepth hfs hc hb hbox

/-- An integer node leads to its own optimum. -/
theorem leads_of_isInteger (h : o.IsInteger p) : o.Leads p (o.answer p.box).objective :=
  ⟨p, .refl, h, rfl⟩

/-- What a node leads to, the nodes above it lead to. -/
theorem Leads.of_below (hpq : o.Below p q) (h : o.Leads q v) : o.Leads p v := by
  obtain ⟨r, hqr, hinteger, hvalue⟩ := h
  exact ⟨r, hpq.trans hqr, hinteger, hvalue⟩

/-- What is found at a place or below it is found there or from one of its children on. -/
theorem Leads.cases (h : o.Leads p v) :
    (o.IsInteger p ∧ (o.answer p.box).objective = v) ∨ ∃ q, o.Child p q ∧ o.Leads q v := by
  obtain ⟨r, hpr, hinteger, hvalue⟩ := h
  rcases Relation.ReflTransGen.cases_head hpr with rfl | ⟨q, hpq, hqr⟩
  · exact .inl ⟨hinteger, hvalue⟩
  · exact .inr ⟨q, hpq, r, hqr, hinteger, hvalue⟩

theorem Leads.isOptimal (h : o.Leads p v) : (o.answer p.box).isOptimal = true := by
  rcases h.cases with ⟨hinteger, -⟩ | ⟨q, ⟨hoptimal⟩, -⟩
  · exact hinteger.1
  · exact hoptimal

/-- Where no child is better than its parent, nothing below a place is better than its optimum. -/
theorem Leads.le [LinearScalar α] (hmono : Monotone o.answer) (h : o.Leads p v) :
    v ≤ (o.answer p.box).objective := by
  obtain ⟨r, hpr, hinteger, rfl⟩ := h
  induction hpr using Relation.ReflTransGen.head_induction_on with
  | refl => exact le_refl _
  | head hpq hqr ih =>
    have hoptimal := Leads.isOptimal ⟨r, hqr, hinteger, rfl⟩
    cases hpq with
    | intro hoptimal' _ _ _ _ _ hbox => exact le_trans ih (hmono _ _ _ hbox hoptimal' hoptimal)

end Outline

end BranchBound
