import BranchBound.Proofs.Scalar.Exact
import BranchBound.Proofs.Search.Composition
import BranchBound.Proofs.Search.Replay

/-!
# Tables change by observations

A search learns about variables from the optima of nodes and from the children it solves for a
score, one observation at a time. So what an observation keeps true of the pseudocosts is true of
them all along, whatever rule chooses the variables. Over exact numbers the means stay finite, since
only losses between finite values are observed.

* `PseudocostTable.Lasting`: what an observation keeps true.
* `PseudocostTable.IsFinite`, `PseudocostTable.lasting_isFinite`: all means are finite.
* `Scoring.onTable_select`: choosing a variable changes the table by observations only.
* `Search.onTable_visits`: so does a visit.
-/

namespace BranchBound

open Relaxation

variable {σ α : Type}

/-! ## Tables -/

namespace PseudocostTable

/-- A property of tables that observations keep. -/
def Lasting [Scalar α] (P : PseudocostTable α → Prop) : Prop :=
  ∀ t b parent child updated, P t → t.update? b parent child = some updated → P updated.1

/-- All means are finite. -/
def IsFinite (t : PseudocostTable ExtRat) : Prop :=
  ∀ sense, ∀ entry ∈ t.side sense, Scalar.isFinite entry.estimate = true

variable {t : PseudocostTable ExtRat}

/-- The table that starts from a finite objective is finite. -/
theorem isFinite_ofObjective {objective : List ExtRat}
    (h : ∀ v ∈ objective, Scalar.isFinite v = true) : (ofObjective objective).IsFinite := by
  have hseed : ∀ entry ∈ objective.map Pseudocost.seed, Scalar.isFinite entry.estimate = true := by
    intro entry hentry
    obtain ⟨v, hv, rfl⟩ := List.mem_map.mp hentry
    obtain ⟨a, rfl⟩ : ∃ a, v = .fin a := ⟨_, (ExtRat.fin_toRat (h v hv)).symm⟩
    rfl
  intro sense
  cases sense with
  | down => exact hseed
  | up => exact hseed

/-- Only losses between finite values are observed. -/
theorem lasting_isFinite : Lasting IsFinite := by
  intro t b parent child updated h hupdate
  unfold update? at hupdate
  split at hupdate
  · rename_i hinformative
    obtain ⟨entry, hentry, rfl⟩ := Option.map_eq_some_iff.mp hupdate
    have hends : Scalar.isFinite parent = true ∧ Scalar.isFinite child = true := by
      simp only [informative, Bool.not_eq_true', Bool.or_eq_false_iff, Bool.not_eq_false']
        at hinformative
      exact ⟨hinformative.1.2, hinformative.2⟩
    obtain ⟨hparent, hchild⟩ := hends
    have hmean : Scalar.isFinite (entry.observe ((parent - child) / b.distance)).estimate
        = true := by
      rw [← ExtRat.fin_toRat hparent, ← ExtRat.fin_toRat hchild, Pseudocost.observe,
        ← ExtRat.fin_toRat (h b.sense entry (List.mem_of_getElem? hentry))]
      cases b.distance <;> rfl
    -- one mean is replaced, and all others are old ones
    intro sense other hother
    rw [side_set] at hother
    by_cases hsense : sense = b.sense
    · rw [hsense, Function.update_self] at hother
      rcases List.mem_or_eq_of_mem_set hother with hother | rfl
      · exact h b.sense other hother
      · exact hmean
    · rw [Function.update_of_ne hsense] at hother
      exact h sense other hother
  · cases hupdate
    exact h

/-- Finite means predict finite losses. -/
theorem IsFinite.gains {var : ℕ} {value down up : ExtRat} (h : t.IsFinite)
    (hvalue : Scalar.isFinite value = true) (hgains : t.gains? var value = some (down, up)) :
    Scalar.isFinite down = true ∧ Scalar.isFinite up = true := by
  obtain ⟨below, hbelow, hgains⟩ := Option.bind_eq_some_iff.mp hgains
  obtain ⟨above, habove, hgains⟩ := Option.bind_eq_some_iff.mp hgains
  cases hgains
  rw [← ExtRat.fin_toRat hvalue,
    ← ExtRat.fin_toRat (h .down below (List.mem_of_getElem? hbelow)),
    ← ExtRat.fin_toRat (h .up above (List.mem_of_getElem? habove))]
  exact ⟨rfl, rfl⟩

end PseudocostTable

/-! ## Scoring -/

namespace Scoring

section Tables

variable [Scalar α] {P : PseudocostTable α → Prop} {B : Backend σ α} {p : Problem α}
  {node : NodePoint α}

/-- The property of scoring that its table has a property. -/
def OnTable (P : PseudocostTable α → Prop) (s : Scoring σ α) : Prop := P s.table

omit [Scalar α] in
/-- A request does not touch the table. -/
theorem onTable_ask (request : Oracle σ → Reply α × Oracle σ) :
    Maintains (OnTable P) (ask request) := by
  intro s a t h hs
  rw [eq_of_runs_ask h]
  exact hs

omit [Scalar α] in
theorem onTable_modify {f : Scoring σ α → Scoring σ α} (hf : ∀ s, (f s).table = s.table) :
    Maintains (OnTable P) (modify f : ScoringM σ α PUnit) := by
  intro s b t h hs
  rw [← runs_modify_iff.mp h, OnTable, hf]
  exact hs

omit [Scalar α] in
theorem onTable_note (n : Note α) : Maintains (OnTable P) (note n : ScoringM σ α Unit) :=
  onTable_modify fun _ => rfl

omit [Scalar α] in
theorem onTable_switchRule (limit depth : ℕ) :
    Maintains (OnTable P) (switchRule limit depth : ScoringM σ α Unit) := by
  unfold switchRule
  refine maintains_bind maintains_get fun s => ?_
  split
  · refine maintains_ite ?_ (maintains_pure _)
    exact maintains_bind (onTable_note _) fun _ => onTable_modify fun _ => rfl
  · exact maintains_pure _

variable (hP : PseudocostTable.Lasting P)

include hP

/-- Learning keeps what every single observation keeps. -/
theorem onTable_learn (branch : Branch α) (parent child : α) :
    Maintains (OnTable P) (learn branch parent child : ScoringM σ α Unit) := by
  intro s b t h hs
  obtain ⟨changed, hupdate⟩ := update?_of_runs_learn h
  exact hP _ _ _ _ _ hs hupdate

/-- Reliability branching learns from each child that it solves to the optimum. -/
theorem onTable_measureChild (cap : ℕ) (branch : Branch α) :
    Maintains (OnTable P) (measureChild B p node cap branch) := by
  unfold measureChild
  refine maintains_bind (maintains_inRange _ _) fun box => ?_
  refine maintains_bind (onTable_ask _) fun answer => ?_
  cases answer.status with
  | optimal =>
    refine maintains_bind (onTable_modify fun _ => rfl) fun _ => ?_
    exact maintains_bind (onTable_learn hP _ _ _) fun _ => maintains_pure _
  | iterationLimit =>
    exact maintains_bind (onTable_modify fun _ => rfl) fun _ => maintains_pure _
  | infeasible => exact maintains_pure _

/-- Nothing that rules are made of does more to the table than observe. -/
theorem composes_onTable (fs : List (ℕ × α)) :
    Composes B p node fs fun _ x => Maintains (OnTable P) x where
  pure := maintains_pure
  bind := maintains_bind
  get := maintains_get
  inRange _ _ _ := maintains_inRange_bind
  note := onTable_note
  held _ _ _ _ _ := onTable_ask _
  measured _ _ _ := ⟨onTable_measureChild hP _ _, onTable_measureChild hP _ _⟩

/-- Choosing a variable changes the table by observations only. -/
theorem onTable_select (limit : ℕ) : Maintains (OnTable P) (select B p limit node) := by
  unfold select
  refine maintains_bind (maintains_inRange _ _) fun fs => ?_
  cases fs with
  | nil => exact maintains_pure _
  | cons first rest =>
    refine maintains_bind (onTable_switchRule _ _) fun _ => maintains_bind maintains_get fun s => ?_
    rw [map_eq_pure_bind]
    exact maintains_bind ((composes_onTable hP _).choose _) fun c => maintains_pure _

end Tables

end Scoring

/-! ## Visits -/

namespace Search

section Tables

variable [Scalar α] {P : PseudocostTable α → Prop} {ctx : Context σ α} {s t : State σ α}
  {e : Entry α}

/-- A visit changes the table by observations only. -/
theorem onTable_visits (hP : PseudocostTable.Lasting P) (h : Visits ctx e.node e.bound s t)
    (hs : P s.scoring.table) : P t.scoring.table := by
  have hlearned : ∀ {node : Node α} {box : Box α} {a : Answer α} {scoring learned : Scoring σ α},
      Asked ctx e.node s node box a scoring → Learns node a.objective scoring learned →
      P learned.table := by
    intro node box a scoring learned hasked hlearns
    have htable : P scoring.table := by
      rw [hasked.table_eq]
      exact hs
    unfold Learns at hlearns
    split at hlearns
    · rw [hlearns]
      exact htable
    · exact Scoring.onTable_learn hP _ _ _ _ _ _ hlearns htable
  cases h with
  | pruned hnode hclosed => exact hs
  | @infeasible node box a scoring hasked hnot journal =>
    show P scoring.table
    rw [hasked.table_eq]
    exact hs
  | integer hasked hoptimal hlearns hinteger journal =>
    have htable := hlearned hasked hlearns
    show P (State.offer _ _ _ _).scoring.table
    rw [table_offer]
    exact htable
  | fathomed hasked hoptimal hlearns hinteger hclosed hinfeasibility journal =>
    have htable := hlearned hasked hlearns
    exact htable
  | @branched node box a scoring learned chosen c down up first last hasked hoptimal hlearns
      hinteger hopen hdepth infeasibility hinfeasibility noted hselect hpriorities hdown hup
      journal =>
    have htable := hlearned hasked hlearns
    have hchosen : P chosen.table := Scoring.onTable_select hP _ _ _ _ hselect htable
    show P last.scoring.table
    rw [scoring_of_addChild? hup, scoring_of_addChild? hdown]
    exact hchosen

end Tables

end Search

end BranchBound
