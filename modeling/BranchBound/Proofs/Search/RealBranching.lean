import BranchBound.Proofs.Problem.Constructed
import BranchBound.Proofs.Search.Composition
import BranchBound.Proofs.Search.Delivers
import BranchBound.Proofs.Search.Fractional
import BranchBound.Proofs.Search.ReliabilityWalk

/-!
# Every decision is a branching

Whichever rule is in effect, choosing a variable ends with a fractional integer variable of the node
at its own value, unless there is none. Both branches then cut off the node's optimum, and no
integer point is lost. From one call to the next, the rule changes at most once.

* `Box.Spans`: boxes with bounds for so many variables.
* `Separates`: what it means for a variable and a value to be a branching.
* `separates_of_fractional`: fractional variables are branchings.
* `Call`, `rulesAfter`: sequences of choices by one rule that may give way.
* `select_branches`: every decision is a branching, and the rule changes at most once.
-/

namespace BranchBound

open Relaxation

/-! ## Boxes -/

/-- There are bounds for so many variables. -/
structure Box.Spans {α : Type} (n : ℕ) (box : Box α) : Prop where
  lower : box.lower.length = n
  upper : box.upper.length = n

theorem Box.tightens_spans (n : ℕ) : Box.Tightens n (Box.Spans n) where
  lower h hvar _ := ⟨_, if_pos (hvar.trans_eq h.lower.symm),
    (List.length_modify _ _ _).trans h.lower, h.upper⟩
  upper h hvar _ := ⟨_, if_pos (hvar.trans_eq h.upper.symm), h.lower,
    (List.length_modify _ _ _).trans h.upper⟩

/-! ## Branchings -/

/-- A variable and a value are a branching at a point: the variable is integer and has this value,
which lies between two successive whole numbers, and the two branches cut the point off from every
box, and nothing that is whole where it has to be. -/
structure Separates (p : Problem ExtRat) (x : List ExtRat) (var : ℕ) (value : ExtRat) : Prop where
  integer : var ∈ p.integerVars
  value_eq : x[var]? = some value
  floor_lt : Scalar.floor value < value
  lt_ceil : value < Scalar.ceil value
  ceil_eq : Scalar.ceil value = Scalar.floor value + 1
  boxes : ∀ box : Box ExtRat, box.Spans p.numVars → ∃ below above,
    (Branch.down var value).restrict? box = some below ∧
      (Branch.up var value).restrict? box = some above ∧
      ¬ below.Contains x ∧ ¬ above.Contains x ∧
      ∀ y : List ℚ, box.Contains (y.map .fin) →
        (∀ j ∈ p.integerVars, ∃ k : ℤ, y[j]? = some (k : ℚ)) →
        below.Contains (y.map .fin) ∨ above.Contains (y.map .fin)

theorem separates_of_fractional {p : Problem ExtRat} (hp : p.WellFormed) {x : List ExtRat}
    {var : ℕ} {value : ExtRat} (hvar : var ∈ p.integerVars) (hvalue : x[var]? = some value)
    (hfrac : Problem.fractionalTol < Scalar.fractionality value) : Separates p x var value := by
  obtain ⟨a, rfl, hfloor, hceil⟩ := exists_fin_of_fractional hfrac
  have hlt := hp.lt_numVars hvar
  refine ⟨hvar, hvalue, hfloor, ?_, ?_, fun box hbox => ?_⟩
  · rw [ExtRat.ceil_fin]
    exact hceil
  · have hsucc : ⌈a⌉ = ⌊a⌋ + 1 := by
      rw [Int.ceil_eq_iff, Int.cast_add, Int.cast_one, add_sub_cancel_right]
      exact ⟨hfloor, (Int.lt_floor_add_one a).le⟩
    rw [ExtRat.ceil_fin, ExtRat.floor_fin, ExtRat.one_eq_fin, ExtRat.fin_add, hsucc, Int.cast_add,
      Int.cast_one]
  · obtain ⟨below, hbelow⟩ := Branch.exists_restrict? (b := Branch.down var (.fin a))
      (hlt.trans_eq hbox.lower.symm) (hlt.trans_eq hbox.upper.symm)
    obtain ⟨above, habove⟩ := Branch.exists_restrict? (b := Branch.up var (.fin a))
      (hlt.trans_eq hbox.lower.symm) (hlt.trans_eq hbox.upper.symm)
    refine ⟨below, above, hbelow, habove, fun hx => ?_, fun hx => ?_, fun y hy hwhole => ?_⟩
    · obtain ⟨v, hv, hle⟩ := ((Box.contains_of_restrict? hbelow x).mp hx).2
      cases hvalue.symm.trans hv
      exact absurd hle (not_le.mpr hfloor)
    · obtain ⟨v, hv, hle⟩ := ((Box.contains_of_restrict? habove x).mp hx).2
      cases hvalue.symm.trans hv
      have hge : Scalar.ceil (ExtRat.fin a) ≤ .fin a := hle
      rw [ExtRat.ceil_fin] at hge
      exact absurd hge (not_le.mpr hceil)
    · rw [Box.contains_of_restrict? hbelow, Box.contains_of_restrict? habove]
      exact (Branch.holds_down_or_up hfrac (hwhole var hvar)).imp (⟨hy, ·⟩) (⟨hy, ·⟩)

/-! ## Sequences of choices -/

namespace Scoring

variable {σ : Type} {p : Problem ExtRat} {B : Backend σ ExtRat} {P : σ → Prop}
  {node : NodePoint ExtRat} {s : Scoring σ ExtRat}

/-- A choice of a variable. All that scoring knows may be new, but for the rule. -/
structure Call (σ : Type) where
  backend : Backend σ ExtRat
  problem : Problem ExtRat
  limit : ℕ
  node : NodePoint ExtRat
  scoring : Scoring σ ExtRat

/-- The rule after a choice, which need not have succeeded. -/
def Call.ruleAfter (c : Call σ) (rule : BranchingRule ExtRat) : BranchingRule ExtRat :=
  ((select c.backend c.problem c.limit c.node).run.run { c.scoring with rule }).2.rule

/-- The rules after each of a sequence of choices. -/
def rulesAfter (rule : BranchingRule ExtRat) : List (Call σ) → List (BranchingRule ExtRat)
  | [] => []
  | c :: calls => c.ruleAfter rule :: rulesAfter (c.ruleAfter rule) calls

/-- Only hybrid branching ever gives way, to pseudocost branching and for good. -/
theorem rulesAfter_eq (rule : BranchingRule ExtRat) (calls : List (Call σ)) :
    ∃ m n, rulesAfter rule calls = List.replicate m rule ++ List.replicate n .pseudocost ∧
      (0 < n → rule = .hybrid) := by
  induction calls generalizing rule with
  | nil => exact ⟨0, 0, rfl, fun h => absurd h (lt_irrefl 0)⟩
  | cons c calls ih =>
    obtain ⟨m, n, hrules, hgave⟩ := ih (c.ruleAfter rule)
    have hcall : c.ruleAfter rule = rule ∨ rule = .hybrid ∧ c.ruleAfter rule = .pseudocost :=
      rule_select c.limit { c.scoring with rule }
    rw [rulesAfter, hrules]
    rcases hcall with hkeep | ⟨hhybrid, hswitch⟩
    · rw [hkeep] at hgave ⊢
      exact ⟨m + 1, n, rfl, hgave⟩
    · rw [hswitch]
      refine ⟨0, m + n + 1, ?_, fun _ => hhybrid⟩
      rw [List.replicate_append_replicate, List.replicate_succ]
      rfl

/-! ## Every rule -/

/-- Where no variable is fractional, nothing is chosen. -/
theorem runs_select_none {limit : ℕ} (hx : p.fractional? node.x = some []) :
    Runs (select B p limit node) s none s := by
  unfold select
  refine runs_bind_iff.mpr ⟨[], s, runs_inRange_iff.mpr ⟨hx, rfl⟩, ?_⟩
  exact runs_pure_iff.mpr ⟨rfl, rfl⟩

/-- Every decision is a branching. For a problem from the constructors, a point with a value for
each variable, pseudocosts for all of them and a backend that replies in every box, any rule at any
depth chooses nothing if no integer variable is fractional, and otherwise such a variable at its
value, so that its branches cut off the point and nothing that is whole where it has to be. However
often it is called, the rule changes at most once, from hybrid to pseudocost branching. -/
theorem select_branches (hp : p.Constructed) (hB : B.Replies p (Box.Spans p.numVars) P)
    (hs : P s.oracle.backend) (htable : s.table.Covers p.numVars)
    (hbox : node.box.Spans p.numVars) (hx : node.x.length = p.numVars) (limit : ℕ) :
    (∃ choice t, Runs (select B p limit node) s choice t ∧
      (choice = none ↔ ∀ j ∈ p.integerVars, ∀ v, node.x[j]? = some v →
        Scalar.fractionality v ≤ Problem.fractionalTol) ∧
      ∀ c, choice = some c → Separates p node.x c.var c.value) ∧
    ∀ rule (calls : List (Call σ)), ∃ m n,
      rulesAfter rule calls = List.replicate m rule ++ List.replicate n .pseudocost ∧
        (0 < n → rule = .hybrid) := by
  refine ⟨?_, rulesAfter_eq⟩
  have hwell := hp.wellFormed
  obtain ⟨fs, hfs, hfound⟩ := Problem.exists_fractional? (hwell.lt_length hx)
  have hspec := fun f (hf : f ∈ fs) => Problem.fractional?_spec hfs hf
  by_cases hnil : fs = []
  · subst hnil
    refine ⟨none, s, runs_select_none hfs, iff_of_true rfl fun j hj v hv => ?_, nofun⟩
    exact not_lt.mp fun hfrac => List.not_mem_nil (hfound j hj v hv hfrac)
  · have hsplits : ∀ f ∈ fs, Splits p.numVars f := by
      intro f hf
      obtain ⟨hvar, -, hfrac⟩ := hspec f hf
      obtain ⟨a, ha, -⟩ := exists_fin_of_fractional hfrac
      exact ⟨hwell.lt_numVars hvar, by rw [ha]; rfl⟩
    obtain ⟨_, t, hrun, -, c, rfl, -⟩ := delivers_select hB hbox limit hfs hnil hsplits s ⟨htable, hs⟩
    obtain ⟨gs, hgs, hmem⟩ := fraction_mem_of_runs_select hrun
    cases hfs.symm.trans hgs
    obtain ⟨hvar, hvalue, hfrac⟩ := hspec _ hmem
    refine ⟨some c, t, hrun, iff_of_false (Option.some_ne_none c) fun hnone => ?_, ?_⟩
    · exact absurd hfrac (not_lt.mpr (hnone _ hvar _ hvalue))
    · intro _ heq
      cases heq
      exact separates_of_fractional hwell hvar hvalue hfrac

/-! ### Two even things -/

/-- A backend that gives the same answer in every box. -/
def idleBackend : Backend Unit ExtRat := Search.steadyBackend fun _ => ⟨.optimal, [0, 0], 0, 1⟩

theorem replies_idle : idleBackend.Replies wedge (Box.Spans 2) fun _ => True where
  tightens := Box.tightens_spans 2
  answers _ _ _ := ⟨_, rfl, rfl, trivial⟩

/-- Where both things are in by two thirds, hybrid branching separates one of them. -/
theorem select_branches_wedge : ∃ c t,
    Runs (select idleBackend wedge 5 wedgeNode) (.new .hybrid wedge.objective ()) (some c) t ∧
      Separates wedge wedgeNode.x c.var c.value := by
  obtain ⟨⟨choice, t, hrun, hnone, hseparates⟩, -⟩ :=
    select_branches constructed_wedge replies_idle (s := .new .hybrid wedge.objective ()) trivial
      ⟨rfl, rfl⟩ (⟨rfl, rfl⟩ : wedgeNode.box.Spans 2) (rfl : wedgeNode.x.length = 2) 5
  cases choice with
  | none =>
    have hhalf : ¬ Scalar.fractionality (.fin (2 / 3) : ExtRat) ≤ Problem.fractionalTol := by
      decide +kernel
    exact absurd (hnone.mp rfl 0 (by decide) _ rfl) hhalf
  | some c => exact ⟨c, t, hrun, hseparates c rfl⟩

end Scoring

end BranchBound
