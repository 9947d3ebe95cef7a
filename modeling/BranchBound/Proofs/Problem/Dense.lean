import Mathlib.Data.Set.Finite.Lemmas
import Mathlib.Data.Set.Finite.List
import BranchBound.Proofs.Problem.Constructed
import BranchBound.Proofs.Search.Fractional

/-!
# Dense data and zero-one points

A problem whose rows are given in full, with all variables integer and between zero and one, asks
for the best of finitely many vectors.

* `DenseData`, `DenseData.Point`, `DenseData.value`: the numbers, the zero-one vectors that satisfy
  all rows, and what these are worth.
* `Terms.activity_ofDense`: leaving out zeros does not change the value of a row.
* `DenseData.Describes`, `DenseData.describes_of_ofDense`: what the problem has of its data.
* `DenseData.Describes.integerPoint_iff`: its integer points are the zero-one vectors.
* `DenseData.exists_isGreatest`: one of these is best.
-/

namespace BranchBound

open ExtRat

theorem forall₂_replicate_left_iff {β γ : Type} {R : β → γ → Prop} {c : β} {n : ℕ} {l : List γ} :
    List.Forall₂ R (List.replicate n c) l ↔ l.length = n ∧ ∀ v ∈ l, R c v := by
  induction l generalizing n with
  | nil => cases n <;> simp [List.replicate_succ]
  | cons v l ih =>
    cases n with
    | zero => simp
    | succ n =>
      rw [List.replicate_succ, List.forall₂_cons, ih, List.length_cons, List.forall_mem_cons,
        Nat.succ_inj]
      tauto

/-! ## Rows -/

namespace Terms

/-- Leaving out the zeros of a row does not change a sum over its entries. -/
theorem sum_ofDense (row y : List ℚ) (k : ℕ) :
    ((((row.map fin).zipIdx k).filter fun (v, _) => v != 0).map
        fun e => e.1.toRat * y.getD e.2 0).sum = ratDot row (y.drop k) := by
  induction row generalizing k with
  | nil => rfl
  | cons a row ih =>
    -- the entry counts with its own value, also where it is zero and left out
    have hfirst : (((((a :: row).map fin).zipIdx k).filter fun (v, _) => v != 0).map
        fun e => e.1.toRat * y.getD e.2 0).sum
        = a * y.getD k 0 + ratDot row (y.drop (k + 1)) := by
      rw [List.map_cons, List.zipIdx_cons, List.filter_cons, ← ih (k + 1)]
      have hbne : (fin a != 0) = !decide (a = 0) := congrArg (!·) (fin_beq_zero a)
      dsimp only
      by_cases ha : a = 0
      · rw [if_neg (by rw [hbne, decide_eq_true ha]; decide), ha, zero_mul, zero_add]
      · rw [if_pos (by rw [hbne, decide_eq_false ha]; rfl), List.map_cons, List.sum_cons,
          toRat_fin]
    rw [hfirst]
    by_cases hk : k < y.length
    · rw [List.drop_eq_getElem_cons hk, ratDot_cons, List.getD_eq_getElem _ _ hk]
    · rw [List.getD_eq_default _ _ (by omega), List.drop_eq_nil_of_le (by omega),
        List.drop_eq_nil_of_le (by omega)]
      simp [ratDot]

/-- The value of a dense row at a point is their product. -/
theorem activity_ofDense (row y : List ℚ) :
    activity (ofDense (row.map fin)) (y.map fin) = fin (ratDot row y) := by
  have hstep : ∀ e ∈ ((row.map fin).zipIdx.filter fun (v, _) => v != 0), ∀ a : ℚ,
      fin a + e.1 * (y.map fin).getD e.2 0 = fin (a + e.1.toRat * y.getD e.2 0) := by
    intro e he a
    obtain ⟨b, -, hb⟩ := List.mem_map.mp
      (List.mem_of_getElem? (List.mem_zipIdx_iff_getElem?.mp (List.mem_of_mem_filter he)))
    have hget : (y.map fin).getD e.2 0 = fin (y.getD e.2 0) := List.getD_map y 0 fin
    rw [hget, ← hb, fin_mul, fin_add, toRat_fin]
  rw [activity, ofDense, List.foldl_map]
  refine (foldl_eq_fin _ hstep 0).trans ?_
  rw [zero_add, sum_ofDense, List.drop_zero]

end Terms

/-! ## Data -/

/-- The numbers of a problem with dense rows. -/
structure DenseData where
  objective : List ℚ
  rows : List (List ℚ)
  rhs : List ℚ

namespace DenseData

/-- The problem with these numbers, if they pass its checks. -/
def problem (d : DenseData) : Except ProblemFault (Problem ExtRat) :=
  Problem.ofDense (d.objective.map fin) (d.rows.map (List.map fin)) (d.rhs.map fin)

/-- No number is negative, and every right-hand side is positive. -/
def IsPacking (d : DenseData) : Prop :=
  (∀ c ∈ d.objective, 0 ≤ c) ∧ (∀ row ∈ d.rows, ∀ c ∈ row, 0 ≤ c) ∧ ∀ b ∈ d.rhs, 0 < b

instance (d : DenseData) : Decidable d.IsPacking :=
  inferInstanceAs (Decidable (_ ∧ _ ∧ _))

/-- Objective of a point. -/
def value (d : DenseData) (y : List ℚ) : ℚ := ratDot d.objective y

/-- A zero-one vector that satisfies all rows. -/
structure Point (d : DenseData) (y : List ℚ) : Prop where
  length_eq : y.length = d.objective.length
  zeroOne : ∀ v ∈ y, v = 0 ∨ v = 1
  rows : List.Forall₂ (fun row b => ratDot row y ≤ b) d.rows d.rhs

/-- A problem with these numbers, all variables integer. -/
structure Describes (d : DenseData) (p : Problem ExtRat) : Prop where
  objective : p.objective = d.objective.map fin
  terms : p.rows.map Row.terms = d.rows.map fun row => Terms.ofDense (row.map fin)
  rhs : p.rows.map Row.rhs = d.rhs.map fin
  types : p.types = List.replicate d.objective.length .integer

variable {d : DenseData} {p : Problem ExtRat} {y : List ℚ}

/-- A problem that was made from dense data is described by them. -/
theorem describes_of_ofDense (h : d.problem = .ok p) : d.Describes p := by
  obtain ⟨-, -, hlength, -, rfl⟩ := Problem.of_ofRows h
  refine ⟨rfl, ?_, ?_, ?_⟩
  · calc List.map Row.terms (List.map _ (List.zip _ _))
        = ((List.zip _ _).map Prod.fst).map
            fun row : String × List ExtRat => Terms.ofDense row.2 := by
          rw [List.map_map, List.map_map]
          rfl
      _ = ((d.rows.map (List.map fin)).zipIdx.map Prod.fst).map Terms.ofDense := by
          rw [List.map_fst_zip hlength.ge, List.map_map, List.map_map]
          rfl
      _ = d.rows.map fun row => Terms.ofDense (row.map fin) := by
          rw [List.zipIdx_map_fst, List.map_map]
          rfl
  · show List.map Row.rhs (List.map _ (List.zip _ _)) = _
    rw [List.map_map]
    exact List.map_snd_zip hlength.le
  · show List.replicate _ _ = _
    rw [List.length_map]

namespace Describes

theorem numVars_eq (h : d.Describes p) : p.numVars = d.objective.length := by
  rw [Problem.numVars, h.objective, List.length_map]

/-- The objective of a problem at a rational point is that of its data. -/
theorem objectiveValue_eq (h : d.Describes p) (y : List ℚ) :
    p.objectiveValue (y.map fin) = fin (d.value y) := by
  rw [Problem.objectiveValue, h.objective, dot_map_fin, value]

/-- What relates the rows of the problem to their right-hand sides at a point does so for the rows
of the data. -/
theorem forall₂_rows_iff (h : d.Describes p) (R : ExtRat → ExtRat → Prop) (y : List ℚ) :
    List.Forall₂ (fun terms b => R (Terms.activity terms (y.map fin)) b) (p.rows.map Row.terms)
        (p.rows.map Row.rhs)
      ↔ List.Forall₂ (fun row b => R (fin (ratDot row y)) (fin b)) d.rows d.rhs := by
  rw [h.terms, h.rhs, List.forall₂_map_left_iff, List.forall₂_map_right_iff]
  simp only [Terms.activity_ofDense]

/-- Every variable is to be whole. -/
theorem mem_integerVars_iff (h : d.Describes p) {j : ℕ} :
    j ∈ p.integerVars ↔ j < d.objective.length := by
  rw [Problem.integerVars, h.types, List.mem_map]
  constructor
  · rintro ⟨e, he, rfl⟩
    have hget := List.mem_zipIdx_iff_getElem?.mp (List.mem_of_mem_filter he)
    exact lt_of_lt_of_eq (List.getElem?_eq_some_iff.mp hget).1 List.length_replicate
  · intro hj
    refine ⟨(.integer, j), List.mem_filter.mpr ⟨?_, rfl⟩, rfl⟩
    rw [List.mem_zipIdx_iff_getElem?, List.getElem?_replicate, if_pos hj]

/-- The root box of a problem of zeros and ones is the unit cube. -/
theorem contains_root_iff (h : d.Describes p) :
    (Box.root p true).Contains (y.map fin)
      ↔ y.length = d.objective.length ∧ ∀ v ∈ y, 0 ≤ v ∧ v ≤ 1 := by
  have hupper : (Box.root p true).upper = List.replicate d.objective.length 1 := by
    show p.types.map _ = _
    rw [h.types, List.map_replicate, if_pos (.inl rfl)]
  have hlower : (Box.root p true).lower = List.replicate d.objective.length 0 := by
    show List.replicate p.numVars 0 = _
    rw [h.numVars_eq]
  unfold Box.Contains Within
  have hflip : List.Forall₂ (fun v b => fin v ≤ b) y (List.replicate d.objective.length 1)
      ↔ List.Forall₂ (fun b v => fin v ≤ b) (List.replicate d.objective.length 1) y :=
    ⟨List.Forall₂.flip, List.Forall₂.flip⟩
  rw [hupper, hlower, List.forall₂_map_right_iff, List.forall₂_map_left_iff, hflip,
    forall₂_replicate_left_iff, forall₂_replicate_left_iff, ← and_and_left]
  simp only [zero_eq_fin, one_eq_fin, fin_le_fin, forall_and]

/-- The integer points of the problem between zero and one are the zero-one vectors that satisfy
all rows. -/
theorem integerPoint_iff (h : d.Describes p) : p.IntegerPoint (.root p true) y ↔ d.Point y := by
  have hrows : (∀ r ∈ p.rows, r.terms.activity (y.map fin) ≤ r.rhs)
      ↔ List.Forall₂ (fun row b => ratDot row y ≤ b) d.rows d.rhs := by
    have hiff := h.forall₂_rows_iff (· ≤ ·) y
    rw [List.forall₂_map_left_iff, List.forall₂_map_right_iff, List.forall₂_same] at hiff
    exact hiff
  constructor
  · rintro ⟨hinside, hr, hwhole⟩
    obtain ⟨hlength, hbounds⟩ := h.contains_root_iff.mp hinside
    refine ⟨hlength, fun v hv => ?_, hrows.mp hr⟩
    -- the only whole numbers between zero and one are the two
    obtain ⟨j, hj⟩ := List.mem_iff_getElem?.mp hv
    obtain ⟨k, hk⟩ := hwhole j (h.mem_integerVars_iff.mpr
      (lt_of_lt_of_eq (List.getElem?_eq_some_iff.mp hj).1 hlength))
    obtain rfl : v = k := Option.some.inj (hj.symm.trans hk)
    obtain ⟨hzero, hone⟩ := hbounds _ hv
    have hk0 : 0 ≤ k := by exact_mod_cast hzero
    have hk1 : k ≤ 1 := by exact_mod_cast hone
    have hk01 : k = 0 ∨ k = 1 := by omega
    exact hk01.imp (by rintro rfl; rfl) (by rintro rfl; rfl)
  · rintro ⟨hlength, hzeroOne, hr⟩
    refine ⟨h.contains_root_iff.mpr ⟨hlength, fun v hv => ?_⟩, hrows.mpr hr, fun j hj => ?_⟩
    · rcases hzeroOne v hv with rfl | rfl <;> norm_num
    · have hj' : j < y.length := lt_of_lt_of_eq (h.mem_integerVars_iff.mp hj) hlength.symm
      rcases hzeroOne _ (List.getElem_mem hj') with hv | hv
      · exact ⟨0, by rw [List.getElem?_eq_getElem hj', hv, Int.cast_zero]⟩
      · exact ⟨1, by rw [List.getElem?_eq_getElem hj', hv, Int.cast_one]⟩

end Describes

/-! ## The best point -/

/-- There are finitely many points of zeros and ones, so there is a best one if there is any. -/
theorem finite_point (d : DenseData) : {y | d.Point y}.Finite := by
  -- a zero-one vector is a vector of truth values
  refine ((List.finite_length_eq Bool d.objective.length).image
    (List.map fun b => if b then (1 : ℚ) else 0)).subset fun y hy => ?_
  refine ⟨y.map fun v => decide (v = 1), ?_, ?_⟩
  · show (y.map _).length = _
    rw [List.length_map]
    exact hy.length_eq
  · rw [List.map_map, List.map_congr_left (g := id), List.map_id]
    intro v hv
    rcases hy.zeroOne v hv with rfl | rfl <;> simp

theorem ratDot_replicate_zero (row : List ℚ) (n : ℕ) : ratDot row (List.replicate n 0) = 0 := by
  induction row generalizing n with
  | nil => rfl
  | cons a row ih =>
    cases n with
    | zero => rfl
    | succ n => rw [List.replicate_succ, ratDot_cons, mul_zero, ih, zero_add]

/-- Where no right-hand side is negative, some zero-one vector is best. -/
theorem exists_isGreatest (h : d.Describes p) (hrhs : ∀ b ∈ d.rhs, 0 ≤ b) :
    ∃ m, IsGreatest (Set.image d.value {y | d.Point y}) m := by
  have hzero : d.Point (List.replicate d.objective.length 0) := by
    refine ⟨List.length_replicate, fun v hv => .inl (List.eq_of_mem_replicate hv), ?_⟩
    have hterms := congrArg List.length h.terms
    have hsides := congrArg List.length h.rhs
    rw [List.length_map, List.length_map] at hterms hsides
    refine List.forall₂_iff_zip.mpr ⟨by omega, fun {row b} hmem => ?_⟩
    rw [ratDot_replicate_zero]
    exact hrhs b (List.of_mem_zip hmem).2
  obtain ⟨y, hy, hmax⟩ := Set.exists_max_image _ d.value d.finite_point ⟨_, hzero⟩
  refine ⟨d.value y, ⟨y, hy, rfl⟩, ?_⟩
  rintro _ ⟨z, hz, rfl⟩
  exact hmax z hz

end DenseData

end BranchBound
