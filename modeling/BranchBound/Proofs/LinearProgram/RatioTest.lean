import Mathlib.Data.Prod.Lex
import BranchBound.Proofs.LinearProgram.Choice

/-!
# The ratio test

How close the ratio of the entering column is to the least one. The scan compares a column with the
best one so far and takes ratios within a tie of each other for equal, so that a chain of ties with
ever larger entries raises the ratio: by at most a tie for each column. Under Bland's rule a tie is
no reason to change, and the ratio is at most one tie above the least. Where ratios are equal or
farther apart than a tie, the choice is exact.

* `dualStep`, `ratio_eq_fin`: ratios as rational numbers; `improves_iff`: the comparison of two
  columns.
* `drift`, `respected_drift`: how far the ratio can rise.
* `rank`, `respected_rank`: the order of columns that the scan follows where ratios are apart.
* `ratio_test_near_minimal`: which column enters.
-/

namespace BranchBound.LinearProgram.Tableau

variable {m n : ℕ} {f : StandardForm ExtRat m n} {t : Tableau ExtRat m n} {l : Leaving m}
  {tol : ExtRat} {bland : Bool} {j k : Fin (n + m)}

/-! ## Ratios -/

/-- How far the dual step goes: the ratio of the entering column. -/
def dualStep (t : Tableau ExtRat m n) (l : Leaving m) (q : Fin (n + m)) : ℚ :=
  |t.price q| / |t.entry l.row q|

theorem dualStep_nonneg {q : Fin (n + m)} : 0 ≤ t.dualStep l q :=
  div_nonneg (abs_nonneg _) (abs_nonneg _)

/-- In a rational row the ratio of a column is its step. -/
theorem ratio_eq_fin (ht : t.RationalRow l) (j : Fin (n + m)) :
    t.ratio l j = .fin (t.dualStep l j) := by
  show Scalar.abs (t.reduced.get j) / Scalar.abs ((t.rows.get l.row).get j) = _
  rw [ht.reduced, ht.rows, ExtRat.abs_fin, ExtRat.abs_fin, ExtRat.fin_div, dualStep]

/-- The distance within which ratios are tied. -/
def tieWidth : ℚ := 1 / 10 ^ 12

theorem tieWidth_pos : 0 < tieWidth := by
  rw [tieWidth]
  positivity

theorem ratioTie_eq_fin : (ratioTie : ExtRat) = .fin tieWidth := ExtRat.tenth_eq_fin 12

/-- When a column replaces the one that was best so far: its step is shorter by more than the width
of a tie, or the two are tied and its entry is larger. -/
theorem improves_iff (ht : t.RationalRow l) :
    t.Improves l bland (t.candidate l k) j ↔
      t.dualStep l j < t.dualStep l k - tieWidth ∨
        (bland = false ∧ |t.dualStep l j - t.dualStep l k| ≤ tieWidth ∧
          |t.entry l.row k| < |t.entry l.row j|) := by
  unfold Improves candidate
  simp only [ratio_eq_fin ht, ht.rows, ratioTie_eq_fin, ExtRat.fin_sub, ExtRat.abs_fin,
    ExtRat.fin_lt_fin, ExtRat.fin_le_fin]

/-- Ratios are apart if those of columns that may enter are equal or farther from each other than a
tie. -/
theorem ratiosApart_iff (ht : t.RationalRow l) :
    RatiosApart f t l tol ↔ ∀ j k, t.MayEnter f l tol j → t.MayEnter f l tol k →
      t.dualStep l j = t.dualStep l k ∨ tieWidth < |t.dualStep l j - t.dualStep l k| := by
  unfold RatiosApart
  simp only [eligible_iff ht, ratio_eq_fin ht, ratioTie_eq_fin, ExtRat.fin_sub, ExtRat.abs_fin,
    ExtRat.fin_lt_fin, ExtRat.fin.injEq]

/-! ## Drift -/

/-- By how much the ratio of the best of `d` columns may exceed that of another one. -/
def drift (bland : Bool) (d : ℕ) : ℚ := (if bland then (1 : ℚ) else d) * tieWidth

theorem drift_nonneg (bland : Bool) (d : ℕ) : 0 ≤ drift bland d := by
  refine mul_nonneg ?_ tieWidth_pos.le
  split
  · exact zero_le_one
  · exact Nat.cast_nonneg d

/-- One more column adds a tie, except under Bland's rule. -/
theorem drift_succ (bland : Bool) (d : ℕ) :
    drift bland (d + 1) = drift bland d + if bland then 0 else tieWidth := by
  unfold drift
  split
  · rw [add_zero]
  · rw [Nat.cast_succ, add_mul, one_mul]

theorem tieWidth_le_drift_succ (bland : Bool) (d : ℕ) : tieWidth ≤ drift bland (d + 1) := by
  unfold drift
  split
  · rw [one_mul]
  · exact le_mul_of_one_le_left tieWidth_pos.le (Nat.one_le_cast.mpr (Nat.succ_pos d))

/-- The drift grows with the number of replacements. -/
theorem drift_le_succ (bland : Bool) (d : ℕ) : drift bland d ≤ drift bland (d + 1) := by
  rw [drift_succ]
  refine le_add_of_nonneg_right ?_
  split
  · exact le_refl 0
  · exact tieWidth_pos.le

/-- A column that takes the place of the best one has a smaller ratio or, except under Bland's rule,
one that is larger by a tie at most. -/
theorem dualStep_le_of_improves (ht : t.RationalRow l)
    (h : t.Improves l bland (t.candidate l k) j) :
    t.dualStep l j ≤ t.dualStep l k + if bland then 0 else tieWidth := by
  have htie := tieWidth_pos
  rcases (improves_iff ht).mp h with hlt | ⟨rfl, htied, -⟩
  · split <;> linarith
  · rw [if_neg Bool.false_ne_true]
    linarith [(abs_le.mp htied).2]

/-- The best column stays only before columns whose ratios are not smaller by more than a tie. -/
theorem dualStep_le_of_not_improves (ht : t.RationalRow l)
    (h : ¬ t.Improves l bland (t.candidate l k) j) :
    t.dualStep l k ≤ t.dualStep l j + tieWidth := by
  rw [improves_iff ht, not_or] at h
  linarith [h.1]

/-- Each replacement gives away at most the width of a tie, so the drift bounds what all of them do.
-/
theorem respected_drift (ht : t.RationalRow l) :
    Respected f t l tol bland fun d c k => t.dualStep l c ≤ t.dualStep l k + drift bland d where
  self d j := le_add_of_nonneg_right (drift_nonneg bland d)
  keep d c k h := h.trans (add_le_add_right (drift_le_succ bland d) _)
  take d c j k _ _ himp h := by
    have hrise := dualStep_le_of_improves ht himp
    rw [drift_succ]
    linarith
  pass d c j _ _ _ hnot := by
    have hnear := dualStep_le_of_not_improves ht hnot
    linarith [tieWidth_le_drift_succ bland d]

/-! ## Ratios that are apart -/

/-- The order of columns: by ratio, then, except under Bland's rule, by descending size of the
entry, then by index. -/
def rank (t : Tableau ExtRat m n) (l : Leaving m) (bland : Bool) (j : Fin (n + m)) :
    ℚ ×ₗ ℚ ×ₗ Fin (n + m) :=
  toLex (t.dualStep l j, toLex (if bland then 0 else -|t.entry l.row j|, j))

/-- The order of ranks, spelled out: by step, then by size of the entry unless the least index
decides, then by index. -/
theorem rank_le_iff : t.rank l bland j ≤ t.rank l bland k ↔
    t.dualStep l j < t.dualStep l k ∨ t.dualStep l j = t.dualStep l k ∧
      ((bland = false ∧ |t.entry l.row k| < |t.entry l.row j|) ∨
        ((bland = false → |t.entry l.row j| = |t.entry l.row k|) ∧ j ≤ k)) := by
  unfold rank
  simp only [Prod.Lex.toLex_le_toLex]
  cases bland with
  | true => simp
  | false => simp

theorem dualStep_le_of_rank_le (h : t.rank l bland j ≤ t.rank l bland k) :
    t.dualStep l j ≤ t.dualStep l k := by
  rcases rank_le_iff.mp h with hlt | ⟨heq, -⟩
  · exact hlt.le
  · exact heq.le

/-- An improvement comes before the column it replaces. -/
theorem rank_le_of_improves (ht : t.RationalRow l)
    (hapart : t.dualStep l j = t.dualStep l k ∨ tieWidth < |t.dualStep l j - t.dualStep l k|)
    (h : t.Improves l bland (t.candidate l k) j) : t.rank l bland j ≤ t.rank l bland k := by
  rw [rank_le_iff]
  rcases (improves_iff ht).mp h with hlt | ⟨hbland, htied, hsize⟩
  · exact .inl (by linarith [tieWidth_pos])
  · exact .inr ⟨hapart.resolve_right (not_lt.mpr htied), .inl ⟨hbland, hsize⟩⟩

/-- A column that stays the best one comes before the later one. -/
theorem rank_le_of_not_improves (ht : t.RationalRow l) (hkj : k < j)
    (hapart : t.dualStep l j = t.dualStep l k ∨ tieWidth < |t.dualStep l j - t.dualStep l k|)
    (h : ¬ t.Improves l bland (t.candidate l k) j) : t.rank l bland k ≤ t.rank l bland j := by
  have htie := tieWidth_pos
  rw [improves_iff ht, not_or, not_lt] at h
  obtain ⟨hge, hsize⟩ := h
  rw [rank_le_iff]
  rcases hapart with heq | hfar
  · rw [heq, sub_self, abs_zero] at hsize
    refine .inr ⟨heq.symm, ?_⟩
    -- equal ratios: the entry is not larger, and the index is
    cases bland with
    | true => exact .inr ⟨nofun, hkj.le⟩
    | false =>
      have hle : |t.entry l.row j| ≤ |t.entry l.row k| :=
        not_lt.mp fun hlt => hsize ⟨rfl, htie.le, hlt⟩
      rcases hle.lt_or_eq with hlt | heq
      · exact .inl ⟨rfl, hlt⟩
      · exact .inr ⟨fun _ => heq.symm, hkj.le⟩
  · left
    by_contra hnot
    rw [abs_of_nonpos (by linarith)] at hfar
    linarith

/-- Where ratios that differ are apart, no replacement gives anything away. -/
theorem respected_rank (ht : t.RationalRow l) (hapart : RatiosApart f t l tol) :
    Respected f t l tol bland fun _ c k => t.rank l bland c ≤ t.rank l bland k where
  self _ j := le_refl _
  keep _ _ _ h := h
  take _ c j k hc hj himp h := by
    rw [ratiosApart_iff ht] at hapart
    exact (rank_le_of_improves ht
      (hapart j c ((eligible_iff ht).mp hj) ((eligible_iff ht).mp hc)) himp).trans h
  pass _ c j hcj hc hj hnot := by
    rw [ratiosApart_iff ht] at hapart
    exact rank_le_of_not_improves ht hcj
      (hapart j c ((eligible_iff ht).mp hj) ((eligible_iff ht).mp hc)) hnot

/-- Where ratios are apart, the entering column has the least ratio of all eligible columns. -/
theorem dualStep_entering_le (ht : t.RationalRow l) (hapart : RatiosApart f t l tol)
    {e : Entering ExtRat m n} (he : t.entering? f l tol bland = some e)
    (hj : t.eligible f l tol j = true) : t.dualStep l e.column ≤ t.dualStep l j :=
  dualStep_le_of_rank_le (compares_of_entering? (respected_rank ht hapart) he hj)

/-! ## The entering column -/

/-- A column enters unless none may, and it is one that may. Its ratio exceeds that of no other by
more than a tie for each column, or than a single tie under Bland's rule. Where the ratios of the
columns that may enter are equal or farther apart than a tie, it is the first of them in the order
of ranks: its ratio is the least, and among the columns with that ratio it has the lowest index
under Bland's rule, and otherwise the largest entry and then the lowest index. -/
theorem ratio_test_near_minimal (ht : t.RationalRow l) :
    (t.entering? f l tol bland = none ↔ ∀ j, ¬ t.MayEnter f l tol j) ∧
    ∀ e, t.entering? f l tol bland = some e →
      t.MayEnter f l tol e.column ∧ e.ratio = .fin (t.dualStep l e.column) ∧
      (∀ j, t.MayEnter f l tol j →
        t.dualStep l e.column ≤ t.dualStep l j + drift bland (n + m)) ∧
      ((∀ j k, t.MayEnter f l tol j → t.MayEnter f l tol k →
          t.dualStep l j = t.dualStep l k ∨ tieWidth < |t.dualStep l j - t.dualStep l k|) →
        ∀ j, t.MayEnter f l tol j → t.rank l bland e.column ≤ t.rank l bland j) := by
  constructor
  · simp only [entering?_eq_none_iff, ← eligible_iff ht, Bool.not_eq_true]
  · intro e he
    obtain ⟨helig, hcand⟩ := entering?_eq_some he
    refine ⟨(eligible_iff ht).mp helig, ?_, fun j hj => ?_, fun hapart j hj => ?_⟩
    · rw [hcand]
      exact ratio_eq_fin ht _
    · exact compares_of_entering? (respected_drift ht) he ((eligible_iff ht).mpr hj)
    · exact compares_of_entering? (respected_rank ht ((ratiosApart_iff ht).mpr hapart)) he
        ((eligible_iff ht).mpr hj)

/-- Three columns at their lower bounds whose ratios are the given ones and whose entries grow, and
the slack of the only row. -/
def threeRatios (a b c : ℚ) : Tableau ExtRat 1 3 where
  rows := #v[#v[.fin (-1), .fin (-2), .fin (-4), 1]]
  beta := #v[.fin (-1)]
  reduced := #v[.fin a, .fin (2 * b), .fin (4 * c), 0]
  basis := #v[3]
  place := #v[.atLower, .atLower, .atLower, .basic]

/-- Room for all columns. -/
def unitBounds : StandardForm ExtRat 1 3 where
  rows := (threeRatios 0 0 0).rows
  rhs := (threeRatios 0 0 0).beta
  cost := (threeRatios 0 0 0).reduced
  lower := #v[0, 0, 0, 0]
  upper := #v[1, 1, 1, .posInf]

/-- Ratios that rise by almost a tie from column to column. -/
def driftingRatios : Tableau ExtRat 1 3 := threeRatios 1 (1 + 9 / 10 ^ 13) (1 + 18 / 10 ^ 13)

/-- A least ratio that two columns have. -/
def sharedRatio : Tableau ExtRat 1 3 := threeRatios 2 1 1

/-- Two ties in a row lead to a column whose ratio exceeds the least one by more than a tie. Of two
columns with the least ratio, the one with the larger entry enters. -/
theorem ratio_test_near_minimal_drifting :
    (∃ e, driftingRatios.entering? unitBounds ⟨0, true⟩ (Scalar.tenth 9) false = some e ∧
      e.column = 2 ∧
      driftingRatios.dualStep ⟨0, true⟩ 0 + tieWidth < driftingRatios.dualStep ⟨0, true⟩ e.column ∧
      ∀ j, driftingRatios.MayEnter unitBounds ⟨0, true⟩ (Scalar.tenth 9) j →
        driftingRatios.dualStep ⟨0, true⟩ e.column
          ≤ driftingRatios.dualStep ⟨0, true⟩ j + drift false 4) ∧
    (∃ e, sharedRatio.entering? unitBounds ⟨0, true⟩ (Scalar.tenth 9) false = some e ∧
      e.column = 2 ∧ ∀ j, sharedRatio.MayEnter unitBounds ⟨0, true⟩ (Scalar.tenth 9) j →
        sharedRatio.rank ⟨0, true⟩ false e.column ≤ sharedRatio.rank ⟨0, true⟩ false j) := by
  constructor
  · have hrow : driftingRatios.RationalRow ⟨0, true⟩ := ⟨by decide +kernel, by decide +kernel⟩
    have hcolumn : (driftingRatios.entering? unitBounds ⟨0, true⟩ (Scalar.tenth 9)
        false).map (·.column) = some 2 := by decide +kernel
    obtain ⟨e, he, hcolumn⟩ := Option.map_eq_some_iff.mp hcolumn
    refine ⟨e, he, hcolumn, ?_, ((ratio_test_near_minimal hrow).2 e he).2.2.1⟩
    rw [hcolumn]
    decide +kernel
  · have hrow : sharedRatio.RationalRow ⟨0, true⟩ := ⟨by decide +kernel, by decide +kernel⟩
    have hcolumn : (sharedRatio.entering? unitBounds ⟨0, true⟩ (Scalar.tenth 9)
        false).map (·.column) = some 2 := by decide +kernel
    have hapart : RatiosApart unitBounds sharedRatio ⟨0, true⟩ (Scalar.tenth 9) := by
      decide +kernel
    obtain ⟨e, he, hcolumn⟩ := Option.map_eq_some_iff.mp hcolumn
    exact ⟨e, he, hcolumn,
      ((ratio_test_near_minimal hrow).2 e he).2.2.2 ((ratiosApart_iff hrow).mp hapart)⟩

end BranchBound.LinearProgram.Tableau
