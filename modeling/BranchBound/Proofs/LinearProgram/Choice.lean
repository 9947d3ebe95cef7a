import BranchBound.Proofs.LinearProgram.Tableau

/-!
# Choice of a pivot

What the two scans of a simplex step find. The leaving row is one whose basic column lies outside
its bounds, and there is none only if all basic columns lie within them. The entering column is
eligible, and there is none only if no column is.

* `leaving?_eq_some`, `leaving?_eq_none`: the leaving row.
* `entering?_eq_some`, `entering?_eq_none`: the entering column.
* `compares_of_entering?`: how the entering column compares with all eligible ones, from what every
  step of the scan respects.
* `Leaving.sign`: the direction in which the leaving column has to move. With it the four cases of
  `signEligible` are two (`signEligible_iff`).
* `MayEnter`: what the exact reading of a column needs for entering (`eligible_iff`).
-/

namespace BranchBound.LinearProgram.Tableau

variable {m n : ℕ}

/-- What every step of a scan keeps, for the elements scanned so far, holds of the whole scan. -/
theorem foldl_scan {β γ : Type} {g : γ → β → γ} {P : List β → γ → Prop}
    (hstep : ∀ done best k, P done best → P (done ++ [k]) (g best k)) (l : List β) {best : γ}
    (h : P [] best) : P l (l.foldl g best) := by
  induction l using List.reverseRecOn with
  | nil => exact h
  | append_singleton l k ih =>
    rw [List.foldl_concat]
    exact hstep l _ k ih

/-! ## Leaving row -/

section Leaving

variable {α : Type} [Scalar α] {f : StandardForm α m n} {t : Tableau α m n}
  {x : Vector α (n + m)} {tol : α} {bland : Bool}

/-- A row either becomes the best one, with its own violation, or changes nothing; in the latter
case it has none, or there was a best row already. -/
theorem betterLeaving_cases (bland : Bool) (best : Option (Leaving m × α)) (r : Fin m) :
    (∃ size below, violation? f x tol (t.basicColumn r) = some (size, below) ∧
      t.betterLeaving f x tol bland best r = some (⟨r, below⟩, size)) ∨
    (t.betterLeaving f x tol bland best r = best ∧
      (violation? f x tol (t.basicColumn r) = none ∨ best ≠ none)) := by
  unfold betterLeaving
  split
  · rename_i hnone
    exact .inr ⟨rfl, .inl hnone⟩
  · rename_i size below hviol
    exact .inl ⟨size, below, hviol, rfl⟩
  · rename_i size below current currentSize hviol
    dsimp only
    -- which of the two rows is better does not matter here
    generalize (if bland = true then decide (t.basicColumn r < t.basicColumn current.row)
      else decide (currentSize < size)) = better
    cases better with
    | true => exact .inl ⟨size, below, hviol, rfl⟩
    | false => exact .inr ⟨rfl, .inr (Option.some_ne_none _)⟩

/-- Where a scan over some rows stands. -/
structure LeavingScan (f : StandardForm α m n) (t : Tableau α m n) (x : Vector α (n + m)) (tol : α)
    (done : List (Fin m)) (best : Option (Leaving m × α)) : Prop where
  violated : ∀ b ∈ best, violation? f x tol (t.basicColumn b.1.row) = some (b.2, b.1.below)
  within : best = none → ∀ r ∈ done, violation? f x tol (t.basicColumn r) = none

/-- A further row keeps what is known of the scan: it is passed over, or it is the worst so far. -/
theorem LeavingScan.step {done : List (Fin m)} {best : Option (Leaving m × α)}
    (h : LeavingScan f t x tol done best) (r : Fin m) :
    LeavingScan f t x tol (done ++ [r]) (t.betterLeaving f x tol bland best r) := by
  rcases betterLeaving_cases bland best r with ⟨size, below, hviol, heq⟩ | ⟨heq, hviol⟩
  · rw [heq]
    refine ⟨fun b hb => ?_, fun hnone => by cases hnone⟩
    cases hb
    exact hviol
  · rw [heq]
    refine ⟨h.violated, fun hnone s hs => ?_⟩
    rcases List.mem_append.mp hs with hs | hs
    · exact h.within hnone s hs
    · rw [List.mem_singleton.mp hs]
      exact hviol.resolve_right (not_not.mpr hnone)

theorem leavingScan_finRange :
    LeavingScan f t x tol (List.finRange m)
      ((List.finRange m).foldl (t.betterLeaving f x tol bland) none) :=
  foldl_scan (P := LeavingScan f t x tol) (fun _ _ r h => h.step r) _
    ⟨fun _ hb => (Option.not_mem_none _ hb).elim, fun _ _ hr => (List.not_mem_nil hr).elim⟩

/-- Without a leaving row no basic column is outside its bounds. -/
theorem leaving?_eq_none (h : t.leaving? f x tol bland = none) (r : Fin m) :
    violation? f x tol (t.basicColumn r) = none :=
  leavingScan_finRange.within (Option.map_eq_none_iff.mp h) r (List.mem_finRange r)

/-- A leaving row has a basic column outside its bounds, on the side it says. -/
theorem leaving?_eq_some {l : Leaving m} (h : t.leaving? f x tol bland = some l) :
    ∃ size, violation? f x tol (t.basicColumn l.row) = some (size, l.below) := by
  obtain ⟨b, hb, rfl⟩ := Option.map_eq_some_iff.mp h
  exact ⟨b.2, leavingScan_finRange.violated b hb⟩

/-- A place without a violation has its value within both bounds, up to the tolerance. -/
theorem violation?_eq_none {p : Fin (n + m)} (h : violation? f x tol p = none) :
    ¬ x.get p < f.lower.get p - tol * (1 + Scalar.abs (f.lower.get p)) ∧
      ¬ f.upper.get p + tol * (1 + Scalar.abs (f.upper.get p)) < x.get p := by
  unfold violation? at h
  dsimp only at h
  split at h
  · cases h
  split at h
  · cases h
  · exact ⟨‹_›, ‹_›⟩

/-- A violation says which bound is missed. -/
theorem violation?_eq_some {p : Fin (n + m)} {size : α} {below : Bool}
    (h : violation? f x tol p = some (size, below)) :
    if below then x.get p < f.lower.get p - tol * (1 + Scalar.abs (f.lower.get p))
    else f.upper.get p + tol * (1 + Scalar.abs (f.upper.get p)) < x.get p := by
  unfold violation? at h
  dsimp only at h
  split at h
  · cases h
    exact ‹_›
  split at h
  · cases h
    exact ‹_›
  · cases h

end Leaving

/-! ## Entering column -/

section Entering

variable {α : Type} [Scalar α] {f : StandardForm α m n} {t : Tableau α m n} {l : Leaving m}
  {tol : α} {bland : Bool}

/-- A column as a candidate for entering. -/
def candidate (t : Tableau α m n) (l : Leaving m) (j : Fin (n + m)) : Entering α m n :=
  ⟨j, t.ratio l j, Scalar.abs ((t.rows.get l.row).get j)⟩

/-- Whether column `j` takes the place of the best candidate so far. -/
def Improves (t : Tableau α m n) (l : Leaving m) (bland : Bool) (best : Entering α m n)
    (j : Fin (n + m)) : Prop :=
  t.ratio l j < best.ratio - ratioTie ∨
    (bland = false ∧ Scalar.abs (t.ratio l j - best.ratio) ≤ ratioTie ∧
      best.size < Scalar.abs ((t.rows.get l.row).get j))

/-- A column either becomes the best candidate, being eligible and the first or an improvement, or
changes nothing, being not eligible or no improvement. -/
theorem betterEntering_cases (bland : Bool) (best : Option (Entering α m n)) (j : Fin (n + m)) :
    (t.eligible f l tol j = true ∧ (∀ c ∈ best, t.Improves l bland c j) ∧
      t.betterEntering f l tol bland best j = some (t.candidate l j)) ∨
    (t.betterEntering f l tol bland best j = best ∧
      (t.eligible f l tol j = false ∨ ∃ c ∈ best, ¬ t.Improves l bland c j)) := by
  unfold betterEntering
  by_cases hj : t.eligible f l tol j = true
  · rw [if_pos hj]
    cases best with
    | none => exact .inl ⟨hj, fun c hc => (Option.not_mem_none c hc).elim, rfl⟩
    | some c =>
      by_cases himp : t.Improves l bland c j
      · refine .inl ⟨hj, fun d hd => ?_, if_pos himp⟩
        cases hd
        exact himp
      · exact .inr ⟨if_neg himp, .inr ⟨c, rfl, himp⟩⟩
  · rw [if_neg hj]
    exact .inr ⟨rfl, .inl (Bool.eq_false_iff.mpr hj)⟩

/-- Where a scan over some columns stands. -/
structure EnteringScan (f : StandardForm α m n) (t : Tableau α m n) (l : Leaving m) (tol : α)
    (done : List (Fin (n + m))) (best : Option (Entering α m n)) : Prop where
  eligible : ∀ c ∈ best, t.eligible f l tol c.column = true
  candidate : ∀ c ∈ best, c = t.candidate l c.column
  not_eligible : best = none → ∀ k ∈ done, t.eligible f l tol k = false

/-- A further column keeps what is known of the scan. -/
theorem EnteringScan.step {done : List (Fin (n + m))} {best : Option (Entering α m n)}
    (h : EnteringScan f t l tol done best) (j : Fin (n + m)) :
    EnteringScan f t l tol (done ++ [j]) (t.betterEntering f l tol bland best j) := by
  rcases betterEntering_cases bland best j with ⟨hj, -, heq⟩ | ⟨heq, hnot⟩
  · rw [heq]
    refine ⟨fun c hc => ?_, fun c hc => ?_, fun hnone => by cases hnone⟩
    · cases hc
      exact hj
    · cases hc
      rfl
  · rw [heq]
    refine ⟨h.eligible, h.candidate, fun hnone k hk => ?_⟩
    rcases List.mem_append.mp hk with hk | hk
    · exact h.not_eligible hnone k hk
    · rw [List.mem_singleton.mp hk]
      rcases hnot with hnot | ⟨c, hc, -⟩
      · exact hnot
      · rw [hnone] at hc
        cases hc

theorem EnteringScan.nil : EnteringScan f t l tol [] none :=
  ⟨fun _ hc => (Option.not_mem_none _ hc).elim, fun _ hc => (Option.not_mem_none _ hc).elim,
    fun _ _ hk => (List.not_mem_nil hk).elim⟩

theorem enteringScan_finRange :
    EnteringScan f t l tol (List.finRange (n + m)) (t.entering? f l tol bland) :=
  foldl_scan (P := EnteringScan f t l tol) (fun _ _ j h => h.step j) _ .nil

/-- Without an entering column no column is eligible. -/
theorem entering?_eq_none (h : t.entering? f l tol bland = none) (j : Fin (n + m)) :
    t.eligible f l tol j = false :=
  enteringScan_finRange.not_eligible h j (List.mem_finRange j)

/-- The entering column is an eligible candidate. -/
theorem entering?_eq_some {e : Entering α m n} (h : t.entering? f l tol bland = some e) :
    t.eligible f l tol e.column = true ∧ e = t.candidate l e.column :=
  ⟨enteringScan_finRange.eligible e h, enteringScan_finRange.candidate e h⟩

/-- No column enters exactly if none is eligible. -/
theorem entering?_eq_none_iff :
    t.entering? f l tol bland = none ↔ ∀ j, t.eligible f l tol j = false := by
  refine ⟨entering?_eq_none, fun h => ?_⟩
  cases he : t.entering? f l tol bland with
  | none => rfl
  | some e => exact absurd (entering?_eq_some he).1 (Bool.eq_false_iff.mp (h e.column))

/-- A comparison of the best column after `d` columns with those before it which every step of the
scan respects: a column compares with itself, a comparison outlives further columns, a column that
takes the place of the best one takes over its comparisons, and one that does not compares with
it. -/
structure Respected (f : StandardForm α m n) (t : Tableau α m n) (l : Leaving m) (tol : α)
    (bland : Bool) (Q : ℕ → Fin (n + m) → Fin (n + m) → Prop) : Prop where
  self : ∀ d j, Q d j j
  keep : ∀ d c k, Q d c k → Q (d + 1) c k
  take : ∀ d c j k, t.eligible f l tol c = true → t.eligible f l tol j = true →
    t.Improves l bland (t.candidate l c) j → Q d c k → Q (d + 1) j k
  pass : ∀ d c j, c < j → t.eligible f l tol c = true → t.eligible f l tol j = true →
    ¬ t.Improves l bland (t.candidate l c) j → Q (d + 1) c j

variable {Q : ℕ → Fin (n + m) → Fin (n + m) → Prop}

/-- Where a scan stands that has compared its best column with all others. -/
structure ComparedScan (f : StandardForm α m n) (t : Tableau α m n) (l : Leaving m) (tol : α)
    (Q : ℕ → Fin (n + m) → Fin (n + m) → Prop) (done : List (Fin (n + m)))
    (best : Option (Entering α m n)) : Prop extends EnteringScan f t l tol done best where
  mem : ∀ c ∈ best, c.column ∈ done
  compares : ∀ c ∈ best, ∀ k ∈ done, t.eligible f l tol k = true → Q done.length c.column k

/-- A further column keeps the comparison, if each replacement respects it. -/
theorem ComparedScan.step (hQ : Respected f t l tol bland Q) {done : List (Fin (n + m))}
    {best : Option (Entering α m n)} (h : ComparedScan f t l tol Q done best) {j : Fin (n + m)}
    (hlt : ∀ k ∈ done, k < j) :
    ComparedScan f t l tol Q (done ++ [j]) (t.betterEntering f l tol bland best j) := by
  refine ⟨h.toEnteringScan.step j, ?_, ?_⟩
  · intro c hc
    rcases betterEntering_cases bland best j with ⟨-, -, heq⟩ | ⟨heq, -⟩
    · rw [heq] at hc
      cases hc
      exact List.mem_append_right _ (List.mem_singleton.mpr rfl)
    · rw [heq] at hc
      exact List.mem_append_left _ (h.mem c hc)
  · intro c hc k hk helig
    rw [List.length_append, List.length_singleton]
    rcases betterEntering_cases bland best j with ⟨hj, himp, heq⟩ | ⟨heq, hnot⟩
    · rw [heq] at hc
      cases hc
      rcases List.mem_append.mp hk with hk | hk
      · -- an earlier column: compared with the candidate that `j` replaces
        cases hd : best with
        | none =>
          rw [h.not_eligible hd k hk] at helig
          cases helig
        | some d =>
          have himp := himp d hd
          rw [h.candidate d hd] at himp
          exact hQ.take _ _ _ _ (h.eligible d hd) hj himp (h.compares d hd k hk helig)
      · rw [List.mem_singleton.mp hk]
        exact hQ.self _ _
    · rw [heq] at hc
      rcases List.mem_append.mp hk with hk | hk
      · exact hQ.keep _ _ _ (h.compares c hc k hk helig)
      · -- column `j` itself, which was not taken
        rw [List.mem_singleton.mp hk] at helig ⊢
        rcases hnot with hnot | ⟨d, hd, hnot⟩
        · rw [hnot] at helig
          cases helig
        · rw [Option.mem_unique hd hc, h.candidate c hc] at hnot
          exact hQ.pass _ _ _ (hlt _ (h.mem c hc)) (h.eligible c hc) helig hnot

theorem ComparedScan.nil : ComparedScan f t l tol Q [] none :=
  ⟨.nil, fun _ hc => (Option.not_mem_none _ hc).elim, fun _ hc => (Option.not_mem_none _ hc).elim⟩

/-- The entering column compares with all eligible columns. -/
theorem compares_of_entering? (hQ : Respected f t l tol bland Q) {e : Entering α m n}
    (he : t.entering? f l tol bland = some e) {k : Fin (n + m)}
    (hk : t.eligible f l tol k = true) : Q (n + m) e.column k := by
  -- columns are scanned in ascending order
  have hstep : ∀ done best j, (done.Pairwise (· < ·) → ComparedScan f t l tol Q done best) →
      (done ++ [j]).Pairwise (· < ·) →
        ComparedScan f t l tol Q (done ++ [j]) (t.betterEntering f l tol bland best j) := by
    intro done best j h hsorted
    obtain ⟨hdone, -, hlt⟩ := List.pairwise_append.mp hsorted
    exact (h hdone).step hQ fun k hk => hlt k hk j (List.mem_singleton.mpr rfl)
  have hscan := foldl_scan
    (P := fun done best => done.Pairwise (· < ·) → ComparedScan f t l tol Q done best) hstep
    (List.finRange (n + m)) (fun _ => .nil) (List.pairwise_lt_finRange (n + m))
  have hcompares := hscan.compares e he k (List.mem_finRange k) hk
  rw [List.length_finRange] at hcompares
  exact hcompares

/-- Only a column that rests at a bound is eligible. -/
theorem place_ne_basic_of_eligible {j : Fin (n + m)} (h : t.eligible f l tol j = true) :
    t.place.get j ≠ .basic := by
  intro hbasic
  have hsign : signEligible (t.place.get j) l.below ((t.rows.get l.row).get j) = true :=
    (Bool.and_eq_true_iff.mp h).2
  rw [hbasic] at hsign
  exact Bool.false_ne_true hsign

end Entering

/-! ## Conditions on the leaving row -/

section Conditions

variable {α : Type} [Scalar α]

/-- No entry of the leaving row is too small for a pivot: a nonzero entry of a resting column that
is not fixed exceeds the tolerance. -/
def NoSmallEntries (f : StandardForm α m n) (t : Tableau α m n) (l : Leaving m) (tol : α) : Prop :=
  ∀ j : Fin (n + m), t.place.get j ≠ .basic → f.lower.get j < f.upper.get j →
    (t.rows.get l.row).get j ≠ 0 → tol < Scalar.abs ((t.rows.get l.row).get j)

/-- Ratios of eligible columns are equal or differ by more than what counts as a tie. -/
def RatiosApart (f : StandardForm α m n) (t : Tableau α m n) (l : Leaving m) (tol : α) : Prop :=
  ∀ j k : Fin (n + m), t.eligible f l tol j = true → t.eligible f l tol k = true →
    t.ratio l j = t.ratio l k ∨ ratioTie < Scalar.abs (t.ratio l j - t.ratio l k)

instance [DecidableEq α] (f : StandardForm α m n) (t : Tableau α m n) (l : Leaving m) (tol : α) :
    Decidable (NoSmallEntries f t l tol) :=
  inferInstanceAs (Decidable (∀ _, _))

instance [DecidableEq α] (f : StandardForm α m n) (t : Tableau α m n) (l : Leaving m) (tol : α) :
    Decidable (RatiosApart f t l tol) :=
  inferInstanceAs (Decidable (∀ _ _, _))

end Conditions

/-! ## Exact readings -/

/-- One where the leaving column has to rise, minus one where it has to fall. -/
def Leaving.sign (l : Leaving m) : ℚ := if l.below then 1 else -1

theorem Leaving.sign_mul_self (l : Leaving m) : l.sign * l.sign = 1 := by
  unfold Leaving.sign
  split <;> norm_num

section Exact

variable {f : StandardForm ExtRat m n} {t : Tableau ExtRat m n} {l : Leaving m} {tol : ExtRat}
  {bland : Bool} {j : Fin (n + m)}

/-- The bound at which the leaving column comes to rest. -/
def Leaving.bound (f : StandardForm ExtRat m n) (t : Tableau ExtRat m n) (l : Leaving m) : ExtRat :=
  if l.below then f.lower.get (t.basicColumn l.row) else f.upper.get (t.basicColumn l.row)

/-- The leaving column lies on the wrong side of a finite bound. -/
theorem sign_mul_point_lt (hf : f.Regular) (ht : Valid f t) (htol : 0 < tol)
    (hl : t.leaving? f (t.values f) tol bland = some l) :
    Scalar.isFinite (l.bound f t) = true ∧
      l.sign * t.point f (t.basicColumn l.row) < l.sign * (l.bound f t).toRat := by
  obtain ⟨size, hviol⟩ := leaving?_eq_some hl
  have hside := violation?_eq_some hviol
  rw [values_eq_fin hf ht] at hside
  unfold Leaving.bound Leaving.sign
  cases hbelow : l.below with
  | true =>
    rw [hbelow, if_pos rfl] at hside
    have hlt := hside.trans_le (ExtRat.sub_le_of_nonneg _ (ExtRat.margin_nonneg htol _))
    rw [if_pos rfl, if_pos rfl, one_mul, one_mul]
    rw [hf.lower] at hlt ⊢
    exact ⟨rfl, hlt⟩
  | false =>
    rw [hbelow, if_neg Bool.false_ne_true] at hside
    have hlt := (ExtRat.le_add_of_nonneg _ (ExtRat.margin_nonneg htol _)).trans_lt hside
    have hle := hf.lower_le_upper (t.basicColumn l.row)
    rw [hf.lower] at hle
    rw [if_neg Bool.false_ne_true, if_neg Bool.false_ne_true]
    -- a violated upper bound lies between two rational numbers
    have hfin := ExtRat.fin_toRat_of_le_of_le hle hlt.le
    rw [← hfin] at hlt ⊢
    refine ⟨rfl, ?_⟩
    rw [ExtRat.toRat_fin]
    linarith [ExtRat.fin_lt_fin.mp hlt]

/-- A column at its lower bound can help if its entry points against the direction, one at its upper
bound if it points along. -/
theorem signEligible_iff {place : Place} {a : ℚ} :
    signEligible place l.below (ExtRat.fin a) = true ↔
      (place = .atLower ∧ l.sign * a < 0) ∨ (place = .atUpper ∧ 0 < l.sign * a) := by
  unfold Leaving.sign
  cases l.below <;> cases place <;>
    simp [signEligible, ExtRat.zero_eq_fin, ExtRat.fin_lt_fin]

/-- The numbers of the leaving row and the reduced costs are finite. -/
structure RationalRow (t : Tableau ExtRat m n) (l : Leaving m) : Prop where
  entry : ∀ j : Fin (n + m), Scalar.isFinite ((t.rows.get l.row).get j) = true
  price : ∀ j : Fin (n + m), Scalar.isFinite (t.reduced.get j) = true

/-- The entries of the row are rational numbers. -/
theorem RationalRow.rows (ht : t.RationalRow l) (j : Fin (n + m)) :
    (t.rows.get l.row).get j = .fin (t.entry l.row j) := (ExtRat.fin_toRat (ht.entry j)).symm

theorem RationalRow.reduced (ht : t.RationalRow l) (j : Fin (n + m)) :
    t.reduced.get j = .fin (t.price j) := (ExtRat.fin_toRat (ht.price j)).symm

/-- Every row of a valid tableau is one of rational numbers. -/
theorem Valid.rationalRow (ht : Valid f t) (l : Leaving m) : t.RationalRow l where
  entry j := by rw [ht.rows]; rfl
  price j := by rw [ht.reduced]; rfl

/-- What a column needs for entering: an entry that is not too small, room between its bounds, and a
bound at which it rests and off which it moves the leaving column back. -/
structure MayEnter (f : StandardForm ExtRat m n) (t : Tableau ExtRat m n) (l : Leaving m)
    (tol : ExtRat) (j : Fin (n + m)) : Prop where
  size : tol < .fin |t.entry l.row j|
  room : f.lower.get j < f.upper.get j
  helps : (t.place.get j = .atLower ∧ l.sign * t.entry l.row j < 0) ∨
    (t.place.get j = .atUpper ∧ 0 < l.sign * t.entry l.row j)

/-- Eligibility in rational numbers. -/
theorem eligible_iff (ht : t.RationalRow l) :
    t.eligible f l tol j = true ↔ MayEnter f t l tol j := by
  have hcheck : t.eligible f l tol j = true ↔ tol < .fin |t.entry l.row j| ∧
      f.lower.get j < f.upper.get j ∧
        signEligible (t.place.get j) l.below (ExtRat.fin (t.entry l.row j)) = true := by
    simp only [eligible, getElem_eq_get, ht.rows, ExtRat.abs_fin, Bool.and_eq_true,
      Bool.not_eq_true', Bool.or_eq_false_iff, decide_eq_false_iff_not, not_le, and_assoc]
  rw [hcheck, signEligible_iff]
  exact ⟨fun ⟨hsize, hroom, hhelps⟩ => ⟨hsize, hroom, hhelps⟩,
    fun h => ⟨h.size, h.room, h.helps⟩⟩

theorem entry_ne_zero_of_eligible (ht : Valid f t) (h : t.eligible f l tol j = true) :
    t.entry l.row j ≠ 0 := by
  intro hzero
  obtain ⟨-, -, ⟨-, hsign⟩ | ⟨-, hsign⟩⟩ := (eligible_iff (ht.rationalRow l)).mp h <;>
    simp [hzero] at hsign

/-- Where no entry is too small, a column with room whose sign fits is eligible. -/
theorem eligible_of_sign (ht : Valid f t) (hrow : NoSmallEntries f t l tol)
    (hroom : f.lower.get j < f.upper.get j)
    (hsign : (t.place.get j = .atLower ∧ l.sign * t.entry l.row j < 0) ∨
      (t.place.get j = .atUpper ∧ 0 < l.sign * t.entry l.row j)) :
    t.eligible f l tol j = true := by
  have hplace : t.place.get j ≠ .basic := by
    rcases hsign with ⟨h, -⟩ | ⟨h, -⟩ <;> rw [h] <;> exact Place.noConfusion
  have hne : (t.rows.get l.row).get j ≠ 0 := by
    rw [ht.rows]
    intro hzero
    rw [ExtRat.fin_eq_zero] at hzero
    rcases hsign with ⟨-, h⟩ | ⟨-, h⟩ <;> simp [hzero] at h
  have hbig := hrow j hplace hroom hne
  rw [ht.rows, ExtRat.abs_fin] at hbig
  exact (eligible_iff (ht.rationalRow l)).mpr ⟨hbig, hroom, hsign⟩

end Exact

end BranchBound.LinearProgram.Tableau
