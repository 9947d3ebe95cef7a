import BranchBound.Proofs.Problem.Constructed
import BranchBound.Proofs.Relaxation.Simplex
import BranchBound.Relaxation.Oracle

/-!
# Requests that are always answered

A request is rejected if the data of its relaxation or the settings of the solver are not in order.
Problems made by the constructors have data that is, in every box that branching can lead to; so the
simplex backend answers every request there, within any limit on iterations. Its optima are rounded
to seven places, which leaves no value that is fractional to one check and whole to the other.

* `Box.Usable`, `Branch.Usable`: boxes that relaxations can be solved in, and branches that lead
  from one to another.
* `Backend.Replies`, `Backend.Dependable`: every request in such a box is answered.
* `fractional_of_not_whole`: a value of seven places that is not whole counts as fractional.
* `Backend.Regular`, `Backend.Regular.dependable`: a backend that always answers with finite values
  is dependable, unless the tolerance is smaller than that of fractional values.
* `dependable_simplex`: the simplex backend is dependable.
-/

namespace BranchBound

open Relaxation

/-! ## Usable boxes -/

/-- There are bounds for so many variables, and each has values on its side. -/
structure Box.Usable (n : ℕ) (box : Box ExtRat) : Prop where
  lower : box.lower.length = n
  upper : box.upper.length = n
  lower_ne : ∀ lo ∈ box.lower, lo ≠ .posInf
  upper_ne : ∀ hi ∈ box.upper, hi ≠ .negInf

/-- A finite bound on one of so many variables. -/
structure Branch.Usable (n : ℕ) (b : Branch ExtRat) : Prop where
  var : b.var < n
  rhs : Scalar.isFinite b.rhs = true

section Usable

variable {n var : ℕ} {box : Box ExtRat} {v : ExtRat}

/-- The root box of a well-formed problem is usable. -/
theorem Box.usable_root {p : Problem ExtRat} (h : p.WellFormed) (binaryVars : Bool) :
    (Box.root p binaryVars).Usable p.numVars where
  lower := List.length_replicate
  upper := (List.length_map _).trans h.types
  lower_ne lo hlo := by
    rw [List.eq_of_mem_replicate hlo]
    exact ExtRat.noConfusion
  upper_ne hi hhi := by
    obtain ⟨t, -, rfl⟩ := List.mem_map.mp hhi
    split <;> exact ExtRat.noConfusion

theorem Box.Usable.exists_tightenLower? (h : box.Usable n) (hvar : var < n) (hv : v ≠ .posInf) :
    ∃ tight, box.tightenLower? var v = some tight ∧ tight.Usable n := by
  have hmax : ∀ lo : ExtRat, lo ≠ .posInf → Scalar.maxNum lo v ≠ .posInf := by
    intro lo hlo
    rw [ExtRat.maxNum_eq_max]
    rcases max_choice lo v with hmax | hmax <;> rw [hmax] <;> assumption
  refine ⟨_, if_pos (lt_of_lt_of_eq hvar h.lower.symm), ?_⟩
  exact ⟨(List.length_modify _ _ _).trans h.lower, h.upper, forall_mem_modify h.lower_ne hmax _,
    h.upper_ne⟩

theorem Box.Usable.exists_tightenUpper? (h : box.Usable n) (hvar : var < n) (hv : v ≠ .negInf) :
    ∃ tight, box.tightenUpper? var v = some tight ∧ tight.Usable n := by
  have hmin : ∀ hi : ExtRat, hi ≠ .negInf → Scalar.minNum hi v ≠ .negInf := by
    intro hi hhi
    rw [ExtRat.minNum_eq_min]
    rcases min_choice hi v with hmin | hmin <;> rw [hmin] <;> assumption
  refine ⟨_, if_pos (lt_of_lt_of_eq hvar h.upper.symm), ?_⟩
  exact ⟨h.lower, (List.length_modify _ _ _).trans h.upper, h.lower_ne,
    forall_mem_modify h.upper_ne hmin _⟩

theorem ExtRat.ne_of_isFinite (h : Scalar.isFinite v = true) : v ≠ .negInf ∧ v ≠ .posInf := by
  constructor <;> rintro rfl <;> cases h

/-- A property of boxes that a finite bound on one of so many variables keeps. -/
structure Box.Tightens (n : ℕ) (Q : Box ExtRat → Prop) : Prop where
  lower : ∀ {box : Box ExtRat} {var : ℕ} {v : ExtRat}, Q box → var < n →
    Scalar.isFinite v = true → ∃ tight, box.tightenLower? var v = some tight ∧ Q tight
  upper : ∀ {box : Box ExtRat} {var : ℕ} {v : ExtRat}, Q box → var < n →
    Scalar.isFinite v = true → ∃ tight, box.tightenUpper? var v = some tight ∧ Q tight

/-- A usable branch leads from a box of the kind to another one. -/
theorem Box.Tightens.exists_restrict? {Q : Box ExtRat → Prop} (hQ : Box.Tightens n Q)
    {b : Branch ExtRat} (h : Q box) (hb : b.Usable n) :
    ∃ restricted, b.restrict? box = some restricted ∧ Q restricted := by
  unfold Branch.restrict?
  cases b.sense with
  | down => exact hQ.upper h hb.var hb.rhs
  | up => exact hQ.lower h hb.var hb.rhs

/-- Usable boxes stay usable under usable branches. -/
theorem Box.tightens_usable (n : ℕ) : Box.Tightens n (Box.Usable n) where
  lower h hvar hv := h.exists_tightenLower? hvar (ExtRat.ne_of_isFinite hv).2
  upper h hvar hv := h.exists_tightenUpper? hvar (ExtRat.ne_of_isFinite hv).1

theorem Box.Usable.exists_restrict? {b : Branch ExtRat} (h : box.Usable n) (hb : b.Usable n) :
    ∃ restricted, b.restrict? box = some restricted ∧ restricted.Usable n :=
  (Box.tightens_usable n).exists_restrict? h hb

/-- Usable branches lead from usable boxes to usable ones. -/
theorem Box.Usable.exists_replay? {bs : List (Branch ExtRat)} (h : box.Usable n)
    (hbs : ∀ b ∈ bs, b.Usable n) :
    ∃ restricted, box.replay? bs = some restricted ∧ restricted.Usable n := by
  induction bs generalizing box with
  | nil => exact ⟨box, rfl, h⟩
  | cons b bs ih =>
    obtain ⟨hb, hbs⟩ := List.forall_mem_cons.mp hbs
    obtain ⟨next, hnext, husable⟩ := h.exists_restrict? hb
    obtain ⟨restricted, hrestricted, husable'⟩ := ih husable hbs
    refine ⟨restricted, ?_, husable'⟩
    rw [← hrestricted]
    unfold Box.replay?
    rw [List.foldlM_cons, hnext]
    rfl

end Usable

/-! ## Points with a value for every variable -/

theorem Relaxation.Answer.hasBound_of_isOptimal {α : Type} {a : Answer α}
    (h : a.isOptimal = true) : a.hasBound = true := by
  unfold hasBound
  rw [of_decide_eq_true h]
  rfl

namespace Problem

/-- A point of the right length has a value for every integer variable. -/
theorem WellFormed.lt_length {p : Problem ExtRat} {x : List ExtRat} (hp : p.WellFormed)
    (hlength : x.length = p.numVars) : ∀ j ∈ p.integerVars, j < x.length := by
  intro j hj
  rw [hlength]
  exact hp.lt_numVars hj

/-- A partial map that is defined on a list meets all of its elements. -/
theorem exists_mapM {β γ : Type} {g : β → Option γ} {l : List β}
    (h : ∀ b ∈ l, ∃ c, g b = some c) :
    ∃ cs, l.mapM g = some cs ∧ ∀ b ∈ l, ∀ c, g b = some c → c ∈ cs := by
  induction l with
  | nil => exact ⟨[], rfl, fun b hb => (List.not_mem_nil hb).elim⟩
  | cons b l ih =>
    obtain ⟨⟨c, hc⟩, hl⟩ := List.forall_mem_cons.mp h
    obtain ⟨cs, hcs, hmem⟩ := ih hl
    refine ⟨c :: cs, ?_, List.forall_mem_cons.mpr ⟨?_, ?_⟩⟩
    · rw [List.mapM_cons, hc, hcs]
      rfl
    · intro d hd
      rw [hc] at hd
      cases hd
      exact List.mem_cons_self
    · intro d hd e he
      exact List.mem_cons_of_mem c (hmem d hd e he)

variable {α : Type} [Scalar α] {p : Problem α} {x : List α}

/-- Where every integer variable has a value, the fractional ones are found. -/
theorem exists_fractional? (h : ∀ j ∈ p.integerVars, j < x.length) :
    ∃ fs, p.fractional? x = some fs ∧ ∀ j ∈ p.integerVars, ∀ v, x[j]? = some v →
      fractionalTol < Scalar.fractionality v → (j, v) ∈ fs := by
  obtain ⟨vs, hvs, hmem⟩ := exists_mapM (g := fun i => x[i]?.map fun v => (i, v)) (l := p.integerVars)
    fun j hj => ⟨(j, x.get ⟨j, h j hj⟩), by rw [List.getElem?_eq_getElem (h j hj)]; rfl⟩
  refine ⟨_, by rw [fractional?, integerValues?, hvs]; rfl, ?_⟩
  intro j hj v hv hfrac
  refine List.mem_filter.mpr ⟨hmem j hj (j, v) ?_, decide_eq_true hfrac⟩
  rw [hv]
  rfl

theorem exists_wholeAt? {tol : α} {vars : List ℕ} (h : ∀ j ∈ vars, j < x.length) :
    ∃ whole, wholeAt? x tol vars = some whole := by
  induction vars with
  | nil => exact ⟨true, rfl⟩
  | cons i vars ih =>
    obtain ⟨hi, hvars⟩ := List.forall_mem_cons.mp h
    rw [wholeAt?, List.getElem?_eq_getElem hi]
    dsimp only
    split
    · exact ih hvars
    · exact ⟨false, rfl⟩

end Problem

/-! ## Dependable backends -/

/-- In boxes with a property that bounds keep, every request is answered, with a value for every
variable where there is a bound; a property of the backend's states is kept by that. -/
structure Relaxation.Backend.Replies {σ : Type} (B : Backend σ ExtRat) (p : Problem ExtRat)
    (Q : Box ExtRat → Prop) (P : σ → Prop) : Prop where
  tightens : Box.Tightens p.numVars Q
  answers : ∀ {box : Box ExtRat} {s : σ} (cap : Option ℕ), Q box → P s →
    ∃ a, (B.solve p box cap s).1.outcome = .ok a ∧ Oracle.wellFormed p a = true ∧
      P (B.solve p box cap s).2

/-- In usable boxes every request is answered, with a value for every variable where there is a
bound; a property of the backend's states is kept by that; and an optimum of a node that does not
count as integer has a fractional variable. -/
structure Relaxation.Backend.Dependable {σ : Type} (B : Backend σ ExtRat) (p : Problem ExtRat)
    (tol : ExtRat) (P : σ → Prop) : Prop where
  answers : ∀ {box : Box ExtRat} {s : σ} (cap : Option ℕ), box.Usable p.numVars → P s →
    ∃ a, (B.solve p box cap s).1.outcome = .ok a ∧ Oracle.wellFormed p a = true ∧
      P (B.solve p box cap s).2
  fractional : ∀ {box : Box ExtRat} {s : σ} {a : Answer ExtRat} {fs : List (ℕ × ExtRat)},
    box.Usable p.numVars → P s → (B.solve p box none s).1.outcome = .ok a → a.isOptimal = true →
    p.integerFeasible? a.x tol = some false → p.fractional? a.x = some fs → fs ≠ []

/-- A dependable backend answers in every usable box. -/
theorem Relaxation.Backend.Dependable.replies {σ : Type} {B : Backend σ ExtRat}
    {p : Problem ExtRat} {tol : ExtRat} {P : σ → Prop} (h : B.Dependable p tol P) :
    B.Replies p (Box.Usable p.numVars) P :=
  ⟨Box.tightens_usable _, h.answers⟩

/-! ## Seven places -/

theorem ExtRat.roundRat_intCast (k : ℤ) : roundRat (k : ℚ) = k := by
  rcases le_or_gt 0 (k : ℚ) with h | h
  · rw [roundRat_of_nonneg h, Int.cast_inj, Int.floor_eq_iff]
    constructor <;> linarith
  · rw [roundRat_of_neg h, Int.cast_inj, Int.ceil_eq_iff]
    constructor <;> linarith

namespace Relaxation

/-- Seven places after the point are a whole number of ten-millionths. -/
theorem exists_int_nearest7 (a : ℚ) : ∃ m : ℤ, nearest7 a = m / 10000000 := by
  unfold nearest7
  rcases le_or_gt 0 (a * 10000000) with h | h
  · exact ⟨_, by rw [ExtRat.roundRat_of_nonneg h]⟩
  · exact ⟨_, by rw [ExtRat.roundRat_of_neg h]⟩

/-- Whole numbers of ten-millionths that differ do so by one at least. -/
theorem tenth8_lt_sub {v w : ℚ} {k m : ℤ} (hv : v = k / 10000000) (hw : w = m / 10000000)
    (h : v < w) : 1 / 10 ^ 8 < w - v := by
  rw [hv, hw, div_lt_div_iff_of_pos_right (by norm_num), Int.cast_lt] at h
  have hle : (k : ℚ) + 1 ≤ m := by exact_mod_cast h
  rw [hv, hw]
  linarith

/-- A value of seven places that does not count as whole counts as fractional, however the tolerance
of the first compares with that of the second. -/
theorem fractional_of_not_whole {a : ℚ} {tol : ExtRat} (htol : 0 < tol)
    (h : ¬ Scalar.abs (Scalar.round (ExtRat.fin (nearest7 a)) - .fin (nearest7 a)) ≤ tol) :
    Problem.fractionalTol < Scalar.fractionality (ExtRat.fin (nearest7 a)) := by
  obtain ⟨m, hm⟩ := exists_int_nearest7 a
  have hunits : ∀ k : ℤ, (k : ℚ) = (k * 10000000 : ℤ) / 10000000 := by
    intro k
    push_cast
    ring
  have hnot : ∀ k : ℤ, (k : ℚ) ≠ nearest7 a := by
    intro k hk
    apply h
    rw [← hk]
    show Scalar.abs (ExtRat.fin (ExtRat.roundRat k) - .fin k) ≤ tol
    rw [ExtRat.roundRat_intCast, ExtRat.fin_sub, sub_self, ExtRat.abs_fin, abs_zero]
    exact htol.le
  have hbelow := lt_of_le_of_ne (Int.floor_le (nearest7 a)) (hnot _)
  have habove := lt_of_le_of_ne (Int.le_ceil (nearest7 a)) (hnot _).symm
  rw [Problem.fractionalTol, ExtRat.tenth_eq_fin, Scalar.fractionality, ExtRat.minNum_eq_min,
    ExtRat.floor_fin, ExtRat.ceil_fin, ExtRat.fin_sub, ExtRat.fin_sub, lt_min_iff,
    ExtRat.fin_lt_fin, ExtRat.fin_lt_fin]
  exact ⟨tenth8_lt_sub (hunits _) hm hbelow, tenth8_lt_sub hm (hunits _) habove⟩

end Relaxation

/-! ## Regular backends -/

/-- The nearest whole number is no farther than any other. -/
theorem ExtRat.abs_roundRat_sub_le_abs_sub (a : ℚ) (k : ℤ) : |roundRat a - a| ≤ |k - a| := by
  obtain ⟨m, hm⟩ : ∃ m : ℤ, roundRat a = m := by
    rcases le_or_gt 0 a with h | h
    · exact ⟨_, roundRat_of_nonneg h⟩
    · exact ⟨_, roundRat_of_neg h⟩
  by_contra hfar
  -- two whole numbers less than one half away on either side are the same
  have hhalf := abs_roundRat_sub_le a
  have hnear : |((m - k : ℤ) : ℚ)| < 1 := by
    push_cast
    calc |(m : ℚ) - k| = |(m - a) - (k - a)| := by ring_nf
      _ ≤ |m - a| + |k - a| := abs_sub _ _
      _ < 1 / 2 + 1 / 2 := by rw [hm] at hhalf hfar; linarith
      _ = 1 := by norm_num
  have hsame : m = k := by
    have := Int.abs_lt_one_iff.mp (by exact_mod_cast hnear)
    omega
  rw [hm, hsame] at hfar
  exact hfar le_rfl

/-- A value that does not count as whole, for a tolerance not below that of fractional values,
counts as fractional. -/
theorem Problem.fractional_of_not_whole_of_le {q : ℚ} {tol : ExtRat} (htol : fractionalTol ≤ tol)
    (h : ¬ Scalar.abs (Scalar.round (ExtRat.fin q) - .fin q) ≤ tol) :
    fractionalTol < Scalar.fractionality (ExtRat.fin q) := by
  have hround : Scalar.abs (Scalar.round (ExtRat.fin q) - .fin q)
      = .fin |ExtRat.roundRat q - q| := by
    show Scalar.abs (ExtRat.fin (ExtRat.roundRat q) - .fin q) = _
    rw [ExtRat.fin_sub, ExtRat.abs_fin]
  rw [hround, not_le] at h
  have hbelow := ExtRat.abs_roundRat_sub_le_abs_sub q ⌊q⌋
  have habove := ExtRat.abs_roundRat_sub_le_abs_sub q ⌈q⌉
  rw [abs_sub_comm (⌊q⌋ : ℚ), abs_of_nonneg (sub_nonneg.mpr (Int.floor_le q))] at hbelow
  rw [abs_of_nonneg (sub_nonneg.mpr (Int.le_ceil q))] at habove
  rw [Scalar.fractionality, ExtRat.minNum_eq_min, ExtRat.floor_fin, ExtRat.ceil_fin, ExtRat.fin_sub,
    ExtRat.fin_sub, lt_min_iff]
  exact ⟨(htol.trans_lt h).trans_le (ExtRat.fin_le_fin.mpr hbelow),
    (htol.trans_lt h).trans_le (ExtRat.fin_le_fin.mpr habove)⟩

/-- Every request is answered, and where there is a bound, with a finite value for every variable; a
property of the backend's states is kept by that. -/
structure Relaxation.Backend.Regular {σ : Type} (B : Backend σ ExtRat) (p : Problem ExtRat)
    (P : σ → Prop) : Prop where
  answers : ∀ {s : σ} (box : Box ExtRat) (cap : Option ℕ), P s →
    ∃ a, (B.solve p box cap s).1.outcome = .ok a ∧ P (B.solve p box cap s).2 ∧
      (a.hasBound = true → a.x.length = p.numVars ∧ ∀ v ∈ a.x, Scalar.isFinite v = true)

/-- A regular backend is dependable for every tolerance not below that of fractional values. -/
theorem Relaxation.Backend.Regular.dependable {σ : Type} {B : Backend σ ExtRat}
    {p : Problem ExtRat} {P : σ → Prop} {tol : ExtRat} (hB : B.Regular p P) (hp : p.WellFormed)
    (htol : Problem.fractionalTol ≤ tol) : B.Dependable p tol P where
  answers {box s} cap _ hs := by
    obtain ⟨a, ha, hnext, hpoint⟩ := hB.answers box cap hs
    refine ⟨a, ha, ?_, hnext⟩
    unfold Oracle.wellFormed
    cases hbound : a.hasBound with
    | false => rfl
    | true => exact decide_eq_true (hpoint hbound).1
  fractional {box s a fs} _ hs ha hoptimal hinteger hfs := by
    obtain ⟨b, hb, -, hpoint⟩ := hB.answers box none hs
    cases ha.symm.trans hb
    obtain ⟨hlength, hfinite⟩ := hpoint (Answer.hasBound_of_isOptimal hoptimal)
    obtain ⟨i, hi, v, hv, hnot⟩ := Problem.exists_of_wholeAt?_eq_false hinteger
    obtain ⟨_, hfs', hmem⟩ := Problem.exists_fractional? (hp.lt_length hlength)
    cases hfs'.symm.trans hfs
    have hfrac : Problem.fractionalTol < Scalar.fractionality v := by
      rw [← ExtRat.fin_toRat (hfinite v (List.mem_of_getElem? hv))] at hnot ⊢
      exact Problem.fractional_of_not_whole_of_le htol hnot
    exact List.ne_nil_of_mem (hmem i hi v hv hfrac)

/-! ## The simplex backend -/

section Simplex

variable {p : Problem ExtRat} {box : Box ExtRat}

/-- In a usable box the relaxation passes its check. -/
theorem Problem.WellFormed.validate_relaxation (h : p.WellFormed) (hbox : box.Usable p.numVars) :
    (p.relaxation box.lower box.upper).validate = .ok () := by
  have hvars : (p.relaxation box.lower box.upper).numVars = p.numVars := List.length_map _
  refine LinearProgram.validate_of_wellFormed ⟨?_, ?_, ?_, ?_, ?_, ?_, ?_, ?_⟩ hvars.symm
  · exact (List.length_map _).trans (List.length_map _).symm
  · exact hbox.lower.trans hvars.symm
  · exact hbox.upper.trans hvars.symm
  · intro c hc
    obtain ⟨d, hd, rfl⟩ := List.mem_map.mp hc
    rw [← ExtRat.fin_toRat (h.objective d hd)]
    rfl
  · intro b hb
    obtain ⟨r, hr, rfl⟩ := List.mem_map.mp hb
    exact h.rhs r hr
  · intro terms hterms
    obtain ⟨r, hr, rfl⟩ := List.mem_map.mp hterms
    exact h.coefficient r hr
  · exact hbox.lower_ne
  · exact hbox.upper_ne

namespace Relaxation

variable {settings : LinearProgram.Settings ExtRat} {s : SimplexState ExtRat}

/-- A limit on iterations is not checked. -/
theorem validate_settingsFor {α : Type} [Scalar α] (s : SimplexState α) (cap : Option ℕ) :
    (s.settingsFor cap).validate = s.settings.validate := by
  cases cap <;> rfl

/-- An answer that gives a bound gives a value to every variable. -/
theorem wellFormed_interpret {r : LinearProgram.Report ExtRat} (cap : Option ℕ)
    (h : r.x.length = p.numVars) : Oracle.wellFormed p (interpret cap r).1 = true := by
  have hrounded : ∀ status : Status, Oracle.wellFormed p (roundedAnswer status r) = true := by
    intro status
    unfold Oracle.wellFormed roundedAnswer
    rw [List.length_map, h, decide_eq_true rfl, Bool.or_true]
  unfold interpret
  split
  · exact hrounded _
  · exact hrounded _
  · rfl
  · rfl

/-- In a usable box a request passes all checks and is answered. -/
theorem answers_simplex (hp : p.WellFormed) (hs : s.settings.validate = .ok ())
    (hbox : box.Usable p.numVars) (cap : Option ℕ) :
    ∃ a, (simplex.solve p box cap s).1.outcome = .ok a ∧ Oracle.wellFormed p a = true := by
  have hsolve := LinearProgram.solve_of_validate (hp.validate_relaxation hbox)
    ((validate_settingsFor s cap).trans hs)
  unfold simplex
  dsimp only
  rw [hsolve]
  refine ⟨_, rfl, wellFormed_interpret cap ?_⟩
  rw [LinearProgram.length_x_solveValid]
  exact List.length_map _

/-- An optimum that does not count as integer has a fractional variable. -/
theorem fractional_ne_nil {tol : ExtRat} {a : Answer ExtRat} {fs : List (ℕ × ExtRat)}
    (hp : p.WellFormed) (htol : 0 < tol) (ha : (simplex.solve p box none s).1.outcome = .ok a)
    (hoptimal : a.isOptimal = true) (hnot : p.integerFeasible? a.x tol = some false)
    (hfs : p.fractional? a.x = some fs) : fs ≠ [] := by
  obtain ⟨z, hz⟩ := exists_roundedOptimum ha hoptimal
  obtain ⟨i, hi, v, hv, hfrac⟩ := Problem.exists_of_wholeAt?_eq_false hnot
  have hlength : a.x.length = p.numVars := by
    rw [hz.x_eq, List.length_map, List.length_map, hz.length_eq]
  obtain ⟨q, -, rfl⟩ : ∃ q, z[i]? = some q ∧ ExtRat.fin (nearest7 q) = v := by
    rw [hz.x_eq, List.map_map, List.getElem?_map] at hv
    obtain ⟨q, hq, rfl⟩ := Option.map_eq_some_iff.mp hv
    exact ⟨q, hq, (round7_fin q).symm⟩
  obtain ⟨_, hfs', hmem⟩ := Problem.exists_fractional? (hp.lt_length hlength)
  cases hfs'.symm.trans hfs
  exact List.ne_nil_of_mem (hmem i hi _ hv (fractional_of_not_whole htol hfrac))

/-- A request leaves the simplex backend as it is, and in usable boxes it is answered. -/
theorem dependable_simplex {tol : ExtRat} (hp : p.WellFormed) (hs : settings.validate = .ok ())
    (htol : 0 < tol) : simplex.Dependable p tol fun s => s.settings = settings where
  answers {box s} cap hbox hsettings := by
    obtain ⟨a, ha, hwell⟩ := answers_simplex hp (by rw [hsettings]; exact hs) hbox cap
    refine ⟨a, ha, hwell, ?_⟩
    rw [state_simplex]
    exact hsettings
  fractional _ _ ha hoptimal := fractional_ne_nil hp htol ha hoptimal

end Relaxation

end Simplex

end BranchBound
