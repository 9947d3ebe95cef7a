import BranchBound.Proofs.Search.Path
import BranchBound.Search.State

/-!
# Integer points and fractional variables

What it takes to branch on a variable without losing an integer point, and why branching ends where
all variables are zero or one.

* `Problem.RelaxedPoint`, `Problem.IntegerPoint`: points of a box that satisfy the rows, and those
  that are whole where they have to be.
* `Problem.fractional?_spec`: the variables that can be branched on.
* `Branch.holds_down_or_up`: the two children of a branching share the integer points.
* `ZeroOnePath`: branches that fix different variables at zero or one.
* `integerFeasible?_ne_of_tooDeep`: where all domains end at one, a node as deep as there are
  variables has no fractional variable left.
-/

namespace BranchBound

/-! ## Integer points -/

/-- A rational point of a box that satisfies the rows. -/
structure Problem.RelaxedPoint (p : Problem ExtRat) (box : Box ExtRat) (y : List ℚ) : Prop where
  inside : box.Contains (y.map .fin)
  rows : ∀ r ∈ p.rows, r.terms.activity (y.map .fin) ≤ r.rhs

/-- A rational point of a box that satisfies the rows and is whole at every integer variable. -/
structure Problem.IntegerPoint (p : Problem ExtRat) (box : Box ExtRat) (y : List ℚ) : Prop where
  inside : box.Contains (y.map .fin)
  rows : ∀ r ∈ p.rows, r.terms.activity (y.map .fin) ≤ r.rhs
  whole : ∀ j ∈ p.integerVars, ∃ k : ℤ, y[j]? = some (k : ℚ)

theorem Problem.IntegerPoint.relaxedPoint {p : Problem ExtRat} {box : Box ExtRat} {y : List ℚ}
    (h : p.IntegerPoint box y) : p.RelaxedPoint box y :=
  ⟨h.inside, h.rows⟩

/-! ## Fractional variables -/

/-- What a partial map over a list gives comes from its elements. -/
theorem exists_of_mem_mapM {β γ : Type} {g : β → Option γ} {l : List β} {cs : List γ}
    (h : l.mapM g = some cs) {c : γ} (hc : c ∈ cs) : ∃ b ∈ l, g b = some c := by
  induction l generalizing cs with
  | nil =>
    cases h
    cases hc
  | cons b l ih =>
    rw [List.mapM_cons] at h
    obtain ⟨d, hd, h⟩ := Option.bind_eq_some_iff.mp h
    obtain ⟨ds, hds, h⟩ := Option.bind_eq_some_iff.mp h
    cases h
    rcases List.mem_cons.mp hc with rfl | hc
    · exact ⟨b, List.mem_cons_self, hd⟩
    · obtain ⟨e, he, hec⟩ := ih hds hc
      exact ⟨e, List.mem_cons_of_mem b he, hec⟩

theorem Problem.fractional?_spec {α : Type} [Scalar α] {p : Problem α} {x : List α}
    {fs : List (ℕ × α)} (h : p.fractional? x = some fs) {f : ℕ × α} (hf : f ∈ fs) :
    f.1 ∈ p.integerVars ∧ x[f.1]? = some f.2 ∧ fractionalTol < Scalar.fractionality f.2 := by
  obtain ⟨vs, hvs, rfl⟩ := Option.map_eq_some_iff.mp h
  obtain ⟨hmem, htol⟩ := List.mem_filter.mp hf
  obtain ⟨i, hi, hpair⟩ := exists_of_mem_mapM hvs hmem
  obtain ⟨v, hv, rfl⟩ := Option.map_eq_some_iff.mp hpair
  exact ⟨hi, hv, of_decide_eq_true htol⟩

/-- A value that counts as fractional is a rational number strictly between two whole ones. -/
theorem exists_fin_of_fractional {v : ExtRat}
    (h : Problem.fractionalTol < Scalar.fractionality v) :
    ∃ a : ℚ, v = .fin a ∧ (⌊a⌋ : ℚ) < a ∧ a < ⌈a⌉ := by
  have htol : (0 : ExtRat) ≤ Problem.fractionalTol := by decide +kernel
  rw [Scalar.fractionality, ExtRat.minNum_eq_min] at h
  have hpos := lt_min_iff.mp (htol.trans_lt h)
  cases v with
  | negInf => exact hpos.1.elim
  | posInf => exact hpos.1.elim
  | fin a =>
    rw [ExtRat.floor_fin, ExtRat.ceil_fin, ExtRat.fin_sub, ExtRat.fin_sub] at hpos
    exact ⟨a, rfl, sub_pos.mp hpos.1, sub_pos.mp hpos.2⟩

/-- A point that is whole at a fractional variable satisfies one of its two branches. -/
theorem Branch.holds_down_or_up {y : List ℚ} {j : ℕ} {v : ExtRat}
    (hv : Problem.fractionalTol < Scalar.fractionality v) (hy : ∃ k : ℤ, y[j]? = some (k : ℚ)) :
    (Branch.down j v).Holds (y.map .fin) ∨ (Branch.up j v).Holds (y.map .fin) := by
  obtain ⟨a, rfl, -, -⟩ := exists_fin_of_fractional hv
  obtain ⟨k, hk⟩ := hy
  have hget : (y.map ExtRat.fin)[j]? = some (.fin k) := by
    rw [List.getElem?_map, hk, Option.map_some]
  rcases le_or_gt (k : ℚ) a with hle | hlt
  · left
    refine ⟨_, hget, ?_⟩
    show ExtRat.fin k ≤ Scalar.floor (.fin a)
    rw [ExtRat.floor_fin, ExtRat.fin_le_fin, Int.cast_le]
    exact Int.le_floor.mpr hle
  · right
    refine ⟨_, hget, ?_⟩
    show Scalar.ceil (.fin a) ≤ ExtRat.fin k
    rw [ExtRat.ceil_fin, ExtRat.fin_le_fin, Int.cast_le]
    exact Int.ceil_le.mpr hlt.le

/-- A point that is not integer has an integer variable whose value is not whole. -/
theorem Problem.exists_of_wholeAt?_eq_false {α : Type} [Scalar α] {x : List α} {tol : α}
    {vars : List ℕ} (h : wholeAt? x tol vars = some false) :
    ∃ i ∈ vars, ∃ v, x[i]? = some v ∧ ¬ Scalar.abs (Scalar.round v - v) ≤ tol := by
  induction vars with
  | nil => cases h
  | cons i vars ih =>
    unfold wholeAt? at h
    split at h
    · cases h
    · rename_i v hv
      split at h
      · obtain ⟨k, hk, w, hw, hnot⟩ := ih h
        exact ⟨k, List.mem_cons_of_mem i hk, w, hw, hnot⟩
      · exact ⟨i, List.mem_cons_self, v, hv, ‹_›⟩

/-- A point that counts as integer is near a whole number at every integer variable. -/
theorem Problem.of_wholeAt?_eq_true {α : Type} [Scalar α] {x : List α} {tol : α} {vars : List ℕ}
    (h : wholeAt? x tol vars = some true) :
    ∀ i ∈ vars, ∃ v, x[i]? = some v ∧ Scalar.abs (Scalar.round v - v) ≤ tol := by
  induction vars with
  | nil => exact fun i hi => (List.not_mem_nil hi).elim
  | cons j vars ih =>
    unfold wholeAt? at h
    split at h
    · cases h
    · rename_i v hv
      split at h
      · exact List.forall_mem_cons.mpr ⟨⟨v, hv, ‹_›⟩, ih h⟩
      · cases h

/-! ## Domains that end at one -/

/-- A branch that leaves a value between zero and one no choice. -/
def Branch.Fixes (b : Branch ExtRat) : Prop :=
  (b.sense = .down ∧ b.rhs = 0) ∨ (b.sense = .up ∧ b.rhs = 1)

/-- Branches that fix different variables. -/
structure ZeroOnePath (n : ℕ) (bs : List (Branch ExtRat)) : Prop where
  nodup : (bs.map Branch.var).Nodup
  lt : ∀ b ∈ bs, b.var < n
  fixes : ∀ b ∈ bs, b.Fixes

theorem zeroOnePath_nil (n : ℕ) : ZeroOnePath n [] :=
  ⟨List.nodup_nil, fun _ hb => (List.not_mem_nil hb).elim, fun _ hb => (List.not_mem_nil hb).elim⟩

/-- As many branches as there are variables fix all of them. -/
theorem ZeroOnePath.exists_var_eq {n : ℕ} {bs : List (Branch ExtRat)} (h : ZeroOnePath n bs)
    (hlength : n ≤ bs.length) {i : ℕ} (hi : i < n) : ∃ b ∈ bs, b.var = i := by
  have hsubset : (bs.map Branch.var).toFinset ⊆ Finset.range n := by
    intro k hk
    obtain ⟨b, hb, rfl⟩ := List.mem_map.mp (List.mem_toFinset.mp hk)
    exact Finset.mem_range.mpr (h.lt b hb)
  have hcard : (Finset.range n).card ≤ (bs.map Branch.var).toFinset.card := by
    rw [Finset.card_range, List.toFinset_card_of_nodup h.nodup, List.length_map]
    exact hlength
  have hmem : i ∈ (bs.map Branch.var).toFinset := by
    rw [Finset.eq_of_subset_of_card_le hsubset hcard]
    exact Finset.mem_range.mpr hi
  exact List.mem_map.mp (List.mem_toFinset.mp hmem)

/-- A fixed value between zero and one is zero or one. -/
theorem Branch.Fixes.value_eq {b : Branch ExtRat} (h : b.Fixes) {x : List ExtRat}
    (hx : b.Holds x) {v : ExtRat} (hv : x[b.var]? = some v) (hzero : 0 ≤ v) (hone : v ≤ 1) :
    v = 0 ∨ v = 1 := by
  obtain ⟨w, hw, hside⟩ := hx
  cases hw.symm.trans hv
  rcases h with ⟨hsense, hrhs⟩ | ⟨hsense, hrhs⟩
  · rw [hsense, hrhs] at hside
    exact .inl (le_antisymm hside hzero)
  · rw [hsense, hrhs] at hside
    exact .inr (le_antisymm hone hside)

theorem not_fractional_of_zero_or_one {v : ExtRat} (h : v = 0 ∨ v = 1) :
    ¬ Problem.fractionalTol < Scalar.fractionality v := by
  rcases h with rfl | rfl <;> decide +kernel

theorem whole_of_zero_or_one {v tol : ExtRat} (h : v = 0 ∨ v = 1) (htol : 0 < tol) :
    Scalar.abs (Scalar.round v - v) ≤ tol := by
  have habs : Scalar.abs (Scalar.round v - v) = 0 := by
    rcases h with rfl | rfl <;> decide +kernel
  rw [habs]
  exact htol.le

theorem exists_getElem?_of_forall₂ {β γ : Type} {R : β → γ → Prop} {l : List β} {k : List γ}
    (h : List.Forall₂ R l k) {i : ℕ} {c : γ} (hc : k[i]? = some c) :
    ∃ b, l[i]? = some b ∧ R b c := by
  obtain ⟨hi, rfl⟩ := List.getElem?_eq_some_iff.mp hc
  have hi' : i < l.length := lt_of_lt_of_eq hi h.length_eq.symm
  exact ⟨l[i], List.getElem?_eq_getElem hi', h.get hi' hi⟩

theorem Problem.capped_of_isBinaryDomain {p : Problem ExtRat} {binaryVars : Bool}
    (h : p.isBinaryDomain binaryVars = true) {t : VarType} (ht : t ∈ p.types) :
    binaryVars = true ∨ t = .binary := by
  rcases Bool.or_eq_true_iff.mp h with h | h
  · exact .inl h
  · exact .inr (of_decide_eq_true (List.all_eq_true.mp h t ht))

/-- Where all domains end at one, so do all values. -/
theorem Box.value_mem_of_root {p : Problem ExtRat} {binaryVars : Bool}
    (hbinary : p.isBinaryDomain binaryVars = true) {x : List ExtRat}
    (hx : (Box.root p binaryVars).Contains x) {i : ℕ} {v : ExtRat} (hv : x[i]? = some v) :
    0 ≤ v ∧ v ≤ 1 := by
  constructor
  · obtain ⟨lo, hlo, hle⟩ := exists_getElem?_of_forall₂ hx.1 hv
    rw [List.eq_of_mem_replicate (List.mem_of_getElem? hlo)] at hle
    exact hle
  · obtain ⟨hi, hhi, hle⟩ := exists_getElem?_of_forall₂ hx.2.flip hv
    obtain ⟨t, ht, rfl⟩ := List.mem_map.mp (List.mem_of_getElem? hhi)
    rw [if_pos (Problem.capped_of_isBinaryDomain hbinary ht)] at hle
    exact hle

/-- A fractional variable is not among those that are fixed, and both of its branches fix it. -/
theorem ZeroOnePath.cons {n : ℕ} {bs : List (Branch ExtRat)} (h : ZeroOnePath n bs)
    {x : List ExtRat} (hx : ∀ b ∈ bs, b.Holds x)
    (hbox : ∀ (i : ℕ) (v : ExtRat), x[i]? = some v → 0 ≤ v ∧ v ≤ 1) {j : ℕ} {v : ExtRat}
    (hj : j < n) (hv : x[j]? = some v) (hfrac : Problem.fractionalTol < Scalar.fractionality v) :
    ZeroOnePath n (Branch.down j v :: bs) ∧ ZeroOnePath n (Branch.up j v :: bs) := by
  obtain ⟨hzero, hone⟩ := hbox j v hv
  -- a variable that is fixed already has a whole value, so it cannot be the fractional one
  have hnew : j ∉ bs.map Branch.var := by
    intro hmem
    obtain ⟨b, hb, rfl⟩ := List.mem_map.mp hmem
    exact not_fractional_of_zero_or_one ((h.fixes b hb).value_eq (hx b hb) hv hzero hone) hfrac
  -- strictly between zero and one, so the branches are at zero and at one
  have hends : Scalar.floor v = 0 ∧ Scalar.ceil v = 1 := by
    obtain ⟨a, rfl, hfloor, hceil⟩ := exists_fin_of_fractional hfrac
    rw [ExtRat.zero_eq_fin, ExtRat.fin_le_fin] at hzero
    rw [ExtRat.one_eq_fin, ExtRat.fin_le_fin] at hone
    have hne : a ≠ 1 := by
      rintro rfl
      rw [Int.floor_one, Int.cast_one] at hfloor
      exact lt_irrefl _ hfloor
    have hne' : a ≠ 0 := by
      rintro rfl
      rw [Int.ceil_zero, Int.cast_zero] at hceil
      exact lt_irrefl _ hceil
    have hfloor_eq : ⌊a⌋ = 0 := Int.floor_eq_zero_iff.mpr ⟨hzero, lt_of_le_of_ne hone hne⟩
    have hceil_eq : ⌈a⌉ = 1 := by
      rw [Int.ceil_eq_iff, Int.cast_one, sub_self]
      exact ⟨lt_of_le_of_ne hzero hne'.symm, hone⟩
    rw [ExtRat.floor_fin, ExtRat.ceil_fin, hfloor_eq, hceil_eq]
    exact ⟨rfl, rfl⟩
  have hcons : ∀ b : Branch ExtRat, b.var = j → b.Fixes → ZeroOnePath n (b :: bs) := by
    intro b hvar hfixes
    refine ⟨?_, List.forall_mem_cons.mpr ⟨hvar ▸ hj, h.lt⟩,
      List.forall_mem_cons.mpr ⟨hfixes, h.fixes⟩⟩
    rw [List.map_cons, List.nodup_cons, hvar]
    exact ⟨hnew, h.nodup⟩
  exact ⟨hcons _ rfl (.inl ⟨rfl, hends.1⟩), hcons _ rfl (.inr ⟨rfl, hends.2⟩)⟩

/-- Where no limit on the depth is set, a node too deep to be branched on has as many fixed
variables as there are variables, so its optimum is integer. -/
theorem integerFeasible?_ne_of_tooDeep {σ : Type} {ctx : Search.Context σ ExtRat}
    (hlimit : ctx.settings.depthLimit = none) (htol : 0 < ctx.settings.integralityTol)
    {bs : List (Branch ExtRat)}
    (hpath : ctx.problem.isBinaryDomain ctx.settings.binaryVars = true →
      ZeroOnePath ctx.problem.numVars bs)
    (hdeep : ctx.tooDeep bs.length = true) {x : List ExtRat} (hx : ctx.rootBox.Contains x)
    (hbs : ∀ b ∈ bs, b.Holds x) :
    ctx.problem.integerFeasible? x ctx.settings.integralityTol ≠ some false := by
  intro hfalse
  obtain ⟨i, -, v, hv, hnot⟩ := Problem.exists_of_wholeAt?_eq_false hfalse
  unfold Search.Context.tooDeep Search.Context.depthLimit at hdeep
  rw [hlimit] at hdeep
  dsimp only at hdeep
  split at hdeep
  · -- all variables are fixed on the path, so no value is fractional
    rename_i hbinary
    have hlength : ctx.problem.numVars ≤ bs.length := by simpa using hdeep
    have hi : i < ctx.problem.numVars := by
      have hlen : x.length = ctx.problem.numVars := by
        rw [← hx.1.length_eq]
        exact List.length_replicate
      exact lt_of_lt_of_eq (List.getElem?_eq_some_iff.mp hv).1 hlen
    obtain ⟨b, hb, rfl⟩ := (hpath hbinary).exists_var_eq hlength hi
    obtain ⟨hzero, hone⟩ := Box.value_mem_of_root hbinary hx hv
    exact hnot (whole_of_zero_or_one
      (((hpath hbinary).fixes b hb).value_eq (hbs b hb) hv hzero hone) htol)
  · cases hdeep

end BranchBound
