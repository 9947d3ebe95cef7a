import BranchBound.Proofs.Search.Replay

/-!
# Pseudocosts as means

A table of pseudocosts is changed one observed loss at a time, and each entry keeps a running mean.
Over exact numbers the order of the losses leaves no trace: an entry holds the sum of the losses per
unit that were observed for it, divided by their number. The seed of an entry has no weight.

* `Loss`, `Loss.rate`: a branch with the values above and below it, and what it lost per unit.
* `PseudocostTable.observe`: the table with one more loss.
* `Pseudocost.Averages`: an entry is the mean of some rates.
* `PseudocostTable.exists_averages`: so each one is after any number of losses.
* `PseudocostTable.foldl_observe_perm`: their order does not matter.
-/

namespace BranchBound

/-- Whether a branch is one of a variable in a direction. -/
def Branch.along {α : Type} (sense : Sense) (var : ℕ) (b : Branch α) : Bool :=
  b.sense = sense ∧ b.var = var

/-- What a branch lost: the values of the relaxations above and below it. -/
structure Loss (α : Type) where
  branch : Branch α
  above : α
  below : α

section Losses

variable {α : Type} [Scalar α]

/-- The loss per unit that the branch moved its variable by. -/
def Loss.rate (l : Loss α) : α :=
  (l.above - l.below) / Scalar.abs (l.branch.value - l.branch.rhs)

/-- Whether the branch moved its variable, and both values are finite. -/
def Loss.Tells (l : Loss α) : Prop :=
  ¬ l.branch.distance ≤ 0 ∧ Scalar.isFinite l.above = true ∧ Scalar.isFinite l.below = true

/-- What was lost per unit by the branches of a variable in a direction. -/
def ratesAlong (sense : Sense) (var : ℕ) (ls : List (Loss α)) : List α :=
  (ls.filter (·.branch.along sense var)).map Loss.rate

namespace PseudocostTable

variable {t : PseudocostTable α} {l : Loss α} {ls : List (Loss α)}

/-- The table with one more loss, where that is the loss of a variable and tells anything. -/
def observe (t : PseudocostTable α) (l : Loss α) : PseudocostTable α :=
  ((t.update? l.branch l.above l.below).map Prod.fst).getD t

theorem observe_of_update? {b : Branch α} {above below : α}
    {updated : PseudocostTable α × Option (Pseudocost α)}
    (h : t.update? b above below = some updated) : t.observe ⟨b, above, below⟩ = updated.1 := by
  unfold observe
  rw [h]
  rfl

/-- A loss changes the entry of its variable in its direction, and no other one. -/
theorem getElem?_observe (hl : l.Tells) (sense : Sense) (var : ℕ) :
    ((t.observe l).side sense)[var]? = ((t.side sense)[var]?).map fun entry =>
      if l.branch.along sense var then entry.observe l.rate else entry := by
  have hinformative : informative l.branch l.above l.below = true := by
    simp [informative, hl.1, hl.2.1, hl.2.2]
  unfold observe update? Branch.along
  rw [if_pos hinformative]
  cases hentry : (t.side l.branch.sense)[l.branch.var]? with
  | none =>
    show (t.side sense)[var]? = _
    by_cases halong : l.branch.sense = sense ∧ l.branch.var = var
    · rw [← halong.1, ← halong.2, hentry]
      rfl
    · simp only [halong, decide_false, Bool.false_eq_true, if_false, Option.map_id']
  | some entry =>
    show ((t.set _ _ _).side sense)[var]? = _
    rw [side_set]
    by_cases hsense : l.branch.sense = sense
    · rw [← hsense, Function.update_self, List.getElem?_set]
      by_cases hvar : l.branch.var = var
      · rw [if_pos hvar, if_pos (List.getElem?_eq_some_iff.mp hentry).1, ← hvar, hentry]
        simp [Loss.rate, Branch.distance]
      · simp only [hvar, if_false, and_false, decide_false, Bool.false_eq_true, Option.map_id']
    · rw [Function.update_of_ne (Ne.symm hsense)]
      simp only [hsense, false_and, decide_false, Bool.false_eq_true, if_false, Option.map_id']

/-- After some losses, an entry has observed those of its variable in its direction. -/
theorem getElem?_foldl_observe (hls : ∀ l ∈ ls, l.Tells) (sense : Sense) (var : ℕ) :
    ((ls.foldl observe t).side sense)[var]? = ((t.side sense)[var]?).map fun entry =>
      (ratesAlong sense var ls).foldl Pseudocost.observe entry := by
  induction ls generalizing t with
  | nil => exact Option.map_id'.symm
  | cons l ls ih =>
    obtain ⟨hl, hls⟩ := List.forall_mem_cons.mp hls
    rw [List.foldl_cons, ih hls, getElem?_observe hl, Option.map_map]
    congr 1
    funext entry
    unfold ratesAlong
    rw [List.filter_cons]
    by_cases halong : l.branch.along sense var = true
    · simp only [Function.comp_apply, halong, if_true, List.map_cons, List.foldl_cons]
    · simp only [Function.comp_apply, halong, if_false, Bool.false_eq_true]

end PseudocostTable

end Losses

/-! ## Means -/

/-- The mean of some values. -/
def mean {α : Type} [Scalar α] (l : List α) : α := Scalar.sum l / Scalar.ofNat l.length

/-- An entry is the mean of some losses per unit; before the first one, it is the size of a
coefficient. -/
structure Pseudocost.Averages {α : Type} [Scalar α] (coefficient : α) (rates : List α)
    (entry : Pseudocost α) : Prop where
  count : entry.count = rates.length
  estimate : entry.estimate = if rates = [] then Scalar.abs coefficient else mean rates

section Exact

variable {c : ExtRat} {rates rates' : List ExtRat} {l : Loss ExtRat} {ls ls' : List (Loss ExtRat)}

/-- The mean of rational numbers. -/
theorem mean_map_fin (l : List ℚ) : mean (l.map ExtRat.fin) = .fin (l.sum / l.length) := by
  rw [mean, ExtRat.sum_map_fin, List.length_map]
  exact ExtRat.fin_div _ _

/-- The mean does not depend on the order. -/
theorem mean_perm (h : rates.Perm rates') (hfinite : ∀ r ∈ rates, Scalar.isFinite r = true) :
    mean rates = mean rates' := by
  have hfinite' : ∀ r ∈ rates', Scalar.isFinite r = true := fun r hr =>
    hfinite r (h.mem_iff.mpr hr)
  rw [← ExtRat.map_fin_map_toRat hfinite, ← ExtRat.map_fin_map_toRat hfinite', mean_map_fin,
    mean_map_fin, (h.map _).sum_eq, (h.map _).length_eq]

/-- Nothing times a value is nothing, also where the value is infinite. -/
theorem ExtRat.mul_fin_zero (a : ExtRat) : a * fin 0 = fin 0 := by
  cases a with
  | fin a => rw [fin_mul, mul_zero]
  | negInf => rfl
  | posInf => rfl

/-- An entry stands for the sum of what it has observed. Nothing is left of the coefficient, since
the first observation finds it with no weight. -/
theorem Pseudocost.Averages.weighted {entry : Pseudocost ExtRat} {rates : List ℚ}
    (h : entry.Averages c (rates.map ExtRat.fin)) :
    entry.estimate * Scalar.ofNat entry.count = .fin rates.sum := by
  have hcount : (Scalar.ofNat entry.count : ExtRat) = .fin rates.length := by
    rw [h.count, List.length_map]
    rfl
  rw [hcount, h.estimate]
  by_cases hrates : rates = []
  · rw [hrates]
    exact ExtRat.mul_fin_zero _
  · have hlength : (rates.length : ℚ) ≠ 0 :=
      Nat.cast_ne_zero.mpr (mt List.length_eq_zero_iff.mp hrates)
    rw [if_neg (mt List.map_eq_nil_iff.mp hrates), mean_map_fin, ExtRat.fin_mul,
      div_mul_cancel₀ _ hlength]

theorem Pseudocost.Averages.observe {entry : Pseudocost ExtRat} {rates : List ℚ}
    (h : entry.Averages c (rates.map ExtRat.fin)) (rate : ℚ) :
    (entry.observe (.fin rate)).Averages c ((rates ++ [rate]).map ExtRat.fin) where
  count := by
    show entry.count + 1 = _
    rw [h.count, List.length_map, List.length_map, List.length_append, List.length_singleton]
  estimate := by
    have hcount : (Scalar.ofNat entry.count : ExtRat) + 1 = .fin (rates.length + 1) := by
      rw [h.count, List.length_map]
      rfl
    show (entry.estimate * Scalar.ofNat entry.count + .fin rate) / (Scalar.ofNat entry.count + 1)
      = _
    rw [h.weighted, hcount, ExtRat.fin_add, ExtRat.fin_div, if_neg (by simp), mean_map_fin,
      List.sum_append, List.sum_singleton, List.length_append, List.length_singleton, Nat.cast_add,
      Nat.cast_one]

/-- After some losses an entry is their mean. -/
theorem Pseudocost.averages_foldl (c : ExtRat) (hfinite : ∀ r ∈ rates, Scalar.isFinite r = true) :
    (rates.foldl observe (.seed c)).Averages c rates := by
  rw [← ExtRat.map_fin_map_toRat hfinite]
  generalize rates.map ExtRat.toRat = rates
  induction rates using List.reverseRecOn with
  | nil => exact ⟨rfl, rfl⟩
  | append_singleton rates rate ih =>
    have hstep := ih.observe rate
    rw [List.map_append, List.foldl_append]
    rw [List.map_append] at hstep
    exact hstep

/-- An entry is told by what it is the mean of, in any order. -/
theorem Pseudocost.Averages.eq_of_perm {entry entry' : Pseudocost ExtRat}
    (h : entry.Averages c rates) (h' : entry'.Averages c rates') (hperm : rates.Perm rates')
    (hfinite : ∀ r ∈ rates, Scalar.isFinite r = true) : entry = entry' := by
  obtain ⟨hcount, hestimate⟩ := h
  obtain ⟨hcount', hestimate'⟩ := h'
  have hnil : rates' = [] ↔ rates = [] :=
    ⟨fun h => (h ▸ hperm).eq_nil, fun h => (h ▸ hperm.symm).eq_nil⟩
  rw [← hperm.length_eq, ← hcount] at hcount'
  simp only [hnil, ← mean_perm hperm hfinite, ← hestimate] at hestimate'
  cases entry
  cases entry'
  exact congrArg₂ _ hestimate'.symm hcount'.symm

/-! ## Tables -/

/-- A loss that tells anything has a finite rate. -/
theorem Loss.Tells.isFinite_rate (h : l.Tells) : Scalar.isFinite l.rate = true := by
  obtain ⟨-, habove, hbelow⟩ := h
  rw [Loss.rate, ← ExtRat.fin_toRat habove, ← ExtRat.fin_toRat hbelow, ExtRat.fin_sub]
  cases Scalar.abs (l.branch.value - l.branch.rhs) <;> rfl

namespace PseudocostTable

variable {objective : List ExtRat}

theorem getElem?_ofObjective (objective : List ExtRat) (sense : Sense) (var : ℕ) :
    ((ofObjective objective).side sense)[var]? = (objective[var]?).map Pseudocost.seed := by
  cases sense <;> exact List.getElem?_map

/-- What an entry has observed has finite rates. -/
theorem isFinite_of_mem_ratesAlong (hls : ∀ l ∈ ls, l.Tells) (sense : Sense) (var : ℕ) :
    ∀ r ∈ ratesAlong sense var ls, Scalar.isFinite r = true := by
  intro r hr
  obtain ⟨l, hl, rfl⟩ := List.mem_map.mp hr
  exact (hls l (List.mem_of_mem_filter hl)).isFinite_rate

/-- From the objective on, each entry is the mean of the losses of its variable in its direction. -/
theorem exists_averages (hls : ∀ l ∈ ls, l.Tells) {var : ℕ} (hc : objective[var]? = some c)
    (sense : Sense) :
    ∃ entry, ((ls.foldl observe (ofObjective objective)).side sense)[var]? = some entry ∧
      entry.Averages c (ratesAlong sense var ls) := by
  rw [getElem?_foldl_observe hls, getElem?_ofObjective, hc]
  exact ⟨_, rfl, Pseudocost.averages_foldl c (isFinite_of_mem_ratesAlong hls sense var)⟩

theorem eq_of_side {α : Type} {t u : PseudocostTable α} (h : ∀ sense, t.side sense = u.side sense) :
    t = u := by
  have hdown : t.down = u.down := h .down
  have hup : t.up = u.up := h .up
  cases t
  cases u
  exact congrArg₂ _ hdown hup

/-- Where losses were observed in another order, the table is the same. -/
theorem foldl_observe_perm (hperm : ls.Perm ls') (hls : ∀ l ∈ ls, l.Tells)
    (objective : List ExtRat) :
    ls.foldl observe (ofObjective objective) = ls'.foldl observe (ofObjective objective) := by
  have hls' : ∀ l ∈ ls', l.Tells := fun l hl => hls l (hperm.mem_iff.mpr hl)
  refine eq_of_side fun sense => List.ext_getElem? fun var => ?_
  rw [getElem?_foldl_observe hls, getElem?_foldl_observe hls', getElem?_ofObjective,
    Option.map_map, Option.map_map]
  congr 1
  funext c
  have hfinite := isFinite_of_mem_ratesAlong hls sense var
  have hrates : (ratesAlong sense var ls).Perm (ratesAlong sense var ls') :=
    (hperm.filter _).map _
  exact (Pseudocost.averages_foldl c hfinite).eq_of_perm
    (Pseudocost.averages_foldl c fun r hr => hfinite r (hrates.mem_iff.mpr hr)) hrates hfinite

end PseudocostTable

end Exact

end BranchBound
