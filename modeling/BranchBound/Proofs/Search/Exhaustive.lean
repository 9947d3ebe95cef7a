import BranchBound.Proofs.Problem.Dense
import BranchBound.Proofs.Search.Bound
import BranchBound.Proofs.Search.Steady
import BranchBound.Proofs.Search.ZeroOne

/-!
# Agreement with enumeration

An optimum of a search with the simplex backend over dense data, compared with the best of all
zero-one vectors that satisfy the rows. What a search accepts is a point near a zero-one vector, and
what it closes are boxes whose relaxations were solved with tolerances. The objective it reports is
that of the point it accepted, rounded; where no tolerance had a say in a solve it is not below the
maximum; and where the near vector satisfies the rows, the two differ by what the point is worth
more than the vector, up to rounding.

* `fixedSimplex`: the backend with settings that no request changes.
* `DenseData.NearPoint`, `exists_nearPoint`: what a reported optimum stands for.
* `UndisturbedIn`, `trusted_of_undisturbedIn`: where no tolerance had a say.
* `optimum_near_maximum`: the comparison.
* `optimum_off_maximum`: two runs whose optimum is not the maximum.
-/

namespace BranchBound

open ExtRat Relaxation

/-! ## The simplex backend with fixed settings -/

namespace Relaxation

/-- Answers as the simplex backend does under the given settings, whatever it was asked before. -/
def fixedSimplex (settings : LinearProgram.Settings ExtRat) : Backend Unit ExtRat where
  solve p box cap s := ((simplex.solve p box cap (.new settings)).1, s)
  setMode _ s := ([], s)

variable {p : Problem ExtRat} {box : Box ExtRat} {settings : LinearProgram.Settings ExtRat}

/-- No request changes the settings of the solver. -/
theorem keeps_simplex : simplex.Keeps p fun s => s.settings = settings where
  solve box cap hs := by
    rw [state_simplex]
    exact hs

/-- With these settings the answer depends on the box only. -/
theorem outcome_fixedSimplex {s : SimplexState ExtRat} (hs : s.settings = settings) (u : Unit) :
    ((fixedSimplex settings).solve p box none u).1.outcome
      = (simplex.solve p box none s).1.outcome := by
  unfold fixedSimplex simplex SimplexState.settingsFor SimplexState.new
  dsimp only
  rw [hs]
  split <;> rfl

/-- The solver stays within a unit box, up to its tolerance. -/
theorem insideZeroOne_fixedSimplex : (fixedSimplex .standard).InsideZeroOne p := by
  intro box u a hbox h hoptimal
  obtain ⟨z, hz⟩ := exists_roundedOptimum h hoptimal
  exact hz.contains hbox

end Relaxation

/-! ## What a reported optimum stands for -/

namespace Relaxation.RoundedOptimum

variable {d : DenseData} {p : Problem ExtRat} {box : Box ExtRat} {z : List ℚ} {a : Answer ExtRat}

/-- The answer is the optimum with its coordinates rounded to seven places. -/
theorem x_eq_map_nearest7 {tol : ExtRat} (h : RoundedOptimum p box tol z a) :
    a.x = (z.map nearest7).map fin := by
  rw [h.x_eq, List.map_map, List.map_map]
  exact List.map_congr_left fun v _ => round7_fin v

/-- The optimum keeps every row of the data up to the tolerance. -/
theorem rows_dense (h : RoundedOptimum p box (Scalar.tenth 9) z a) (hd : d.Describes p) :
    List.Forall₂ (fun row b => ratDot row z ≤ b + 1 / 10 ^ 9) d.rows d.rhs := by
  have hrows := (hd.forall₂_rows_iff (fun v b => v ≤ b + Scalar.tenth 9) z).mp h.rows
  simp only [tenth_eq_fin, fin_add, fin_le_fin] at hrows
  exact hrows

theorem bounds_zeroOne (h : RoundedOptimum p box (Scalar.tenth 9) z a) (hbox : box.ZeroOne) :
    ∀ v ∈ z, -(1 / 10 ^ 9) ≤ v ∧ v ≤ 1 + 2 / 10 ^ 9 := by
  intro v hv
  obtain ⟨j, hj⟩ := List.mem_iff_getElem?.mp (List.mem_map_of_mem (f := fin) hv)
  obtain ⟨lo, hlo, hmarginLo⟩ := exists_getElem?_of_forall₂ h.bounds.1 hj
  obtain ⟨hi, hhi, hmarginHi⟩ := exists_getElem?_of_forall₂ h.bounds.2.flip hj
  have hlo01 := hbox lo (List.mem_append_left _ (List.mem_of_getElem? hlo))
  have hhi01 := hbox hi (List.mem_append_right _ (List.mem_of_getElem? hhi))
  have hleast : fin (-(1 / 10 ^ 9)) ≤ lo - Scalar.tenth 9 * (1 + Scalar.abs lo) := by
    rcases hlo01 with rfl | rfl <;> decide +kernel
  have hmost : hi + Scalar.tenth 9 * (1 + Scalar.abs hi) ≤ fin (1 + 2 / 10 ^ 9) := by
    rcases hhi01 with rfl | rfl <;> decide +kernel
  constructor
  · exact fin_le_fin.mp (hleast.trans (hmarginLo (Box.isFinite_of_zero_or_one hlo01)))
  · exact fin_le_fin.mp (le_trans (hmarginHi (Box.isFinite_of_zero_or_one hhi01)) hmost)

end Relaxation.RoundedOptimum

/-- A point `z` near a zero-one vector `w` that satisfies the rows and bounds up to the tolerance of
the solver. The values reported are its own, rounded to seven places, the objective reported is its
own, rounded, and `w` is what is reported, rounded to whole numbers. -/
structure DenseData.NearPoint (d : DenseData) (sol : Solution ExtRat) (z w : List ℚ) : Prop where
  length_eq : z.length = d.objective.length
  rows : List.Forall₂ (fun row b => ratDot row z ≤ b + 1 / 10 ^ 9) d.rows d.rhs
  bounds : ∀ v ∈ z, -(1 / 10 ^ 9) ≤ v ∧ v ≤ 1 + 2 / 10 ^ 9
  x_eq : sol.x = (z.map nearest7).map fin
  objective_eq : sol.objective = fin (nearest7 (d.value z))
  round_x : sol.x.map Scalar.round = w.map fin
  zeroOne : ∀ v ∈ w, v = 0 ∨ v = 1
  near : ∀ v ∈ z, |roundRat (nearest7 v) - nearest7 v| ≤ 1 / 1000

namespace Search

/-- The standard settings with another rule and another order of nodes. -/
def strategy (rule : BranchingRule ExtRat) (selection : NodeSelection) : Settings ExtRat :=
  (Settings.standard.withRule rule).withSelection selection

variable {d : DenseData} {p : Problem ExtRat} {rule : BranchingRule ExtRat}
  {selection : NodeSelection} {clock : ℕ → ℕ} {y z : List ℚ} {box : Box ExtRat}
  {a : Answer ExtRat}

/-- A search over the simplex backend with fixed settings. -/
def fixedContext (p : Problem ExtRat) (rule : BranchingRule ExtRat) (selection : NodeSelection)
    (clock : ℕ → ℕ) : Context Unit ExtRat :=
  ⟨p, strategy rule selection, fixedSimplex .standard, clock⟩

/-- A run with the simplex backend goes through cores that a run with fixed settings could be in,
and its solution is read off the last of these. -/
theorem grown_of_solve {out : Outcome (SimplexState ExtRat) ExtRat} {sol : Solution ExtRat}
    (hsolve : solve p (strategy rule selection) clock = .ok out) (hok : out.result = .ok sol)
    (hoptimal : sol.status = .optimal) :
    ∃ s : Core ExtRat, Grown (fixedContext p rule selection clock) s ∧ s.tree = out.state.tree ∧
      s.frontier.entries = [] ∧ s.incumbent.point = some sol.x ∧
      s.incumbent.objective = sol.objective := by
  obtain ⟨-, rfl⟩ := search_of_solveWith hsolve
  obtain ⟨s, hreach, hstopped, hsol, hstate⟩ := reachable_of_search hok
  obtain ⟨hgrown, -⟩ := grown_over (B := fixedSimplex .standard)
    (P := fun b : SimplexState ExtRat => b.settings = .standard) keeps_simplex
    (fun hb h => ⟨(), (outcome_fixedSimplex hb ()).trans h⟩) rfl hreach
  obtain ⟨hstatus, hentries⟩ := hstopped.eq_exhausted (by rw [hoptimal]; rfl)
  refine ⟨s.core, hgrown, ?_, hentries, ?_, ?_⟩
  · rw [hstate]
    exact (congrArg Core.tree (core_foldl_note _ s)).symm
  · -- the status says that there is a point
    rw [hoptimal] at hstatus
    unfold exhausted at hstatus
    split at hstatus
    · rename_i hpoint
      obtain ⟨x, hx⟩ := Option.isSome_iff_exists.mp hpoint
      have hread : sol.x = s.incumbent.point.getD [] := congrArg Solution.x hsol
      rw [hread, hx]
      exact hx
    · cases hstatus
  · exact (congrArg Solution.objective hsol).symm

/-- An accepted optimum is near a zero-one vector. -/
theorem exists_nearPoint {tree : Tree ExtRat} {sol : Solution ExtRat} (hd : d.Describes p)
    (haccepted : Accepted (fixedContext p rule selection clock) tree box a) (hbox : box.ZeroOne)
    (hx : sol.x = a.x) (hobjective : sol.objective = a.objective) :
    ∃ z w, d.NearPoint sol z w := by
  obtain ⟨u, hanswer⟩ := haccepted.answered
  obtain ⟨z, hz⟩ : ∃ z, RoundedOptimum p box (Scalar.tenth 9) z a :=
    exists_roundedOptimum hanswer haccepted.isOptimal
  have hlength : z.length = d.objective.length := hz.length_eq.trans hd.numVars_eq
  have hreported := hx.trans hz.x_eq_map_nearest7
  -- what is known of the reported values is read at the places of the point
  have hget : ∀ {v : ℚ}, v ∈ z →
      ∃ j, j < d.objective.length ∧ a.x[j]? = some (fin (nearest7 v)) := by
    intro v hv
    obtain ⟨j, hj⟩ := List.mem_iff_getElem?.mp hv
    refine ⟨j, lt_of_lt_of_eq (List.getElem?_eq_some_iff.mp hj).1 hlength, ?_⟩
    rw [hz.x_eq_map_nearest7, List.getElem?_map, List.getElem?_map, hj]
    rfl
  refine ⟨z, z.map fun v => roundRat (nearest7 v), hlength, hz.rows_dense hd,
    hz.bounds_zeroOne hbox, hreported, ?_, ?_, ?_, ?_⟩
  · rw [hobjective, hz.objective_eq, hd.objectiveValue_eq, round7_fin]
  · rw [hreported, List.map_map, List.map_map, List.map_map]
    rfl
  · intro k hk
    obtain ⟨v, hv, rfl⟩ := List.mem_map.mp hk
    obtain ⟨j, -, hj⟩ := hget hv
    obtain ⟨hzero, hone⟩ := hbox.value_mem (hz.contains hbox) hj
    exact roundRat_eq_zero_or_one hzero hone
  · intro v hv
    obtain ⟨j, hlt, hj⟩ := hget hv
    obtain ⟨x, hxj, hnear⟩ := Problem.of_wholeAt?_eq_true haccepted.whole j
      (hd.mem_integerVars_iff.mpr hlt)
    cases hj.symm.trans hxj
    have htol : (strategy rule selection).integralityTol = fin (1 / 10 ^ 3) := tenth_eq_fin 3
    replace hnear : Scalar.abs (fin (roundRat (nearest7 v)) - fin (nearest7 v))
        ≤ (strategy rule selection).integralityTol := hnear
    rw [htol, fin_sub, abs_fin, fin_le_fin] at hnear
    norm_num at hnear ⊢
    exact hnear

/-! ## Runs that no tolerance disturbs -/

/-- No tolerance has a say in the relaxation of any node. -/
def UndisturbedIn (p : Problem ExtRat) (tree : Tree ExtRat) : Prop :=
  ∀ id < tree.size, ∀ box ∈ tree.box? id (.root p true),
    LinearProgram.Undisturbed (p.relaxation box.lower box.upper) .standard

instance (p : Problem ExtRat) (tree : Tree ExtRat) : Decidable (UndisturbedIn p tree) :=
  inferInstanceAs (Decidable (∀ _ < _, _))

variable {s : Core ExtRat}

/-- In such a run every integer point gets its due, up to rounding. -/
theorem trusted_of_undisturbedIn (hlp : UndisturbedIn p s.tree)
    (hgrown : Grown (fixedContext p rule selection clock) s)
    (hy : p.IntegerPoint (.root p true) y) :
    Trusted (fixedContext p rule selection clock) s.tree y
      (round7 (p.objectiveValue (y.map fin))) := by
  intro id box hbox hinside u a hanswer
  have hzeroOne : box.ZeroOne := zeroOne_of_grown rfl insideZeroOne_fixedSimplex hgrown hbox
  obtain ⟨node, hnode⟩ := Tree.exists_of_box? hbox
  exact optimum_of_undisturbed hanswer (hlp id (Tree.get?_lt_size hnode) box hbox)
    (fun b hb => Box.isFinite_of_zero_or_one (hzeroOne b hb)) ⟨hinside, hy.rows⟩

/-- Where nothing is open, no integer point is better than the incumbent, up to rounding. -/
theorem le_objective_of_undisturbedIn (hlp : UndisturbedIn p s.tree)
    (hgrown : Grown (fixedContext p rule selection clock) s) (hentries : s.frontier.entries = [])
    (hy : p.IntegerPoint (.root p true) y) :
    round7 (p.objectiveValue (y.map fin)) ≤ s.incumbent.objective := by
  have htol : (0 : ExtRat) < (strategy rule selection).integralityTol := by
    show (0 : ExtRat) < Scalar.tenth 3
    decide +kernel
  have hwhole : WholePoint (fixedContext p rule selection clock) y := ⟨hy.inside, hy.whole⟩
  have hkept := kept_of_grown hwhole hgrown (trusted_of_undisturbedIn hlp hgrown hy)
  exact hkept.le_objective rfl insideZeroOne_fixedSimplex rfl htol hgrown hentries

/-- The optimum of a search over dense data, compared with the maximum over the zero-one vectors
that satisfy all rows, for every branching rule and every order of nodes. What is reported stands
for a point `z` near a zero-one vector `w`. If no tolerance had a say in the relaxation of a node,
the objective reported is not below the maximum, and if moreover `w` satisfies all rows, the two
differ by no more than the objectives of `z` and `w` do; both up to a millionth. -/
theorem optimum_near_maximum {out : Outcome (SimplexState ExtRat) ExtRat} {sol : Solution ExtRat}
    (hp : d.problem = .ok p) (hrhs : ∀ b ∈ d.rhs, 0 < b)
    (hsolve : solve p (strategy rule selection) clock = .ok out) (hok : out.result = .ok sol)
    (hoptimal : sol.status = .optimal) :
    ∃ z w m, d.NearPoint sol z w ∧ IsGreatest (Set.image d.value {y | d.Point y}) m ∧
      (UndisturbedIn p out.state.tree →
        m < sol.objective.toRat + 1 / 10 ^ 6 ∧
        (d.Point w → |sol.objective.toRat - m| < |d.value z - d.value w| + 1 / 10 ^ 6)) := by
  have hd := DenseData.describes_of_ofDense hp
  obtain ⟨s, hgrown, htree, hentries, hpoint, hobjective⟩ := grown_of_solve hsolve hok hoptimal
  -- the incumbent is an optimum that was accepted
  obtain ⟨z, w, hnear⟩ : ∃ z w, d.NearPoint sol z w := by
    rcases incumbent_of_grown hgrown with hnone | ⟨box, a, haccepted, hincumbent⟩
    · rw [hpoint] at hnone
      cases hnone
    · obtain ⟨id, hbox⟩ := haccepted.box?
      rw [hincumbent] at hpoint hobjective
      exact exists_nearPoint hd haccepted
        (zeroOne_of_grown rfl insideZeroOne_fixedSimplex hgrown hbox)
        (Option.some.inj hpoint).symm hobjective.symm
  obtain ⟨m, hm⟩ := DenseData.exists_isGreatest hd fun b hb => (hrhs b hb).le
  refine ⟨z, w, m, hnear, hm, fun hlp => ?_⟩
  obtain ⟨⟨y, hy, rfl⟩, hmax⟩ := hm
  rw [hnear.objective_eq, toRat_fin]
  -- the maximum is attained at an integer point, which the incumbent is no worse than
  have hle : nearest7 (d.value y) ≤ nearest7 (d.value z) := by
    have hreached := le_objective_of_undisturbedIn (htree ▸ hlp) hgrown hentries
      (hd.integerPoint_iff.mpr hy)
    rw [hobjective, hnear.objective_eq, hd.objectiveValue_eq, round7_fin] at hreached
    exact hreached
  have hroundY := abs_le.mp (abs_nearest7_sub_le (d.value y))
  have hroundZ := abs_le.mp (abs_nearest7_sub_le (d.value z))
  refine ⟨by linarith [hroundY.1], fun hw => ?_⟩
  have hwy : d.value w ≤ d.value y := hmax ⟨w, hw, rfl⟩
  have hgap := le_abs_self (d.value z - d.value w)
  have hgap' := abs_nonneg (d.value z - d.value w)
  rw [abs_lt]
  constructor
  · linarith [hroundY.1]
  · linarith [hroundZ.2]

/-! ## Three runs -/

/-- A run from dense data with the standard rule and order. -/
def denseRun (p : Problem ExtRat) : Outcome (SimplexState ExtRat) ExtRat :=
  search ⟨p, strategy .mostFractional .depthFirst, simplex, id⟩ (.new .standard)

/-- The settings are valid, so solving is this run. -/
theorem solve_eq_denseRun (p : Problem ExtRat) :
    solve p (strategy .mostFractional .depthFirst) id = .ok (denseRun p) := by
  with_unfolding_all rfl

theorem exists_optimum {p : Problem ExtRat} {objective : ExtRat}
    (h : (denseRun p).result.toOption.map (fun sol => (sol.status, sol.objective))
      = some (.optimal, objective)) :
    ∃ sol, (denseRun p).result = .ok sol ∧ sol.status = .optimal ∧ sol.objective = objective := by
  obtain ⟨sol, hok, hread⟩ := exists_ok_of_toOption_map h
  obtain ⟨hstatus, hobjective⟩ := Prod.mk.inj hread
  exact ⟨sol, hok, hstatus, hobjective⟩

/-- Two things that weigh three and two, of which not both fit. -/
def twoThings : DenseData := ⟨[4, 3], [[3, 2]], [4]⟩

/-- The problem of the two things. -/
def twoThingsProblem : Problem ExtRat :=
  ⟨[fin 4, fin 3], [⟨"c0", [(0, fin 3), (1, fin 2)], fin 4⟩], [.integer, .integer]⟩

theorem problem_twoThings : twoThings.problem = .ok twoThingsProblem := by
  with_unfolding_all rfl

/-- The better one is taken, and no tolerance had a say. -/
theorem optimum_near_maximum_twoThings :
    ∃ sol z w m, (denseRun twoThingsProblem).result = .ok sol ∧ sol.status = .optimal ∧
      sol.objective = fin 4 ∧ twoThings.NearPoint sol z w ∧ twoThings.Point w ∧
      IsGreatest (Set.image twoThings.value {y | twoThings.Point y}) m ∧
      |sol.objective.toRat - m| < |twoThings.value z - twoThings.value w| + 1 / 10 ^ 6 := by
  have hrun : (denseRun twoThingsProblem).result.toOption.map
      (fun sol => (sol.status, sol.objective, sol.x)) = some (.optimal, fin 4, [fin 1, fin 0]) := by
    decide +kernel
  obtain ⟨sol, hok, hread⟩ := exists_ok_of_toOption_map hrun
  obtain ⟨hstatus, hrest⟩ := Prod.mk.inj hread
  obtain ⟨hobjective, hx⟩ := Prod.mk.inj hrest
  have hlp : UndisturbedIn twoThingsProblem (denseRun twoThingsProblem).state.tree := by
    decide +kernel
  obtain ⟨z, w, m, hnear, hm, hcompare⟩ := optimum_near_maximum problem_twoThings (by decide)
    (solve_eq_denseRun _) hok hstatus
  obtain rfl : [1, 0] = w := by
    have hround := hnear.round_x
    rw [hx] at hround
    have hwhole : [fin 1, fin 0].map Scalar.round = List.map fin [1, 0] := by decide +kernel
    exact List.map_injective_iff.mpr (fun _ _ => fin.inj) (hwhole.symm.trans hround)
  have hw : twoThings.Point [1, 0] := ⟨rfl, by decide, .cons (by decide +kernel) .nil⟩
  exact ⟨sol, z, _, m, hok, hstatus, hobjective, hnear, hw, hm, (hcompare hlp).2 hw⟩

/-- One thing that weighs a little more than what fits. -/
def heavyThing : DenseData := ⟨[1], [[2000]], [1999]⟩

/-- The problem of the one thing. -/
def heavyThingProblem : Problem ExtRat :=
  ⟨[fin 1], [⟨"c0", [(0, fin 2000)], fin 1999⟩], [.integer]⟩

theorem problem_heavyThing : heavyThing.problem = .ok heavyThingProblem := by
  with_unfolding_all rfl

/-- The thing is taken up to the part that fits, which is near enough to the whole. -/
theorem result_heavyThing : ∃ sol, (denseRun heavyThingProblem).result = .ok sol ∧
    sol.status = .optimal ∧ sol.objective = fin (1999 / 2000) := by
  exact exists_optimum (by decide +kernel)

theorem isGreatest_heavyThing :
    IsGreatest (Set.image heavyThing.value {y | heavyThing.Point y}) 0 := by
  refine ⟨⟨[0], ⟨rfl, by decide, .cons (by decide +kernel) .nil⟩, by decide +kernel⟩, ?_⟩
  rintro _ ⟨y, hy, rfl⟩
  obtain ⟨v, rfl⟩ := List.length_eq_one_iff.mp hy.length_eq
  rcases hy.zeroOne v List.mem_cons_self with rfl | rfl
  · show heavyThing.value [0] ≤ 0
    decide +kernel
  · have hrow := (List.forall₂_cons.mp hy.rows).1
    norm_num [ratDot] at hrow

/-- Four things. The first goes with neither of the last two, by weights that are too small to pivot
on. -/
def tinyWeights : DenseData :=
  ⟨[12, 9, 1, 1], [[3, 2, 0, 0], [1, 0, 1 / 2 ^ 30, 1 / 2 ^ 30]], [4, 1]⟩

/-- The problem of the four things. -/
def tinyWeightsProblem : Problem ExtRat :=
  ⟨[fin 12, fin 9, fin 1, fin 1], [⟨"c0", [(0, fin 3), (1, fin 2)], fin 4⟩,
    ⟨"c1", [(0, fin 1), (2, fin (1 / 2 ^ 30)), (3, fin (1 / 2 ^ 30))], fin 1⟩],
    [.integer, .integer, .integer, .integer]⟩

theorem problem_tinyWeights : tinyWeights.problem = .ok tinyWeightsProblem := by
  with_unfolding_all rfl

/-- With the first thing in, the second row is violated and no column can enter, so this box is
given up and the other three things are taken. -/
theorem result_tinyWeights : ∃ sol, (denseRun tinyWeightsProblem).result = .ok sol ∧
    sol.status = .optimal ∧ sol.objective = fin 11 := by
  exact exists_optimum (by decide +kernel)

theorem point_tinyWeights : tinyWeights.Point [1, 0, 0, 0] :=
  ⟨rfl, by decide, .cons (by decide +kernel) (.cons (by decide +kernel) .nil)⟩

/-- An optimum can be off the maximum on both sides. The first run accepts a point that is not whole
and so reports more than any vector is worth; the second gives up a box although the best vector
lies in it. -/
theorem optimum_off_maximum :
    (∃ p out sol m, heavyThing.IsPacking ∧ heavyThing.problem = .ok p ∧
      solve p (strategy .mostFractional .depthFirst) id = .ok out ∧ out.result = .ok sol ∧
      sol.status = .optimal ∧ IsGreatest (Set.image heavyThing.value {y | heavyThing.Point y}) m ∧
      ¬ |sol.objective.toRat - m| < 1 / 10 ^ 6 ∧ m < sol.objective.toRat) ∧
    (∃ p out sol m, tinyWeights.IsPacking ∧ tinyWeights.problem = .ok p ∧
      solve p (strategy .mostFractional .depthFirst) id = .ok out ∧ out.result = .ok sol ∧
      sol.status = .optimal ∧ IsGreatest (Set.image tinyWeights.value {y | tinyWeights.Point y}) m ∧
      ¬ |sol.objective.toRat - m| < 1 / 10 ^ 6 ∧ sol.objective.toRat < m) := by
  constructor
  · obtain ⟨sol, hok, hstatus, hobjective⟩ := result_heavyThing
    refine ⟨_, _, sol, 0, by decide +kernel, problem_heavyThing, solve_eq_denseRun _, hok, hstatus,
      isGreatest_heavyThing, ?_, ?_⟩
    · rw [hobjective]
      norm_num
    · rw [hobjective]
      norm_num
  · obtain ⟨sol, hok, hstatus, hobjective⟩ := result_tinyWeights
    obtain ⟨m, hm⟩ := DenseData.exists_isGreatest
      (DenseData.describes_of_ofDense problem_tinyWeights) (by decide +kernel)
    have hbest : 12 ≤ m := hm.2 ⟨_, point_tinyWeights, by decide +kernel⟩
    refine ⟨_, _, sol, m, by decide +kernel, problem_tinyWeights, solve_eq_denseRun _, hok, hstatus,
      hm, ?_, ?_⟩
    · rw [hobjective, toRat_fin, abs_lt]
      intro hclose
      linarith [hclose.1]
    · rw [hobjective, toRat_fin]
      linarith

end Search

end BranchBound
