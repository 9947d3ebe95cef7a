import BranchBound.Proofs.Search.Lockstep
import BranchBound.Proofs.Search.OrderIndependence
import BranchBound.Proofs.Search.Selection

/-!
# Hybrid branching over an exact backend

Hybrid branching solves the relaxation once more with a variable held between its two whole
neighbours. The optimum of the node has a value there, so the held relaxation is no worse, and over
an exact backend no loss ever shows. What is left is the best candidate by pseudocost, which is what
pseudocost branching takes.

* `Backend.ExactOn`: what an exact backend answers.
* `Scoring.coupled_probe`: probing never changes the choice.
* `Search.respects_twin`: hybrid and pseudocost branching go in lockstep.
* `Search.hybrid_report_eq`: their runs report the same.
-/

namespace BranchBound

open Relaxation

/-! ## Exact backends -/

/-- A backend whose answers depend on the box and the limit alone, and are exact in every box that
branches lead to: without a limit an optimum with its value, or that there is no point; with a limit
the same, or an upper bound. Where an answer has a point, it gives a value to every variable. -/
structure Relaxation.Backend.ExactOn {σ : Type} (B : Backend σ ExtRat) (p : Problem ExtRat)
    (root : Box ExtRat) (answer : Box ExtRat → Option ℕ → Answer ExtRat) : Prop where
  answers : ∀ {box}, root.Reaches box → ∀ cap s,
    (B.solve p box cap s).1.outcome = .ok (answer box cap)
  wellFormed : ∀ {box}, root.Reaches box → ∀ cap, Oracle.wellFormed p (answer box cap) = true
  optimum : ∀ {box}, root.Reaches box → (answer box none).status = .optimal →
    ∃ y, p.RelaxedPoint box y ∧ (answer box none).x = y.map .fin ∧
      (answer box none).objective = p.objectiveValue (y.map .fin) ∧
      ∀ z, p.RelaxedPoint box z → p.objectiveValue (z.map .fin) ≤ (answer box none).objective
  infeasible : ∀ {box}, root.Reaches box →
    ((answer box none).status = .infeasible ↔ ∀ y, ¬ p.RelaxedPoint box y)
  not_limited : ∀ {box}, root.Reaches box → (answer box none).status ≠ .iterationLimit
  capped : ∀ {box}, root.Reaches box → ∀ n,
    ((answer box (some n)).status = (answer box none).status ∧
      (answer box (some n)).x = (answer box none).x ∧
      (answer box (some n)).objective = (answer box none).objective) ∨
    ((answer box (some n)).status = .iterationLimit ∧
      ∀ z, p.RelaxedPoint box z → p.objectiveValue (z.map .fin) ≤ (answer box (some n)).objective)

namespace Relaxation.Backend.ExactOn

variable {σ : Type} {B : Backend σ ExtRat} {p : Problem ExtRat} {root box : Box ExtRat}
  {answer : Box ExtRat → Option ℕ → Answer ExtRat} (h : B.ExactOn p root answer)

include h

/-- In every box the search can reach, the node gets the answer of the box. -/
theorem outcome_solveNode (hbox : root.Reaches box) (o : Oracle σ) :
    (Oracle.solveNode B p box o).1.outcome = .ok (answer box none) :=
  Oracle.outcome_call (h.answers hbox none o.backend) (h.wellFormed hbox none)

/-- So does a capped request, under its cap. -/
theorem outcome_resolve (hbox : root.Reaches box) (cap : ℕ) (o : Oracle σ) :
    (Oracle.resolve B p box cap o).1.outcome = .ok (answer box (some (max cap 1))) :=
  Oracle.outcome_call (h.answers hbox _ o.backend) (h.wellFormed hbox _)

/-- No point of a box is above an answer under a limit. -/
theorem le_objective_capped (hbox : root.Reaches box) (n : ℕ) {z : List ℚ}
    (hz : p.RelaxedPoint box z) :
    p.objectiveValue (z.map .fin) ≤ (answer box (some n)).objective := by
  rcases h.capped hbox n with ⟨-, -, hobjective⟩ | ⟨-, hle⟩
  · have hoptimal : (answer box none).status = .optimal := by
      cases hanswer : (answer box none).status with
      | optimal => rfl
      | infeasible => exact absurd hz ((h.infeasible hbox).mp hanswer z)
      | iterationLimit => exact absurd hanswer (h.not_limited hbox)
    obtain ⟨-, -, -, -, hmax⟩ := h.optimum hbox hoptimal
    rw [hobjective]
    exact hmax z hz
  · exact hle z hz

end Relaxation.Backend.ExactOn

/-! ## Held variables -/

/-- A variable can be held around its value, and the point stays in the box. -/
theorem Scoring.exists_heldBox? {root box : Box ExtRat} {x : List ExtRat} {c : Candidate ExtRat}
    (hroot : root.Reaches box) (hbox : box.Contains x) (hc : x[c.var]? = some c.value) :
    ∃ held, heldBox? box c = some held ∧ root.Reaches held ∧ held.Contains x := by
  have hvar : c.var < x.length := (List.getElem?_eq_some_iff.mp hc).1
  have hlower : c.var < box.lower.length := hvar.trans_eq hbox.1.length_eq.symm
  have hupper : c.var < box.upper.length := hvar.trans_eq hbox.2.length_eq
  -- both bounds are those of branches
  let above : Branch ExtRat := ⟨c.var, c.value, .up, Scalar.floor c.value⟩
  let below : Branch ExtRat := ⟨c.var, c.value, .down, Scalar.ceil c.value⟩
  obtain ⟨raised, hraised⟩ := Branch.exists_restrict? (b := above) hlower hupper
  obtain ⟨hlower', hupper'⟩ := Branch.length_of_restrict? hraised
  obtain ⟨held, hheld⟩ := Branch.exists_restrict? (b := below) (hlower.trans_eq hlower'.symm)
    (hupper.trans_eq hupper'.symm)
  refine ⟨held, ?_, (hroot.restrict? hraised).restrict? hheld, ?_⟩
  · unfold heldBox?
    rw [show box.tightenLower? c.var (Scalar.floor c.value) = some raised from hraised]
    exact hheld
  · rw [Box.contains_of_restrict? hheld, Box.contains_of_restrict? hraised]
    exact ⟨⟨hbox, c.value, hc, ExtRat.floor_le _⟩, c.value, hc, ExtRat.le_ceil _⟩

theorem Scoring.not_progressTol_lt {loss : ExtRat} (h : loss ≤ 0) : ¬ progressTol < loss - 0 := by
  have htol : (0 : ExtRat) ≤ progressTol := by decide +kernel
  exact not_lt.mpr ((ExtRat.sub_nonpos_of_le h).trans htol)

/-! ## Both rules in lockstep -/

/-- Hybrid branching, or what it gave way to, beside pseudocost branching with the same
pseudocosts. -/
structure Scoring.Twin {σ α : Type} (s t : Scoring σ α) : Prop where
  table : s.table = t.table
  rule : s.rule = .hybrid ∨ s.rule = .pseudocost
  rule_eq : t.rule = .pseudocost

namespace Scoring

variable {σ : Type} {B : Backend σ ExtRat} {p : Problem ExtRat} {root : Box ExtRat}
  {answer : Box ExtRat → Option ℕ → Answer ExtRat} {node : NodePoint ExtRat}
  {s t : Scoring σ ExtRat}

theorem coupled_learn (branch : Branch ExtRat) (parent child : ExtRat) :
    Coupled Twin (learn branch parent child : ScoringM σ ExtRat Unit)
      (learn branch parent child) := by
  unfold learn
  refine coupled_get_bind fun s t hst => ?_
  rw [hst.table]
  refine coupled_bind (coupled_inRange _ _) fun learned => ?_
  obtain ⟨table, changed⟩ := learned
  refine coupled_bind (coupled_set ⟨rfl, hst.rule, hst.rule_eq⟩) fun _ => ?_
  cases changed with
  | none => exact coupled_pure _
  | some entry => exact coupled_modify fun _ _ hst => ⟨hst.table, hst.rule, hst.rule_eq⟩

/-- Requests with the same outcome from every state of the oracle. -/
theorem coupled_ask {request : Oracle σ → Reply ExtRat × Oracle σ} {a : Answer ExtRat}
    (h : ∀ o, (request o).1.outcome = .ok a) : Coupled Twin (ask request) (ask request) := by
  intro s t hst
  rw [run_ask, run_ask, h, h]
  exact ⟨rfl, hst.table, hst.rule, hst.rule_eq⟩

/-- A request that one side makes alone. -/
theorem coupled_ask_bind {β : Type} {request : Oracle σ → Reply ExtRat × Oracle σ}
    {a : Answer ExtRat} (h : ∀ o, (request o).1.outcome = .ok a)
    {g : Answer ExtRat → ScoringM σ ExtRat β} {y : ScoringM σ ExtRat β}
    (hgy : Coupled Twin (g a) y) : Coupled Twin (ask request >>= g) y := by
  intro s t hst
  rw [run_bind, run_ask, h]
  exact hgy _ t ⟨hst.table, hst.rule, hst.rule_eq⟩

/-- Hybrid branching may give way on its own. -/
theorem coupled_switchRule (limit depth : ℕ) :
    Coupled Twin (switchRule limit depth : ScoringM σ ExtRat Unit) (switchRule limit depth) := by
  unfold switchRule
  refine coupled_get_bind fun s t hst => ?_
  rw [hst.rule_eq]
  rcases hst.rule with hrule | hrule
  · rw [hrule]
    dsimp only
    split
    · exact fun _ _ hst => ⟨rfl, hst.table, .inr rfl, hst.rule_eq⟩
    · exact coupled_pure _
  · rw [hrule]
    exact coupled_pure _

section Exact

-- the optimum of a node
variable {y : List ℚ} (hexact : B.ExactOn p root answer) (hreach : root.Reaches node.box)
  (hy : p.RelaxedPoint node.box y) (hx : node.x = y.map .fin)
  (hrelax : node.relax = p.objectiveValue (y.map .fin))

include hexact hreach hy hx hrelax

/-- Probing never changes the choice: the optimum of the node stays in every held box, so no answer
shows a loss. -/
theorem coupled_probe (cap : ℕ) {cs : List (Candidate ExtRat)}
    (hcs : ∀ c ∈ cs, node.x[c.var]? = some c.value) (chosen : Candidate ExtRat) :
    Coupled Twin (probe B p node cap cs 0 chosen) (pure chosen) := by
  induction cs with
  | nil => exact coupled_pure chosen
  | cons c cs ih =>
    obtain ⟨hc, hcs⟩ := List.forall_mem_cons.mp hcs
    rw [hx] at hc
    obtain ⟨held, hheld, hroot, hinside⟩ := exists_heldBox? hreach hy.inside hc
    have hle := hexact.le_objective_capped hroot (max cap 1) ⟨hinside, hy.rows⟩
    rw [← hrelax] at hle
    unfold probe
    rw [hheld]
    refine coupled_ask_bind (hexact.outcome_resolve hroot cap) ?_
    dsimp only
    rw [if_neg fun hloss => not_progressTol_lt (ExtRat.sub_nonpos_of_le hle) hloss.2]
    exact ih hcs

/-- Hybrid branching chooses what pseudocost branching chooses. -/
theorem coupled_choose {first : ℕ × ExtRat} {rest : List (ℕ × ExtRat)}
    (hfs : ∀ f ∈ first :: rest, node.x[f.1]? = some f.2) (hst : Twin s t) :
    Coupled Twin (choose B p node s.rule first rest) (choose B p node t.rule first rest) := by
  rw [hst.rule_eq]
  rcases hst.rule with hrule | hrule
  · rw [hrule]
    unfold choose selectHybrid
    dsimp only
    refine coupled_get_bind fun s t hst => ?_
    rw [hst.table]
    refine coupled_bind_of_runs (P := fun d => d.fraction = first) (coupled_inRange _ _) ?_ ?_
    · intro _ d _ hd
      exact Candidate.fraction_byPseudocost? (runs_inRange_iff.mp hd).1
    intro d hd
    refine coupled_bind_of_runs (P := fun ds => ds.map Candidate.fraction = rest)
      (coupled_mapM (fun f => coupled_inRange _ _) rest) ?_ ?_
    · intro _ ds _ hds
      exact map_fraction_of_runs_mapM (fun _ _ => Candidate.fraction_byPseudocost?) hds
    intro ds hds
    rw [Candidate.head?_ranking, Option.getD_some]
    refine coupled_probe hexact hreach hy hx hrelax _ (fun c hc => ?_) _
    have hmem : c ∈ d :: ds := List.mem_mergeSort.mp (List.mem_of_mem_take hc)
    exact hfs _ (Candidate.fraction_mem_of_mem (by rw [List.map_cons, hd, hds]) hmem)
  · rw [hrule]
    unfold choose
    dsimp only
    refine coupled_get_bind fun s t hst => ?_
    rw [hst.table]
    exact coupled_bind (coupled_inRange _ _) fun d =>
      coupled_bind (coupled_mapM (fun f => coupled_inRange _ _) rest) fun ds => coupled_pure _

/-- Choosing a variable goes alike under both rules. -/
theorem coupled_select (limit : ℕ) :
    Coupled Twin (select B p limit node) (select B p limit node) := by
  unfold select
  refine coupled_bind_of_runs (P := (p.fractional? node.x = some ·)) (coupled_inRange _ _) ?_ ?_
  · intro _ fs _ hfs
    exact (runs_inRange_iff.mp hfs).1
  intro fs hfs
  cases fs with
  | nil => exact coupled_pure none
  | cons first rest =>
    refine coupled_bind (coupled_switchRule limit node.depth) fun _ => ?_
    refine coupled_get_bind fun s t hst => coupled_map some ?_
    exact coupled_choose hexact hreach hy hx hrelax
      (fun f hf => (Problem.fractional?_spec hfs hf).2.1) hst

end Exact

end Scoring

namespace Search

variable {σ : Type} {ctx : Context σ ExtRat} {answer : Box ExtRat → Option ℕ → Answer ExtRat}

/-- Over an exact backend, hybrid and pseudocost branching go in lockstep. -/
theorem respects_twin (hexact : ctx.backend.ExactOn ctx.problem ctx.rootBox answer) :
    Respects ctx ctx.backend Scoring.Twin where
  journal _ _ h := ⟨h.table, h.rule, h.rule_eq⟩
  table h := h.table
  learn := Scoring.coupled_learn
  ask hbox := Scoring.coupled_ask (hexact.outcome_solveNode hbox)
  select := by
    intro box a s t depth hbox hask hoptimal
    have hanswer := (Scoring.outcome_of_runs_ask hask).symm.trans (hexact.outcome_solveNode hbox _)
    cases hanswer
    obtain ⟨y, hy, hx, hobjective, -⟩ := hexact.optimum hbox (of_decide_eq_true hoptimal)
    exact Scoring.coupled_select hexact hbox hy hx hobjective _

/-- What solving reports is what the search reports, if the settings are valid. -/
theorem report_solveWith (ctx : Context σ ExtRat) (backend : σ) :
    (solveWith ctx backend).map Outcome.report
      = ctx.settings.validate.map fun _ => (search ctx backend).report := by
  unfold solveWith
  cases ctx.settings.validate <;> rfl

/-- Hybrid branching decides nothing over an exact backend. Without a time limit, a search with
hybrid branching and the same search with pseudocost branching tell of the same steps and have the
same result, with whatever clocks they run: the same status, point, objective, bound and gap, or the
same error. -/
theorem hybrid_report_eq (hexact : ctx.backend.ExactOn ctx.problem ctx.rootBox answer)
    (hrule : ctx.settings.rule = .hybrid) (htime : ctx.settings.timeLimit = none)
    (clock : ℕ → ℕ) (backend : σ) :
    (solveWith ctx backend).map Outcome.report
      = (solveWith (ctx.under .pseudocost clock) backend).map Outcome.report := by
  have hvalidate : (ctx.under .pseudocost clock).settings.validate = ctx.settings.validate := by
    unfold Settings.validate
    rw [hrule]
    rfl
  have hinitial : (initial ctx backend).Agrees Scoring.Twin
      (initial (ctx.under .pseudocost clock) backend) :=
    ⟨(initial ctx backend).scoring, rfl, rfl, .inl hrule, rfl⟩
  rw [report_solveWith, report_solveWith, hvalidate,
    (respects_twin hexact).report_search_eq htime hinitial]

/-! ## One variable -/

/-- The largest value whose double is within a limit, or one more where iterations are limited. -/
def earlyAnswer (b : ℚ) (box : Box ExtRat) : Option ℕ → Answer ExtRat
  | none => doubledAnswer b box
  | some _ =>
    if (doubledAnswer b box).isOptimal = true then
      ⟨.iterationLimit, (doubledAnswer b box).x, (doubledAnswer b box).objective + 1, 1⟩
    else doubledAnswer b box

/-- A backend that stops early wherever it may. -/
def earlyBackend (b : ℚ) : Backend Unit ExtRat where
  solve _ box cap s := (⟨.ok (earlyAnswer b box cap), []⟩, s)
  setMode _ s := ([], s)

theorem doubledAnswer_of_not_isOptimal {b : ℚ} {box : Box ExtRat}
    (h : ¬ (doubledAnswer b box).isOptimal = true) : doubledAnswer b box = .infeasible 0 := by
  unfold doubledAnswer at h ⊢
  split
  · rename_i lo hi
    dsimp only at h
    split
    · rename_i q hq
      rw [hq] at h
      split
      · rename_i hle
        simp [hle, Answer.isOptimal] at h
      · rfl
    · rfl
  · rfl

/-- Where the box has a point, the answer is optimal. -/
theorem doubledAnswer_isOptimal_of_relaxedPoint {b : ℚ} {lo hi : ExtRat} {y : List ℚ}
    (hy : (doubled b).RelaxedPoint ⟨[lo], [hi]⟩ y) :
    (doubledAnswer b ⟨[lo], [hi]⟩).isOptimal = true := by
  obtain ⟨r, -, hlo, hle⟩ := exists_of_relaxedPoint_doubled hy
  obtain ⟨q, hq⟩ : ∃ q, min hi (.fin (b / 2)) = .fin q :=
    ⟨_, (ExtRat.fin_toRat_of_le_of_le hle (min_le_right hi (.fin (b / 2)))).symm⟩
  rw [hq] at hle
  unfold doubledAnswer
  dsimp only
  rw [hq]
  dsimp only
  rw [if_pos (hlo.trans hle)]
  rfl

/-- The answer is a point of the box, and the largest one. -/
theorem optimum_doubledAnswer {b : ℚ} {box : Box ExtRat}
    (h : (doubledAnswer b box).isOptimal = true) :
    ∃ y, (doubled b).RelaxedPoint box y ∧ (doubledAnswer b box).x = y.map .fin ∧
      (doubledAnswer b box).objective = (doubled b).objectiveValue (y.map .fin) ∧
      ∀ z, (doubled b).RelaxedPoint box z →
        (doubled b).objectiveValue (z.map .fin) ≤ (doubledAnswer b box).objective := by
  obtain ⟨lo, hi, q, rfl, hq, hle, hanswer⟩ := doubledAnswer_isOptimal h
  rw [hanswer]
  refine ⟨[q], ⟨⟨.cons hle .nil, .cons ?_ .nil⟩, ?_⟩, rfl, (objectiveValue_doubled b q).symm, ?_⟩
  · exact hq ▸ min_le_left _ _
  · intro r hr
    rw [List.mem_singleton.mp hr]
    show ExtRat.fin 0 + .fin 2 * .fin q ≤ .fin b
    have hhalf : ExtRat.fin q ≤ .fin (b / 2) := hq ▸ min_le_right _ _
    rw [ExtRat.fin_le_fin] at hhalf
    rw [ExtRat.fin_mul, ExtRat.fin_add, ExtRat.fin_le_fin]
    linarith
  · intro z hz
    obtain ⟨r, rfl, -, hr⟩ := exists_of_relaxedPoint_doubled hz
    rw [List.map_singleton, objectiveValue_doubled, ← hq]
    exact hr

theorem wellFormed_earlyAnswer (b : ℚ) (box : Box ExtRat) (cap : Option ℕ) :
    Oracle.wellFormed (doubled b) (earlyAnswer b box cap) = true := by
  by_cases hoptimal : (doubledAnswer b box).isOptimal = true
  · obtain ⟨lo, hi, q, rfl, -, -, hanswer⟩ := doubledAnswer_isOptimal hoptimal
    cases cap <;> simp only [earlyAnswer, hanswer] <;> rfl
  · have hanswer := doubledAnswer_of_not_isOptimal hoptimal
    cases cap <;> simp only [earlyAnswer, hanswer] <;> rfl

theorem exactOn_early (b : ℚ) {root : Box ExtRat} (hlower : root.lower.length = 1)
    (hupper : root.upper.length = 1) :
    (earlyBackend b).ExactOn (doubled b) root (earlyAnswer b) where
  answers _ _ _ := rfl
  wellFormed _ := wellFormed_earlyAnswer b _
  optimum _ hoptimal := optimum_doubledAnswer (decide_eq_true hoptimal)
  infeasible := by
    intro box hbox
    show (doubledAnswer b box).status = .infeasible ↔ _
    constructor
    · intro hstatus y hy
      obtain ⟨hlo, hhi⟩ := hbox.length_eq
      obtain ⟨los, his⟩ := box
      obtain ⟨lo, rfl⟩ := List.length_eq_one_iff.mp (hlo.trans hlower)
      obtain ⟨hi, rfl⟩ := List.length_eq_one_iff.mp (hhi.trans hupper)
      have hoptimal := doubledAnswer_isOptimal_of_relaxedPoint hy
      rw [Answer.isOptimal, hstatus] at hoptimal
      cases hoptimal
    · intro hnone
      rw [doubledAnswer_of_not_isOptimal]
      · rfl
      · intro hoptimal
        obtain ⟨y, hy, -⟩ := optimum_doubledAnswer hoptimal
        exact hnone y hy
  not_limited := by
    intro box _
    show (doubledAnswer b box).status ≠ .iterationLimit
    by_cases hoptimal : (doubledAnswer b box).isOptimal = true
    · rw [of_decide_eq_true hoptimal]
      exact Status.noConfusion
    · rw [doubledAnswer_of_not_isOptimal hoptimal]
      exact Status.noConfusion
  capped := by
    intro box _ n
    by_cases hoptimal : (doubledAnswer b box).isOptimal = true
    · right
      obtain ⟨-, -, -, -, hmax⟩ := optimum_doubledAnswer hoptimal
      unfold earlyAnswer
      dsimp only
      rw [if_pos hoptimal]
      refine ⟨rfl, fun z hz => (hmax z hz).trans (ExtRat.le_add_of_nonneg _ ?_)⟩
      exact le_of_lt (by decide +kernel)
    · left
      unfold earlyAnswer
      dsimp only
      rw [if_neg hoptimal]
      exact ⟨rfl, rfl, rfl⟩

/-- A search with hybrid branching for the largest whole number whose double is at most three. -/
def hybridSearch : Context Unit ExtRat :=
  ⟨doubled 3, Settings.standard.generalInteger.withRule .hybrid, earlyBackend 3, id⟩

/-- Status and objective of a search with hybrid branching, read off the one with pseudocost
branching. -/
theorem hybrid_report_eq_doubled :
    (solveWith hybridSearch ()).map Outcome.report
      = (solveWith (hybridSearch.under .pseudocost id) ()).map Outcome.report ∧
    ((solveWith hybridSearch ()).map Outcome.report).toOption.map
      (fun report => report.2.toOption.map fun sol => (sol.1, sol.2.2.1))
      = some (some (.optimal, 1)) := by
  have hexact : hybridSearch.backend.ExactOn hybridSearch.problem hybridSearch.rootBox _ :=
    exactOn_early 3 rfl rfl
  have hsame := hybrid_report_eq hexact rfl rfl id ()
  refine ⟨hsame, ?_⟩
  rw [hsame]
  decide +kernel

end Search

end BranchBound
