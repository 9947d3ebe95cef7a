import BranchBound.Proofs.Search.Delivers
import BranchBound.Proofs.Search.ReliabilityWalk

/-!
# What hybrid branching does

The better half of the candidates by pseudocost, and at least one, is solved once each, in the order
of the ranking and within one limit. A candidate replaces the one chosen so far only if its loss is
larger by more than a tolerance, so what is chosen need not have the largest loss, but no loss
exceeds it by more than the tolerance. Pseudocosts stay as they are.

* `Kept`: the candidate that is kept against the losses that were measured.
* `exists_runs_probe`: the loop keeps one.
* `Shortlist`, `Shortlist.Chooses`: the candidates, those that are solved, and the choice.
* `selectHybrid_spec`: hybrid branching meets its definition.
-/

namespace BranchBound.Scoring

open Relaxation

variable {σ : Type}

/-! ## Losses beyond a tolerance -/

/-- The best loss so far is not negative, so a loss is compared with it without subtracting
infinities of one sign. -/
theorem tol_lt_sub_iff {tol : ℚ} {top loss : ExtRat} (htop : 0 ≤ top) :
    .fin tol < loss - top ↔ top + .fin tol < loss := by
  cases top with
  | negInf => exact htop.elim
  | fin top =>
    cases loss with
    | negInf => exact Iff.rfl
    | fin loss =>
      rw [ExtRat.fin_sub, ExtRat.fin_add, ExtRat.fin_lt_fin, ExtRat.fin_lt_fin, lt_sub_iff_add_lt,
        add_comm]
    | posInf => exact Iff.rfl
  | posInf => cases loss <;> exact Iff.rfl

/-- The tolerance by which a loss has to exceed the best one so far. -/
theorem progressTol_eq : (progressTol : ExtRat) = .fin (1 / 10 ^ 8) := ExtRat.tenth_eq_fin 8

theorem progressTol_nonneg : (0 : ExtRat) ≤ progressTol := by decide +kernel

/-- The loss that the solve of a candidate shows, if its answer has a bound. -/
def Shows (relax : ExtRat) (q : Candidate ExtRat × Probe ExtRat) (loss : ExtRat) : Prop :=
  q.2.answer.hasBound = true ∧ relax - q.2.answer.objective = loss

/-- The candidate that is kept after some solves: the one chosen before, if no loss exceeds the best
one so far by more than the tolerance, or one whose loss does, and is exceeded by none by more than
the tolerance. -/
inductive Kept (relax top : ExtRat) (chosen : Candidate ExtRat)
    (probes : List (Candidate ExtRat × Probe ExtRat)) : Candidate ExtRat → Prop
  | chosen (h : ∀ q ∈ probes, ∀ loss, Shows relax q loss → loss ≤ top + progressTol) :
      Kept relax top chosen probes chosen
  | probed {w v} (hw : w ∈ probes) (hshows : Shows relax w v) (hbeats : top + progressTol < v)
      (hmax : ∀ q ∈ probes, ∀ loss, Shows relax q loss → loss ≤ v + progressTol) :
      Kept relax top chosen probes w.1

section Kept

variable {relax top v : ExtRat} {chosen final : Candidate ExtRat}
  {q : Candidate ExtRat × Probe ExtRat} {probes : List (Candidate ExtRat × Probe ExtRat)}

/-- A solve whose loss does not exceed the best one so far by enough changes nothing. -/
theorem Kept.skip (hq : ∀ loss, Shows relax q loss → loss ≤ top + progressTol)
    (h : Kept relax top chosen probes final) : Kept relax top chosen (q :: probes) final := by
  cases h with
  | chosen h => exact .chosen (List.forall_mem_cons.mpr ⟨hq, h⟩)
  | @probed w v hw hshows hbeats hmax =>
    refine .probed (List.mem_cons_of_mem q hw) hshows hbeats
      (List.forall_mem_cons.mpr ⟨fun loss hloss => ?_, hmax⟩)
    exact (hq loss hloss).trans (hbeats.le.trans (ExtRat.le_add_of_nonneg v progressTol_nonneg))

/-- A solve whose loss does is the choice that the others have to beat. -/
theorem Kept.replace (hq : Shows relax q v) (hbeats : top + progressTol < v)
    (h : Kept relax v q.1 probes final) : Kept relax top chosen (q :: probes) final := by
  have hself : ∀ loss, Shows relax q loss → loss = v := fun loss hloss => hloss.2.symm.trans hq.2
  cases h with
  | chosen h =>
    refine .probed List.mem_cons_self hq hbeats (List.forall_mem_cons.mpr ⟨fun loss hloss => ?_, h⟩)
    rw [hself loss hloss]
    exact ExtRat.le_add_of_nonneg v progressTol_nonneg
  | @probed w u hw hshows hbeats' hmax =>
    have hle : v ≤ u := (ExtRat.le_add_of_nonneg v progressTol_nonneg).trans hbeats'.le
    refine .probed (List.mem_cons_of_mem q hw) hshows (hbeats.trans_le hle)
      (List.forall_mem_cons.mpr ⟨fun loss hloss => ?_, hmax⟩)
    rw [hself loss hloss]
    exact hle.trans (ExtRat.le_add_of_nonneg u progressTol_nonneg)

end Kept

/-! ## The loop -/

section Loop

variable {B : Backend σ ExtRat} {p : Problem ExtRat} {P : σ → Prop} {node : NodePoint ExtRat}
  {cap : ℕ}

/-- A variable with pseudocosts, which can be held around its value in a box where the backend
answers. -/
structure Holdable (B : Backend σ ExtRat) (p : Problem ExtRat) (P : σ → Prop)
    (node : NodePoint ExtRat) (cap : ℕ) (t : PseudocostTable ExtRat) (f : ℕ × ExtRat) : Prop where
  entry : ∀ sense, f.1 < (t.side sense).length
  held : ∀ c : Candidate ExtRat, c.fraction = f →
    ∃ box, heldBox? node.box c = some box ∧ B.AnswersIn p P (max cap 1) box

/-- The loop solves each candidate once, in order, and keeps one of them or the one chosen before.
-/
theorem exists_runs_probe {t : PseudocostTable ExtRat} {cs : List (Candidate ExtRat)}
    (hcs : ∀ c ∈ cs, Holdable B p P node cap t c.fraction)
    {s : Scoring (σ × List (Exchange ExtRat)) ExtRat} (hs : P s.oracle.backend.1) {top : ExtRat}
    (htop : 0 ≤ top) (chosen : Candidate ExtRat) :
    ∃ final u, Runs (probe (transcribing B) p node cap cs top chosen) s final u ∧
      ∃ probes : List (Candidate ExtRat × Probe ExtRat), probes.map Prod.fst = cs ∧
        (∀ q ∈ probes, heldBox? node.box q.1 = some q.2.box) ∧
        Kept node.relax top chosen probes final ∧
        Leaves P (probes.map fun q => q.2.exchange cap) [] s u ∧ u.table = s.table := by
  induction cs generalizing s top chosen with
  | nil =>
    rw [probe]
    exact ⟨chosen, s, runs_pure_iff.mpr ⟨rfl, rfl⟩, [], rfl, List.forall_mem_nil _,
      .chosen (List.forall_mem_nil _), .refl hs, rfl⟩
  | cons c cs ih =>
    obtain ⟨hc, hcs⟩ := List.forall_mem_cons.mp hcs
    obtain ⟨box, hbox, hanswers⟩ := hc.held c rfl
    obtain ⟨a, r, hask, htable, hlog, hbackend⟩ := exists_runs_resolve hanswers hs
    have hleaves : Leaves P [Probe.exchange cap ⟨box, a⟩] [] s r :=
      ⟨hlog, htable ▸ .refl _ _, hbackend⟩
    rw [probe]
    refine exists_runs_bind_of (runs_inRange_iff.mpr ⟨hbox, rfl⟩) (exists_runs_bind_of hask ?_)
    dsimp only
    split
    case isTrue hbeats =>
      have hlt : top + progressTol < node.relax - a.objective := by
        rw [progressTol_eq] at hbeats ⊢
        exact (tol_lt_sub_iff htop).mp hbeats.2
      have hpos : 0 ≤ node.relax - a.objective :=
        htop.trans ((ExtRat.le_add_of_nonneg top progressTol_nonneg).trans hlt.le)
      obtain ⟨final, u, hrun, probes, hfst, hheld, hkept, hrest, htable'⟩ := ih hcs hbackend hpos c
      exact ⟨final, u, hrun, (c, ⟨box, a⟩) :: probes, congrArg (c :: ·) hfst,
        List.forall_mem_cons.mpr ⟨hbox, hheld⟩, hkept.replace ⟨hbeats.1, rfl⟩ hlt,
        hleaves.trans hrest, htable'.trans htable⟩
    case isFalse hnot =>
      have hle : ∀ loss, Shows node.relax (c, ⟨box, a⟩) loss → loss ≤ top + progressTol := by
        rintro _ ⟨hbound, rfl⟩
        rw [progressTol_eq] at hnot ⊢
        exact not_lt.mp fun hlt => hnot ⟨hbound, (tol_lt_sub_iff htop).mpr hlt⟩
      obtain ⟨final, u, hrun, probes, hfst, hheld, hkept, hrest, htable'⟩ :=
        ih hcs hbackend htop chosen
      exact ⟨final, u, hrun, (c, ⟨box, a⟩) :: probes, congrArg (c :: ·) hfst,
        List.forall_mem_cons.mpr ⟨hbox, hheld⟩, hkept.skip hle, hleaves.trans hrest,
        htable'.trans htable⟩

end Loop

/-! ## Hybrid branching -/

/-- Hybrid branching as its definition has it: which candidates are solved, and with which
answers. -/
structure Shortlist (t : PseudocostTable ExtRat) (node : NodePoint ExtRat)
    (fs : List (ℕ × ExtRat)) where
  candidates : List (Candidate ExtRat)
  /-- The score of a candidate is that of the table. -/
  predicted : List.Forall₂ (fun f c => c.fraction = f ∧ t.score? f.1 f.2 = some c.score) fs
    candidates
  /-- The candidates by falling score, equal ones in the order they were given in. -/
  order : List (Candidate ExtRat)
  ranked : Candidate.Ranks candidates order
  /-- The candidates that are solved. -/
  probes : List (Candidate ExtRat × Probe ExtRat)
  probed : probes.map Prod.fst = order.take (max 1 (fs.length / 2))
  /-- Each is solved with its variable held between the whole numbers around its value. -/
  held : ∀ q ∈ probes, heldBox? node.box q.1 = some q.2.box

/-- The choice from a shortlist. -/
structure Shortlist.Chooses {t : PseudocostTable ExtRat} {node : NodePoint ExtRat}
    {fs : List (ℕ × ExtRat)} (list : Shortlist t node fs) (chosen : Candidate ExtRat) : Prop where
  /-- Where some loss is large enough, the choice has one, and none is much larger. -/
  probed : (∃ q ∈ list.probes, ∃ loss, Shows node.relax q loss ∧ progressTol < loss) →
    ∃ w ∈ list.probes, w.1 = chosen ∧ ∃ v, Shows node.relax w v ∧ progressTol < v ∧
      ∀ q ∈ list.probes, ∀ loss, Shows node.relax q loss → loss ≤ v + progressTol
  /-- Otherwise it is the best candidate by pseudocost. -/
  first : (∀ q ∈ list.probes, ∀ loss, Shows node.relax q loss → loss ≤ progressTol) →
    list.order.head? = some chosen

section Hybrid

variable {B : Backend σ ExtRat} {p : Problem ExtRat} {P : σ → Prop} {node : NodePoint ExtRat}
  {t : PseudocostTable ExtRat} {fs : List (ℕ × ExtRat)}

/-- What the loop keeps is what the shortlist chooses. -/
theorem Shortlist.chooses_of_kept {list : Shortlist t node fs} {first chosen : Candidate ExtRat}
    (hfirst : list.order.head? = some first) (h : Kept node.relax 0 first list.probes chosen) :
    list.Chooses chosen := by
  have hzero : (0 : ExtRat) + progressTol = progressTol := by
    rw [progressTol_eq, ExtRat.zero_eq_fin, ExtRat.fin_add, zero_add]
  cases h with
  | chosen h =>
    rw [hzero] at h
    refine ⟨fun ⟨q, hq, loss, hshows, hlt⟩ => ?_, fun _ => hfirst⟩
    exact absurd (h q hq loss hshows) (not_le.mpr hlt)
  | @probed w v hw hshows hbeats hmax =>
    rw [hzero] at hbeats
    exact ⟨fun _ => ⟨w, hw, rfl, v, hshows, hbeats, hmax⟩,
      fun hnone => absurd (hnone w hw v hshows) (not_le.mpr hbeats)⟩

theorem exists_byPseudocost? {f : ℕ × ExtRat} (hvar : ∀ sense, f.1 < (t.side sense).length) :
    ∃ c, Candidate.byPseudocost? t f = some c ∧ c.fraction = f ∧
      t.score? f.1 f.2 = some c.score := by
  obtain ⟨down, up, hgains⟩ := PseudocostTable.exists_gains? hvar f.2
  have hscore : t.score? f.1 f.2 = some (Scalar.minNum down up) := by
    unfold PseudocostTable.score?
    rw [hgains]
    rfl
  refine ⟨⟨f.1, f.2, Scalar.minNum down up⟩, ?_, rfl, hscore⟩
  unfold Candidate.byPseudocost?
  rw [hscore]
  rfl

/-- Once the candidates have their scores, hybrid branching is its loop over the better half. -/
theorem run_selectHybrid {s : Scoring σ ExtRat} {first : ℕ × ExtRat} {rest : List (ℕ × ExtRat)}
    {c : Candidate ExtRat} {ds : List (Candidate ExtRat)}
    (hc : Candidate.byPseudocost? s.table first = some c)
    (hds : Runs (rest.mapM fun f => (inRange f.1 (Candidate.byPseudocost? s.table f) :
      ScoringM σ ExtRat _)) s ds s) :
    (selectHybrid B p node first rest).run.run s
      = (probe B p node (hybridCap s.oracle ExtRat)
          ((Candidate.ranking (c :: ds)).take (max ((Candidate.ranking (c :: ds)).length / 2) 1)) 0
          ((Candidate.ranking (c :: ds)).head?.getD c)).run.run s := by
  have hfirst : Runs (inRange first.1 (Candidate.byPseudocost? s.table first) :
      ScoringM σ ExtRat _) s c s := runs_inRange_iff.mpr ⟨hc, rfl⟩
  have hget : Runs (get : ScoringM σ ExtRat _) s s s := runs_get_iff.mpr ⟨rfl, rfl⟩
  unfold selectHybrid
  unfold Runs at hfirst hget hds
  rw [run_bind, hget]
  dsimp only
  rw [run_bind, hfirst]
  dsimp only
  rw [run_bind, hds]

/-- Over a backend that writes down its requests, hybrid branching makes those of a shortlist. -/
theorem exists_runs_selectHybrid {s : Scoring (σ × List (Exchange ExtRat)) ExtRat}
    {first : ℕ × ExtRat} {rest : List (ℕ × ExtRat)}
    (hholdable : ∀ f ∈ first :: rest,
      Holdable B p P node (hybridCap s.oracle ExtRat) s.table f) (hs : P s.oracle.backend.1) :
    ∃ chosen u, Runs (selectHybrid (transcribing B) p node first rest) s chosen u ∧
      ∃ list : Shortlist s.table node (first :: rest), list.Chooses chosen ∧
        u.log = s.log ++ list.probes.map (fun q => q.2.exchange (hybridCap s.oracle ExtRat)) ∧
        u.table = s.table := by
  obtain ⟨c, ds, hc, hds, hpredicted⟩ := exists_runs_candidates (s := s) fun f hf =>
    exists_byPseudocost? (hholdable f hf).entry
  have hfractions : (c :: ds).map Candidate.fraction = first :: rest :=
    Candidate.map_fraction_of_forall₂ (hpredicted.imp fun _ _ hd => hd.1)
  have hhead := Candidate.head?_ranking c ds
  have hlength : (Candidate.ranking (c :: ds)).length = (first :: rest).length := by
    rw [← hfractions, List.length_map]
    exact List.length_mergeSort _
  have hhalf : ∀ d ∈ (Candidate.ranking (c :: ds)).take (max 1 ((first :: rest).length / 2)),
      Holdable B p P node (hybridCap s.oracle ExtRat) s.table d.fraction := fun d hd =>
    hholdable _ (Candidate.fraction_mem_of_mem hfractions
      (List.mem_mergeSort.mp (List.mem_of_mem_take hd)))
  obtain ⟨chosen, u, hrun, probes, hprobed, hheld, hkept, hleaves, htable⟩ :=
    exists_runs_probe hhalf hs (le_refl 0) (Candidate.best c ds)
  refine ⟨chosen, u, ?_,
    { candidates := c :: ds
      predicted := hpredicted
      order := Candidate.ranking (c :: ds)
      ranked := Candidate.ranks_ranking _
      probes := probes
      probed := hprobed
      held := hheld }, Shortlist.chooses_of_kept hhead hkept, hleaves.log, htable⟩
  unfold Runs
  rw [run_selectHybrid hc hds, hhead, hlength, max_comm]
  exact hrun

/-- The limit allows an iteration at least. -/
theorem one_le_hybridCap (o : Oracle σ) : 1 ≤ hybridCap o ExtRat := le_max_right _ _

/-- Hybrid branching meets its definition. With a backend that answers for held variables, it makes
the requests of a shortlist and no others, all within one limit, chooses from that shortlist, and
leaves pseudocosts alone. -/
theorem selectHybrid_spec {s : Scoring σ ExtRat} {first : ℕ × ExtRat} {rest : List (ℕ × ExtRat)}
    (hholdable : ∀ f ∈ first :: rest,
      Holdable B p P node (hybridCap s.oracle ExtRat) s.table f) (hs : P s.oracle.backend) :
    ∃ chosen t u, Runs (selectHybrid B p node first rest) s chosen t ∧
      Runs (selectHybrid (transcribing B) p node first rest) s.transcribed chosen u ∧
      t.table = s.table ∧
      ∃ list : Shortlist s.table node (first :: rest), list.Chooses chosen ∧
        ∃ cap, 1 ≤ cap ∧ u.log = list.probes.map fun q => ⟨q.2.box, some cap, .ok q.2.answer⟩ := by
  obtain ⟨chosen, u, hrun, list, hchooses, hlog, htable⟩ :=
    exists_runs_selectHybrid (s := s.transcribed) hholdable hs
  obtain ⟨t, hplain, hafter⟩ := exists_runs_of_transcribed
    (alike_selectHybrid (answersLike_transcribing B p) first rest) hrun
  refine ⟨chosen, t, u, hplain, hrun, hafter.table.symm.trans htable, list, hchooses,
    hybridCap s.oracle ExtRat, one_le_hybridCap _, ?_⟩
  have hcap : max (hybridCap s.oracle ExtRat) 1 = hybridCap s.oracle ExtRat :=
    max_eq_left (one_le_hybridCap _)
  unfold Probe.exchange at hlog
  rw [show hybridCap s.transcribed.oracle ExtRat = hybridCap s.oracle ExtRat from rfl, hcap] at hlog
  exact hlog

end Hybrid

/-! ### Four things -/

/-- Things of different values, without a row that keeps any of them out. -/
def fourThings : Problem ExtRat :=
  ⟨[1, .fin 4, .fin 2, .fin 3], [], [.integer, .integer, .integer, .integer]⟩

theorem constructed_fourThings : fourThings.Constructed :=
  .ofRows (show Problem.ofRows [1, .fin 4, .fin 2, .fin 3] [] [] = _ by with_unfolding_all rfl)

/-- Half of each of them is in. -/
def fourHalves : NodePoint ExtRat :=
  ⟨.root fourThings false, List.replicate 4 (.fin (1 / 2)), .fin 6, 0⟩

/-- All of them but the first. -/
def threeHalves : List (ℕ × ExtRat) := [(1, .fin (1 / 2)), (2, .fin (1 / 2)), (3, .fin (1 / 2))]

/-- Scoring at the start of a search, over a backend that answers with these optima. -/
def fourScoring (first second : ℚ) : Scoring (Script ExtRat) ExtRat :=
  .new .hybrid fourThings.objective
    (.new [.ok ⟨.optimal, [0, 0, 0, 0], .fin first, 1⟩,
      .ok ⟨.optimal, [0, 0, 0, 0], .fin second, 1⟩])

/-- The things with their scores, the best one first. -/
def fourRanked : List (Candidate ExtRat) :=
  [⟨1, .fin (1 / 2), .fin 2⟩, ⟨3, .fin (1 / 2), .fin (3 / 2)⟩, ⟨2, .fin (1 / 2), .fin 1⟩,
    ⟨0, .fin (1 / 2), .fin (1 / 2)⟩]

theorem ranking_fourThings :
    Candidate.ranking [⟨0, .fin (1 / 2), .fin (1 / 2)⟩, ⟨1, .fin (1 / 2), .fin 2⟩,
      ⟨2, .fin (1 / 2), .fin 1⟩, ⟨3, .fin (1 / 2), .fin (3 / 2)⟩] = fourRanked := by
  refine Candidate.ranking_eq_of_perm ?_ (by decide +kernel)
  -- the last one goes to the front, and the two in the middle change places
  have hfront : (fourRanked.take 3 ++ fourRanked.drop 3).Perm
      (fourRanked.drop 3 ++ fourRanked.take 3) := List.perm_append_comm
  exact hfront.trans (.cons _ (.cons _ (.swap _ _ _)))

/-- A script answers if all it has to say are answers of the right length. -/
theorem answersIn_scripted (p : Problem ExtRat) (cap : ℕ) (box : Box ExtRat) :
    scripted.AnswersIn p (fun s => ∀ r ∈ s.replies, ∃ a, r = .ok a ∧ Oracle.wellFormed p a = true)
      cap box := by
  intro s hs
  unfold scripted
  dsimp only
  rcases hreplies : s.replies with _ | ⟨r, _ | ⟨r', rest⟩⟩
  · exact ⟨_, rfl, rfl, List.forall_mem_nil _⟩
  · rw [hreplies] at hs
    obtain ⟨a, ha, hwell⟩ := hs r List.mem_cons_self
    exact ⟨a, ha, hwell, hs⟩
  · rw [hreplies] at hs
    obtain ⟨a, ha, hwell⟩ := hs r List.mem_cons_self
    exact ⟨a, ha, hwell, fun q hq => hs q (List.mem_cons_of_mem r hq)⟩

theorem holdable_fourThings (first second : ℚ) (cap : ℕ) :
    ∀ f ∈ ((0 : ℕ), ExtRat.fin (1 / 2)) :: threeHalves, Holdable scripted fourThings
      (fun s => ∀ r ∈ s.replies, ∃ a, r = .ok a ∧ Oracle.wellFormed fourThings a = true) fourHalves
      cap (fourScoring first second).table f := by
  intro f hf
  have hsplits : Splits 4 f := by
    simp only [threeHalves, List.mem_cons, List.not_mem_nil, or_false] at hf
    rcases hf with rfl | rfl | rfl | rfl <;> exact ⟨by decide, rfl⟩
  have hroot : (Box.root fourThings false).Usable 4 :=
    Box.usable_root constructed_fourThings.wellFormed false
  refine ⟨fun sense => by cases sense <;> exact hsplits.var, fun c hc => ?_⟩
  obtain ⟨box, hbox, -⟩ := Splits.exists_heldBox? (hc.symm ▸ hsplits : Splits 4 c.fraction)
    (Box.tightens_usable 4) hroot
  exact ⟨box, hbox, answersIn_scripted _ _ _⟩

/-- Hybrid branching among the four things is its loop over the better two. -/
theorem run_selectHybrid_fourThings (first second : ℚ) :
    (selectHybrid (transcribing scripted) fourThings fourHalves (0, .fin (1 / 2))
        threeHalves).run.run (fourScoring first second).transcribed
      = (probe (transcribing scripted) fourThings fourHalves
          (hybridCap (fourScoring first second).transcribed.oracle ExtRat)
          (fourRanked.take (max (fourRanked.length / 2) 1)) 0
          (fourRanked.head?.getD ⟨0, .fin (1 / 2), .fin (1 / 2)⟩)).run.run
            (fourScoring first second).transcribed := by
  have hscore : Candidate.byPseudocost? (fourScoring first second).transcribed.table
      (0, .fin (1 / 2)) = some ⟨0, .fin (1 / 2), .fin (1 / 2)⟩ := by
    with_unfolding_all rfl
  have hscores : Runs (threeHalves.mapM fun f =>
        (inRange f.1 (Candidate.byPseudocost? (fourScoring first second).transcribed.table f) :
          ScoringM (Script ExtRat × List (Exchange ExtRat)) ExtRat _))
      (fourScoring first second).transcribed
      [⟨1, .fin (1 / 2), .fin 2⟩, ⟨2, .fin (1 / 2), .fin 1⟩, ⟨3, .fin (1 / 2), .fin (3 / 2)⟩]
      (fourScoring first second).transcribed := by
    with_unfolding_all rfl
  rw [run_selectHybrid hscore hscores, ranking_fourThings]

/-- By its pseudocosts the second thing is the best one and the fourth the next. These are held, in
this order, and this one is chosen. -/
def HoldsTwo (first second : ℚ) (var : ℕ) : Prop :=
  ∃ chosen t u,
    Runs (selectHybrid scripted fourThings fourHalves (0, .fin (1 / 2)) threeHalves)
      (fourScoring first second) chosen t ∧
    Runs (selectHybrid (transcribing scripted) fourThings fourHalves (0, .fin (1 / 2)) threeHalves)
      (fourScoring first second).transcribed chosen u ∧
    t.table = (fourScoring first second).table ∧
    chosen.var = var ∧
    u.log.map (fun x => (x.cap, x.box.upper))
      = [(some 1, [.posInf, 1, .posInf, .posInf]), (some 1, [.posInf, .posInf, .posInf, 1])] ∧
    ∃ list : Shortlist (fourScoring first second).table fourHalves
      ((0, .fin (1 / 2)) :: threeHalves), list.Chooses chosen

/-- The fourth thing is chosen if it loses more than the second one, though not if that is by less
than the tolerance. -/
theorem selectHybrid_spec_fourThings :
    HoldsTwo 5 4 3 ∧ HoldsTwo 5 (5 - 1 / (2 * 10 ^ 8)) 1 := by
  have hholds : ∀ first second var,
      ((probe (transcribing scripted) fourThings fourHalves
          (hybridCap (fourScoring first second).transcribed.oracle ExtRat)
          (fourRanked.take (max (fourRanked.length / 2) 1)) 0
          (fourRanked.head?.getD ⟨0, .fin (1 / 2), .fin (1 / 2)⟩)).run.run
            (fourScoring first second).transcribed).map
        (fun r => r.toOption.map Candidate.var)
        (fun u => u.log.map (fun x => (x.cap, x.box.upper)))
        = (some var,
          [(some 1, [.posInf, 1, .posInf, .posInf]), (some 1, [.posInf, .posInf, .posInf, 1])]) →
      HoldsTwo first second var := by
    intro first second var heval
    have hscript : ∀ r ∈ (fourScoring first second).oracle.backend.replies,
        ∃ a, r = .ok a ∧ Oracle.wellFormed fourThings a = true := by
      intro r hr
      rcases List.mem_pair.mp hr with rfl | rfl <;> exact ⟨_, rfl, rfl⟩
    obtain ⟨chosen, t, u, hrun, hlogged, htable, list, hchooses, -⟩ :=
      selectHybrid_spec (s := fourScoring first second) (holdable_fourThings first second _) hscript
    refine ⟨chosen, t, u, hrun, hlogged, htable, ?_⟩
    unfold Runs at hlogged
    rw [run_selectHybrid_fourThings] at hlogged
    rw [hlogged] at heval
    obtain ⟨hvar, hboxes⟩ := Prod.mk.inj heval
    exact ⟨Option.some.inj hvar, hboxes, list, hchooses⟩
  exact ⟨hholds 5 4 3 (by decide +kernel),
    hholds 5 (5 - 1 / (2 * 10 ^ 8)) 1 (by decide +kernel)⟩

end BranchBound.Scoring
