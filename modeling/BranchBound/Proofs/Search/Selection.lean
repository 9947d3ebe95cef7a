import BranchBound.Proofs.Scalar.Ordered
import BranchBound.Proofs.Search.Runs

/-!
# The chosen variable is fractional

Every branching rule ends with one of the fractional integer variables of the node, at its own
value, whatever the scores and the answers of the backend on the way are.

* `Candidate.fraction`: a candidate without its score.
* `Candidate.best_spec`, `Candidate.score_le_best`: the best candidate has the largest score, and is
  the first one that has it.
* `Candidate.ranks_ranking`, `Candidate.head?_ranking`: the ranking is by falling score, keeps the
  order of equal ones, and starts with the best candidate.
* `Candidate.ranking_eq_of_perm`: where all scores differ there is only one such order.
* `Scoring.fraction_mem_of_runs_choose`: what a rule chooses is one of the variables it was given.
* `Scoring.Switches`, `Scoring.Selects`: all that a choice at a node can do.
* `Scoring.fraction_mem_of_runs_select`: what a node branches on is fractional.
* `Scoring.eq_of_runs_select`: rules without solves of their own leave scoring as it is.
-/

namespace BranchBound

variable {σ α : Type} [Scalar α]

/-! ## Candidates -/

namespace Candidate

/-- The variable of a candidate with its value. -/
def fraction {α : Type} (c : Candidate α) : ℕ × α := (c.var, c.value)

/-- The best candidate is one of them. -/
theorem best_mem (first : Candidate α) (rest : List (Candidate α)) :
    best first rest ∈ first :: rest := by
  unfold best
  induction rest generalizing first with
  | nil => exact List.mem_singleton_self first
  | cons c rest ih =>
    rw [List.foldl_cons]
    split
    · exact List.mem_cons_of_mem first (ih c)
    · rcases List.mem_cons.mp (ih first) with h | h
      · rw [h]
        exact List.mem_cons_self
      · exact List.mem_cons_of_mem first (List.mem_cons_of_mem c h)

/-- A candidate stands for the variable it was made of. -/
theorem fraction_byPseudocost? {t : PseudocostTable α} {f : ℕ × α} {c : Candidate α}
    (h : byPseudocost? t f = some c) : c.fraction = f := by
  obtain ⟨score, -, rfl⟩ := Option.map_eq_some_iff.mp h
  rfl

theorem fraction_byBlend? {t : PseudocostTable α} {weight : α} {f : ℕ × α} {c : Candidate α}
    (h : byBlend? t weight f = some c) : c.fraction = f := by
  obtain ⟨gains, -, rfl⟩ := Option.map_eq_some_iff.mp h
  rfl

theorem fraction_mem_of_mem {α : Type} {cs : List (Candidate α)} {fs : List (ℕ × α)}
    (hcs : cs.map fraction = fs) {c : Candidate α} (hc : c ∈ cs) : c.fraction ∈ fs := by
  rw [← hcs]
  exact List.mem_map_of_mem hc

/-- Candidates that are each made from a variable are made from these variables. -/
theorem map_fraction_of_forall₂ {α : Type} {cs : List (Candidate α)} {fs : List (ℕ × α)}
    (h : List.Forall₂ (fun f c => fraction c = f) fs cs) : cs.map fraction = fs := by
  have hpairs : List.Forall₂ (fun f c => f = fraction c) fs cs := h.imp fun _ _ => Eq.symm
  rw [← List.forall₂_map_right_iff, List.forall₂_eq_eq_eq] at hpairs
  exact hpairs.symm

section Ranked

variable [RankedScalar α]

/-- The best candidate is the first one, unless the best of the others has a larger score. -/
theorem best_cons (d c : Candidate α) (cs : List (Candidate α)) :
    best d (c :: cs) = if d.score < (best c cs).score then best c cs else d := by
  induction cs generalizing d c with
  | nil => rfl
  | cons e cs ih =>
    have hstep : best d (c :: e :: cs) = best (if d.score < c.score then c else d) (e :: cs) := rfl
    rw [hstep, ih, ih c e]
    by_cases hdc : d.score < c.score
    · rw [if_pos hdc]
      split
      · rename_i hce
        rw [if_pos (hdc.trans hce)]
      · rfl
    · rw [if_neg hdc]
      by_cases hce : c.score < (best e cs).score
      · rw [if_pos hce]
      · rw [if_neg hce, if_neg hdc, if_neg]
        exact not_lt.mpr ((not_lt.mp hce).trans (not_lt.mp hdc))

/-- The best candidate has the largest score, and those before it have smaller ones. -/
theorem best_spec (first : Candidate α) (rest : List (Candidate α)) :
    ∃ before after, first :: rest = before ++ best first rest :: after ∧
      (∀ c ∈ before, c.score < (best first rest).score) ∧
      ∀ c ∈ after, c.score ≤ (best first rest).score := by
  induction rest generalizing first with
  | nil => exact ⟨[], [], rfl, nofun, nofun⟩
  | cons c rest ih =>
    obtain ⟨before, after, hsplit, hbefore, hafter⟩ := ih c
    rw [best_cons]
    split
    · rename_i hlt
      refine ⟨first :: before, after, congrArg (first :: ·) hsplit, ?_, hafter⟩
      exact List.forall_mem_cons.mpr ⟨hlt, hbefore⟩
    · rename_i hle
      refine ⟨[], c :: rest, rfl, nofun, fun d hd => ?_⟩
      rw [hsplit] at hd
      refine le_trans ?_ (not_lt.mp hle)
      rcases List.mem_append.mp hd with hd | hd
      · exact (hbefore d hd).le
      · rcases List.mem_cons.mp hd with rfl | hd
        · exact le_refl _
        · exact hafter d hd

/-- Where variables come in their order, the best candidate is the one with the least variable among
those with the largest score. -/
theorem score_le_best {first : Candidate α} {rest : List (Candidate α)}
    (hvars : (first :: rest).Pairwise fun a b => a.var < b.var) {c : Candidate α}
    (hc : c ∈ first :: rest) : c.score ≤ (best first rest).score ∧
      (c.var < (best first rest).var → c.score < (best first rest).score) := by
  obtain ⟨before, after, hsplit, hbefore, hafter⟩ := best_spec first rest
  rw [hsplit] at hc hvars
  rcases List.mem_append.mp hc with hc | hc
  · exact ⟨(hbefore c hc).le, fun _ => hbefore c hc⟩
  · rcases List.mem_cons.mp hc with rfl | hc
    · exact ⟨le_refl _, fun hlt => absurd hlt (lt_irrefl _)⟩
    · have hlt := (List.pairwise_cons.mp (List.pairwise_append.mp hvars).2.1).1 c hc
      exact ⟨hafter c hc, fun hgt => absurd hlt hgt.not_gt⟩

theorem ranked_trans (a b c : Candidate α)
    (hab : (Scalar.totalCompare b.score a.score != .gt) = true)
    (hbc : (Scalar.totalCompare c.score b.score != .gt) = true) :
    (Scalar.totalCompare c.score a.score != .gt) = true := by
  rw [RankedScalar.totalCompare_ne_gt_iff] at *
  exact hbc.trans hab

theorem ranked_total (a b : Candidate α) :
    (Scalar.totalCompare b.score a.score != .gt || Scalar.totalCompare a.score b.score != .gt)
      = true := by
  rw [Bool.or_eq_true, RankedScalar.totalCompare_ne_gt_iff, RankedScalar.totalCompare_ne_gt_iff]
  exact le_total _ _

/-- A candidate goes right behind those of the others that have a larger score. -/
theorem ranking_cons (d : Candidate α) (ds : List (Candidate α)) :
    ∃ before after, ranking (d :: ds) = before ++ d :: after ∧ ranking ds = before ++ after ∧
      (∀ c ∈ before, d.score < c.score) ∧ ∀ c ∈ after, c.score ≤ d.score := by
  obtain ⟨before, after, hsorted, hrest, hbefore⟩ :=
    List.mergeSort_cons ranked_trans ranked_total d ds
  refine ⟨before, after, hsorted, hrest, fun c hc => ?_, fun c hc => ?_⟩
  · have hlt := hbefore c hc
    rw [Bool.not_eq_true', ← Bool.not_eq_true, RankedScalar.totalCompare_ne_gt_iff, not_le] at hlt
    exact hlt
  · have hpairs := List.pairwise_mergeSort ranked_trans ranked_total (d :: ds)
    rw [hsorted] at hpairs
    have hle := (List.pairwise_cons.mp (List.pairwise_append.mp hpairs).2.1).1 c hc
    rw [RankedScalar.totalCompare_ne_gt_iff] at hle
    exact hle

/-- The ranking starts with the candidate that a scan for the largest score finds. -/
theorem head?_ranking (d : Candidate α) (ds : List (Candidate α)) :
    (ranking (d :: ds)).head? = some (best d ds) := by
  induction ds generalizing d with
  | nil =>
    unfold ranking
    rw [List.mergeSort_singleton]
    rfl
  | cons c cs ih =>
    obtain ⟨before, after, hsorted, hrest, hbefore, hafter⟩ := ranking_cons d (c :: cs)
    have hhead := ih c
    rw [hrest] at hhead
    rw [best_cons, hsorted]
    cases before with
    | nil =>
      -- nothing goes before the first candidate, so no other has a larger score
      rw [if_neg (not_lt.mpr (hafter _ (List.mem_of_head? hhead)))]
      rfl
    | cons b before =>
      have hb : b = best c cs := Option.some.inj hhead
      rw [← hb, if_pos (hbefore b List.mem_cons_self)]
      rfl

/-- Where all scores differ, there is only one order in which they fall. -/
theorem ranking_eq_of_perm {cs order : List (Candidate α)} (hperm : order.Perm cs)
    (hfalling : order.Pairwise fun a b => b.score < a.score) : ranking cs = order := by
  have hranked : (ranking cs).Pairwise fun a b =>
      (Scalar.totalCompare b.score a.score != .gt) = true :=
    List.pairwise_mergeSort ranked_trans ranked_total cs
  have horder : order.Pairwise fun a b =>
      (Scalar.totalCompare b.score a.score != .gt) = true :=
    hfalling.imp fun h => (RankedScalar.totalCompare_ne_gt_iff _ _).mpr h.le
  have hscores : (order.map score).Nodup := List.pairwise_map.mpr (hfalling.imp ne_of_gt)
  have hsame : (ranking cs).Perm order := (List.mergeSort_perm _ _).trans hperm.symm
  refine hsame.eq_of_pairwise (fun a b ha hb hab hba => ?_) hranked horder
  rw [RankedScalar.totalCompare_ne_gt_iff] at hab hba
  exact List.inj_on_of_nodup_map hscores (hsame.mem_iff.mp ha) hb (le_antisymm hba hab)

/-- An order of candidates by falling score, in which equal ones come in the order they were given
in. The numbers are those of their places there. -/
def Ranks (cs order : List (Candidate α)) : Prop :=
  ∃ placed : List (Candidate α × ℕ), placed.Perm cs.zipIdx ∧ placed.map Prod.fst = order ∧
    placed.Pairwise fun a b => b.1.score < a.1.score ∨ a.1.score = b.1.score ∧ a.2 < b.2

/-- The ranking is such an order. -/
theorem ranks_ranking (cs : List (Candidate α)) : Ranks cs (ranking cs) := by
  -- places may be counted from any number on
  have hfrom : ∀ n : ℕ, ∃ placed : List (Candidate α × ℕ), placed.Perm (cs.zipIdx n) ∧
      placed.map Prod.fst = ranking cs ∧
      placed.Pairwise fun a b => b.1.score < a.1.score ∨ a.1.score = b.1.score ∧ a.2 < b.2 := by
    induction cs with
    | nil =>
      intro n
      unfold ranking
      rw [List.mergeSort_nil]
      exact ⟨[], .nil, rfl, .nil⟩
    | cons c cs ih =>
      intro n
      obtain ⟨before, after, hsorted, hrest, hbefore, hafter⟩ := ranking_cons c cs
      obtain ⟨placed, hperm, hplaced, hpairs⟩ := ih (n + 1)
      rw [hrest, List.map_eq_append_iff] at hplaced
      obtain ⟨left, right, rfl, rfl, rfl⟩ := hplaced
      rw [List.pairwise_append] at hpairs
      refine ⟨left ++ (c, n) :: right, List.perm_middle.trans (hperm.cons _), ?_, ?_⟩
      · rw [hsorted, List.map_append, List.map_cons]
      · rw [List.pairwise_append, List.pairwise_cons]
        refine ⟨hpairs.1, ⟨fun d hd => ?_, hpairs.2.1⟩, fun b hb d hd => ?_⟩
        · refine (hafter d.1 (List.mem_map_of_mem hd)).lt_or_eq.imp_right fun heq => ⟨heq.symm, ?_⟩
          exact (List.mem_zipIdx (hperm.mem_iff.mp (List.mem_append_right _ hd))).1
        · rcases List.mem_cons.mp hd with rfl | hd
          · exact .inl (hbefore b.1 (List.mem_map_of_mem hb))
          · exact hpairs.2.2 b hb d hd
  exact hfrom 0

/-- Where variables come in their order, the ranking is by falling score, and by rising variable
where scores are equal. -/
theorem pairwise_ranking {cs : List (Candidate α)} (hcs : cs.Pairwise fun a b => a.var < b.var) :
    (ranking cs).Pairwise fun a b => b.score < a.score ∨ a.score = b.score ∧ a.var < b.var := by
  obtain ⟨placed, hperm, hplaced, hpairs⟩ := ranks_ranking cs
  rw [← hplaced, List.pairwise_map]
  refine List.Pairwise.imp_of_mem (fun {a b} ha hb hab => ?_) hpairs
  refine hab.imp_right fun ⟨hscore, hplace⟩ => ⟨hscore, ?_⟩
  have ha := List.mk_mem_zipIdx_iff_getElem?.mp (hperm.mem_iff.mp ha)
  have hb := List.mk_mem_zipIdx_iff_getElem?.mp (hperm.mem_iff.mp hb)
  obtain ⟨hi, ha⟩ := List.getElem?_eq_some_iff.mp ha
  obtain ⟨hj, hb⟩ := List.getElem?_eq_some_iff.mp hb
  rw [← ha, ← hb]
  exact List.pairwise_iff_getElem.mp hcs _ _ hi hj hplace

end Ranked

end Candidate

/-! ## Rules -/

namespace Scoring

open Relaxation

variable {B : Backend σ α} {p : Problem α} {node : NodePoint α} {s t : Scoring σ α}
  {first : ℕ × α} {rest : List (ℕ × α)} {c : Candidate α}

omit [Scalar α] in
/-- Variables scored one after the other become candidates in the same order. -/
theorem map_fraction_of_runs_mapM {scored : ℕ × α → Option (Candidate α)}
    (hscored : ∀ f c, scored f = some c → c.fraction = f) {fs : List (ℕ × α)}
    {cs : List (Candidate α)}
    (h : Runs (fs.mapM fun f => (inRange f.1 (scored f) : ScoringM σ α _)) s cs t) :
    cs.map Candidate.fraction = fs :=
  Candidate.map_fraction_of_forall₂
    (forall₂_of_runs_mapM (fun f _ c _ hf => hscored f c (runs_inRange_iff.mp hf).1) h)

omit [Scalar α] in
/-- Where every variable can be scored, all of them become candidates, and nothing changes. -/
theorem exists_runs_candidates {scored : ℕ × α → Option (Candidate α)}
    {R : ℕ × α → Candidate α → Prop} (h : ∀ f ∈ first :: rest, ∃ c, scored f = some c ∧ R f c) :
    ∃ c ds, scored first = some c ∧
      Runs (rest.mapM fun f => (inRange f.1 (scored f) : ScoringM σ α _)) s ds s ∧
      List.Forall₂ R (first :: rest) (c :: ds) := by
  obtain ⟨⟨c, hc, hR⟩, hrest⟩ := List.forall_mem_cons.mp h
  have hscored : ∀ f ∈ rest, ∃ d, Runs (inRange f.1 (scored f) : ScoringM σ α _) s d s ∧ R f d := by
    intro f hf
    obtain ⟨d, hd, hRd⟩ := hrest f hf
    exact ⟨d, runs_inRange_iff.mpr ⟨hd, rfl⟩, hRd⟩
  obtain ⟨ds, hds, hRds⟩ := exists_runs_mapM hscored
  exact ⟨c, ds, hc, hds, .cons hR hRds⟩

/-- Probing keeps its first choice or takes one of the candidates it probes. -/
theorem mem_of_runs_probe {cap : ℕ} {cs : List (Candidate α)} {top : α} {chosen : Candidate α}
    (h : Runs (probe B p node cap cs top chosen) s c t) : c ∈ chosen :: cs := by
  induction cs generalizing s top chosen with
  | nil =>
    rw [probe, runs_pure_iff] at h
    rw [h.1]
    exact List.mem_singleton_self c
  | cons d cs ih =>
    rw [probe] at h
    obtain ⟨box, _, -, h⟩ := runs_bind_iff.mp h
    obtain ⟨answer, _, -, h⟩ := runs_bind_iff.mp h
    dsimp only at h
    split at h
    · exact List.mem_cons_of_mem chosen (ih h)
    · rcases List.mem_cons.mp (ih h) with hc | hc
      · rw [hc]
        exact List.mem_cons_self
      · exact List.mem_cons_of_mem chosen (List.mem_cons_of_mem d hc)

/-- The hybrid rule chooses among the fractional variables. -/
theorem fraction_mem_of_runs_selectHybrid (h : Runs (selectHybrid B p node first rest) s c t) :
    c.fraction ∈ first :: rest := by
  unfold selectHybrid at h
  obtain ⟨_, _, -, h⟩ := runs_bind_iff.mp h
  obtain ⟨d, _, hfirst, h⟩ := runs_bind_iff.mp h
  obtain ⟨ds, _, hrest, h⟩ := runs_bind_iff.mp h
  have hd := Candidate.fraction_byPseudocost? (runs_inRange_iff.mp hfirst).1
  have hds := map_fraction_of_runs_mapM (fun _ _ => Candidate.fraction_byPseudocost?) hrest
  -- sorting and cutting off the list leave only candidates that were scored
  have horder : ∀ e, e ∈ Candidate.ranking (d :: ds) ↔ e ∈ d :: ds :=
    fun e => List.mem_mergeSort
  have hc : c ∈ d :: ds := by
    rcases List.mem_cons.mp (mem_of_runs_probe h) with hc | hc
    · rw [hc]
      cases hhead : (Candidate.ranking (d :: ds)).head? with
      | none => exact List.mem_cons_self
      | some e => exact (horder e).mp (List.mem_of_head? hhead)
    · exact (horder c).mp (List.mem_of_mem_take hc)
  exact Candidate.fraction_mem_of_mem (by rw [List.map_cons, hd, hds]) hc

/-- So does reliability branching. -/
theorem fraction_mem_of_runs_selectReliability {r : Reliability α}
    (h : Runs (selectReliability B p node r first rest) s c t) : c.fraction ∈ first :: rest := by
  unfold selectReliability at h
  obtain ⟨_, _, -, h⟩ := runs_bind_iff.mp h
  obtain ⟨d, _, hfirst, h⟩ := runs_bind_iff.mp h
  obtain ⟨ds, _, hrest, h⟩ := runs_bind_iff.mp h
  have hd := Candidate.fraction_byBlend? (runs_inRange_iff.mp hfirst).1
  have hds := map_fraction_of_runs_mapM (fun _ _ => Candidate.fraction_byBlend?) hrest
  obtain ⟨scores, _, -, h⟩ := runs_bind_iff.mp h
  have hc := (runs_pure_iff.mp h).1 ▸
    Candidate.best_mem (rescored scores d) (ds.map (rescored scores))
  -- a new score leaves variable and value as they are
  rw [← List.map_cons (f := rescored scores)] at hc
  obtain ⟨e, he, rfl⟩ := List.mem_map.mp hc
  show e.fraction ∈ first :: rest
  exact Candidate.fraction_mem_of_mem (by rw [List.map_cons, hd, hds]) he

/-- Every rule chooses one of the variables it is given. -/
theorem fraction_mem_of_runs_choose {rule : BranchingRule α}
    (h : Runs (choose B p node rule first rest) s c t) : c.fraction ∈ first :: rest := by
  cases rule with
  | fixedOrder =>
    rw [← (runs_pure_iff.mp h).1]
    exact List.mem_cons_self
  | mostFractional =>
    have hc := (runs_pure_iff.mp h).1 ▸
      Candidate.best_mem (.byFractionality first) (rest.map .byFractionality)
    rw [← List.map_cons (f := Candidate.byFractionality)] at hc
    obtain ⟨f, hf, rfl⟩ := List.mem_map.mp hc
    exact hf
  | pseudocost =>
    obtain ⟨_, _, -, h⟩ := runs_bind_iff.mp h
    obtain ⟨d, _, hfirst, h⟩ := runs_bind_iff.mp h
    obtain ⟨ds, _, hrest, h⟩ := runs_bind_iff.mp h
    have hd := Candidate.fraction_byPseudocost? (runs_inRange_iff.mp hfirst).1
    have hds := map_fraction_of_runs_mapM (fun _ _ => Candidate.fraction_byPseudocost?) hrest
    rw [← (runs_pure_iff.mp h).1]
    exact Candidate.fraction_mem_of_mem (by rw [List.map_cons, hd, hds]) (Candidate.best_mem d ds)
  | reliability r => exact fraction_mem_of_runs_selectReliability h
  | hybrid => exact fraction_mem_of_runs_selectHybrid h

/-! ## What a choice at a node can do -/

/-- The rule stays as it is, or hybrid branching gives way to pseudocost branching. -/
inductive Switches {α : Type} (s : Scoring σ α) : Scoring σ α → Prop
  | stays : Switches s s
  | givesWay (hhybrid : s.rule = .hybrid) (journal : Array (Note α)) :
      Switches s { s with rule := .pseudocost, journal }

/-- Nothing is fractional, or the rule that is in effect by then chooses a variable. -/
inductive Selects (B : Backend σ α) (p : Problem α) (node : NodePoint α) (s : Scoring σ α) :
    Option (Candidate α) → Scoring σ α → Prop
  | whole (hfs : p.fractional? node.x = some []) : Selects B p node s none s
  | chosen {first : ℕ × α} {rest : List (ℕ × α)} {u t : Scoring σ α} {c : Candidate α}
      (hfs : p.fractional? node.x = some (first :: rest)) (hswitches : Switches s u)
      (hchoose : Runs (choose B p node u.rule first rest) u c t) : Selects B p node s (some c) t

omit [Scalar α] in
theorem switches_of_runs_switchRule {limit depth : ℕ} {b : Unit}
    (h : Runs (switchRule limit depth) s b t) : Switches s t := by
  unfold switchRule at h
  obtain ⟨_, _, hget, h⟩ := runs_bind_iff.mp h
  obtain ⟨rfl, rfl⟩ := runs_get_iff.mp hget
  split at h
  · rename_i hhybrid
    split at h
    · obtain ⟨_, u, hnote, h⟩ := runs_bind_iff.mp h
      cases runs_modify_iff.mp hnote
      cases runs_modify_iff.mp h
      exact .givesWay hhybrid _
    · obtain ⟨-, rfl⟩ := runs_pure_iff.mp h
      exact .stays
  · obtain ⟨-, rfl⟩ := runs_pure_iff.mp h
    exact .stays

theorem selects_of_runs_select {limit : ℕ} {choice : Option (Candidate α)}
    (h : Runs (select B p limit node) s choice t) : Selects B p node s choice t := by
  unfold select at h
  obtain ⟨fs, _, hrange, h⟩ := runs_bind_iff.mp h
  obtain ⟨hfs, rfl⟩ := runs_inRange_iff.mp hrange
  cases fs with
  | nil =>
    obtain ⟨rfl, rfl⟩ := runs_pure_iff.mp h
    exact .whole hfs
  | cons first rest =>
    obtain ⟨_, u, hswitch, h⟩ := runs_bind_iff.mp h
    obtain ⟨_, _, hget, h⟩ := runs_bind_iff.mp h
    obtain ⟨rfl, rfl⟩ := runs_get_iff.mp hget
    obtain ⟨c, hchoose, rfl⟩ := runs_map_iff.mp h
    exact .chosen hfs (switches_of_runs_switchRule hswitch) hchoose

/-- The variable a node branches on is one of its fractional integer variables, at its value. -/
theorem fraction_mem_of_runs_select {limit : ℕ} (h : Runs (select B p limit node) s (some c) t) :
    ∃ fs, p.fractional? node.x = some fs ∧ c.fraction ∈ fs := by
  cases selects_of_runs_select h with
  | chosen hfs hswitches hchoose => exact ⟨_, hfs, fraction_mem_of_runs_choose hchoose⟩

/-! ## Rules without solves of their own -/

/-- Such a rule reads what scoring knows, and changes nothing. -/
theorem eq_of_runs_choose {rule : BranchingRule α} (hrule : rule.usesResolves = false)
    (h : Runs (choose B p node rule first rest) s c t) : t = s := by
  unfold choose at h
  cases rule with
  | fixedOrder => exact (runs_pure_iff.mp h).2.symm
  | mostFractional => exact (runs_pure_iff.mp h).2.symm
  | pseudocost =>
    obtain ⟨_, _, hget, h⟩ := runs_bind_iff.mp h
    obtain ⟨rfl, rfl⟩ := runs_get_iff.mp hget
    obtain ⟨_, _, hfirst, h⟩ := runs_bind_iff.mp h
    obtain ⟨-, rfl⟩ := runs_inRange_iff.mp hfirst
    obtain ⟨_, _, hrest, h⟩ := runs_bind_iff.mp h
    rw [← (runs_pure_iff.mp h).2]
    exact eq_of_runs_mapM (fun _ _ _ _ hrun => (runs_inRange_iff.mp hrun).2.symm) hrest
  | reliability r => cases hrule
  | hybrid => cases hrule

/-- A rule without solves of its own leaves scoring as it is. -/
theorem eq_of_runs_select {limit : ℕ} (hrule : s.rule.usesResolves = false)
    (h : Runs (select B p limit node) s (some c) t) : t = s := by
  cases selects_of_runs_select h with
  | chosen hfs hswitches hchoose =>
    cases hswitches with
    | stays => exact eq_of_runs_choose hrule hchoose
    | givesWay hhybrid =>
      -- only hybrid branching ever gives way
      rw [hhybrid] at hrule
      cases hrule

end Scoring

end BranchBound
