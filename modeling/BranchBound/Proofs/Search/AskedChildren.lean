import BranchBound.Proofs.Search.MeanLosses
import BranchBound.Proofs.Search.ReliabilityWalk

/-!
# What is asked for at a node, and what is observed

Of all that a search asks its backend for, two kinds of requests are observed in the pseudocosts:
the relaxations of the nodes, and those of the children that reliability branching solves for a
score. The second ones follow a known order, so each of them can be told by its place.

* `Scoring.wanted`: the children that reliability branching asks for, in their order.
* `Scoring.Solves`, `Scoring.solves_of_runs_selectReliability`: it asks for the first ones of them,
  and observes what those lost that have an optimum.
* `Scoring.Chooses`, `Scoring.chooses_of_runs_select`: what every rule asks for and observes.
-/

namespace BranchBound

open Relaxation

variable {σ α : Type}

namespace Relaxation.Exchange

/-- The optimum that was found, if one was. -/
def optimum? (e : Exchange α) : Option (Answer α) := e.outcome.toOption.filter Answer.isOptimal

theorem optimum?_ok (box : Box α) (cap : Option ℕ) (a : Answer α) :
    optimum? ⟨box, cap, .ok a⟩ = if a.isOptimal then some a else none := rfl

end Relaxation.Exchange

/-- A partial map over a list succeeds where it does for every element. -/
theorem mapM_eq_some_iff {β γ : Type} {g : β → Option γ} {l : List β} {cs : List γ} :
    l.mapM g = some cs ↔ List.Forall₂ (fun b c => g b = some c) l cs := by
  induction l generalizing cs with
  | nil => simp [eq_comm]
  | cons b l ih =>
    rw [List.mapM_cons, List.forall₂_cons_left_iff]
    simp only [Option.bind_eq_bind, Option.bind_eq_some_iff, ih, Option.pure_def, Option.some.injEq]
    constructor
    · rintro ⟨c, hc, cs, hcs, rfl⟩
      exact ⟨c, cs, hc, hcs, rfl⟩
    · rintro ⟨c, cs, hc, hcs, rfl⟩
      exact ⟨c, hc, cs, hcs, rfl⟩

variable [Scalar α]

/-- The fractional variables are different ones. -/
theorem Problem.nodup_fractional? (p : Problem α) {x : List α} {fs : List (ℕ × α)}
    (h : p.fractional? x = some fs) : (fs.map Prod.fst).Nodup := by
  obtain ⟨vs, hvs, rfl⟩ := Option.map_eq_some_iff.mp h
  have hvars : vs.map Prod.fst = p.integerVars := by
    have hpairs : List.Forall₂ (fun i w => i = Prod.fst w) p.integerVars vs :=
      (mapM_eq_some_iff.mp hvs).imp fun i w hw => by
        obtain ⟨v, -, rfl⟩ := Option.map_eq_some_iff.mp hw
        rfl
    rw [← List.forall₂_map_right_iff, List.forall₂_eq_eq_eq] at hpairs
    exact hpairs.symm
  have hnodup : p.integerVars.Nodup := by
    unfold integerVars
    refine List.Nodup.sublist (List.filter_sublist.map _) ?_
    rw [List.zipIdx_map_snd]
    exact List.nodup_range'
  rw [← hvars] at hnodup
  exact hnodup.sublist (List.filter_sublist.map _)

namespace PseudocostTable

/-- A loss changes entries of its variable only. -/
theorem sameOff_observe (t : PseudocostTable α) (l : Loss α) :
    t.SameOff [l.branch.var] (t.observe l) := by
  unfold observe update?
  split
  · cases (t.side l.branch.sense)[l.branch.var]? with
    | none => exact .refl _ _
    | some entry => exact sameOff_set _ _ _ _
  · exact .refl _ _

/-- Losses of one variable change its entries only. -/
theorem sameOff_foldl_observe {var : ℕ} {ls : List (Loss α)} (hls : ∀ l ∈ ls, l.branch.var = var)
    (t : PseudocostTable α) : t.SameOff [var] (ls.foldl observe t) := by
  induction ls generalizing t with
  | nil => exact .refl _ _
  | cons l ls ih =>
    obtain ⟨hl, hls⟩ := List.forall_mem_cons.mp hls
    have hfirst := sameOff_observe t l
    rw [hl] at hfirst
    exact (hfirst.trans (ih hls (t.observe l))).mono (by simp)

end PseudocostTable

namespace Scoring

/-- What the children of a node lost that were asked for in turn and have an optimum. -/
def losses (above : α) (bs : List (Branch α)) (es : List (Exchange α)) : List (Loss α) :=
  (bs.zip es).filterMap fun (b, e) => e.optimum?.map fun a => ⟨b, above, a.objective⟩

/-- The children of the candidates with too few observations, in the order of the candidates. -/
def unsettled (t : PseudocostTable α) (minSamples : ℕ) (cs : List (Candidate α)) :
    List (Branch α) :=
  (cs.filter fun c => t.isReliable? c.var minSamples = some false).flatMap fun c => [c.down, c.up]

/-- The children that reliability branching asks for at a point if it walks all candidates, in this
order: those of the candidates with too few observations, by falling score. -/
def wanted (p : Problem α) (r : Reliability α) (t : PseudocostTable α) (x : List α) :
    List (Branch α) :=
  match (p.fractional? x).bind fun fs => fs.mapM (Candidate.byBlend? t r.weight) with
  | none => []
  | some cs => unsettled t r.minSamples (Candidate.ranking cs)

section Lists

omit [Scalar α]

variable {above : α} {bs bs' : List (Branch α)} {es es' : List (Exchange α)}

/-- Questions and answers that come in two parts give losses in two parts. -/
theorem losses_append (h : bs.length = es.length) :
    losses above (bs ++ bs') (es ++ es') = losses above bs es ++ losses above bs' es' := by
  unfold losses
  rw [List.zip_append h, List.filterMap_append]

theorem losses_nil_right (above : α) (bs : List (Branch α)) : losses above bs [] = [] := by
  unfold losses
  rw [List.zip_nil_right, List.filterMap_nil]

/-- Children that were not asked for lost nothing. -/
theorem losses_of_prefix (hbs : bs <+: bs') (h : bs.length = es.length) :
    losses above bs' es = losses above bs es := by
  obtain ⟨rest, rfl⟩ := hbs
  rw [← List.append_nil es, losses_append h, losses_nil_right, List.append_nil, List.append_nil]

/-- A loss is that of one of the branches, and its value is that of an optimum. -/
theorem of_mem_losses {l : Loss α} (h : l ∈ losses above bs es) : l.branch ∈ bs ∧
    l.above = above ∧ ∃ e ∈ es, ∃ a, e.optimum? = some a ∧ a.objective = l.below := by
  obtain ⟨⟨b, e⟩, hmem, hl⟩ := List.mem_filterMap.mp h
  obtain ⟨a, ha, rfl⟩ := Option.map_eq_some_iff.mp hl
  obtain ⟨hb, he⟩ := List.of_mem_zip hmem
  exact ⟨hb, rfl, e, he, a, ha, rfl⟩

end Lists

section Unsettled

variable {t u : PseudocostTable α} {minSamples : ℕ} {vars : List ℕ} {c : Candidate α}
  {cs : List (Candidate α)}

theorem unsettled_cons (t : PseudocostTable α) (minSamples : ℕ) (c : Candidate α)
    (cs : List (Candidate α)) :
    unsettled t minSamples (c :: cs) = unsettled t minSamples [c] ++ unsettled t minSamples cs := by
  unfold unsettled
  rw [← List.flatMap_append, ← List.filter_append, List.singleton_append]

/-- Observations of other variables leave them as they are. -/
theorem unsettled_congr (hsame : t.SameOff vars u) (hcs : ∀ c ∈ cs, c.var ∉ vars) :
    unsettled u minSamples cs = unsettled t minSamples cs := by
  unfold unsettled
  rw [List.filter_congr fun c hc => by rw [hsame.isReliable?_eq (hcs c hc)]]

/-- What is asked for is a child of a candidate. -/
theorem exists_of_mem_unsettled {b : Branch α} (h : b ∈ unsettled t minSamples cs) :
    ∃ c ∈ cs, b = c.down ∨ b = c.up := by
  obtain ⟨c, hc, hb⟩ := List.mem_flatMap.mp h
  rw [List.mem_pair] at hb
  exact ⟨c, List.mem_of_mem_filter hc, hb⟩

/-- The children that are wanted are reached by branches that move their variables. -/
theorem moved_of_mem_wanted [DiscernibleScalar α] {p : Problem α} {r : Reliability α} {x : List α}
    {b : Branch α} (h : b ∈ wanted p r t x) : ¬ b.distance ≤ 0 := by
  unfold wanted at h
  split at h
  · cases h
  · rename_i cs hcs
    obtain ⟨fs, hfs, hcs⟩ := Option.bind_eq_some_iff.mp hcs
    obtain ⟨c, hc, hb⟩ := exists_of_mem_unsettled h
    obtain ⟨f, hf, hscored⟩ := exists_of_mem_mapM hcs (List.mem_mergeSort.mp hc)
    rw [← Candidate.fraction_byBlend? hscored] at hf
    obtain ⟨hdown, hup⟩ := c.apart (Problem.fractional?_spec hfs hf).2.2
    rcases hb with rfl | rfl
    · exact hdown
    · exact hup

end Unsettled

/-- Children of a node were asked for in turn, and what they lost was observed. -/
structure Solves (node : NodePoint α) (bs : List (Branch α)) (es : List (Exchange α))
    (s t : Scoring (σ × List (Exchange α)) α) : Prop where
  log : t.log = s.log ++ es
  /-- Each request was for the box of its child. -/
  boxes : List.Forall₂ (fun b e => b.restrict? node.box = some e.box) bs es
  table : t.table = (losses node.relax bs es).foldl PseudocostTable.observe s.table
  full : t.fullResolves = s.fullResolves + (losses node.relax bs es).length

namespace Solves

variable {node : NodePoint α} {bs bs' : List (Branch α)} {es es' : List (Exchange α)}
  {s t u : Scoring (σ × List (Exchange α)) α}

theorem refl (node : NodePoint α) (s : Scoring (σ × List (Exchange α)) α) :
    Solves node [] [] s s :=
  ⟨(List.append_nil _).symm, .nil, rfl, rfl⟩

/-- Two computations ask what one and then the other asks. -/
theorem trans (h : Solves node bs es s t) (h' : Solves node bs' es' t u) :
    Solves node (bs ++ bs') (es ++ es') s u where
  log := by rw [h'.log, h.log, List.append_assoc]
  boxes := List.rel_append h.boxes h'.boxes
  table := by rw [losses_append h.boxes.length_eq, List.foldl_append, ← h.table, h'.table]
  full := by
    rw [losses_append h.boxes.length_eq, List.length_append, h'.full, h.full, Nat.add_assoc]

/-- Requests for the children of one variable change entries of that variable only. -/
theorem sameOff {var : ℕ} (h : Solves node bs es s t) (hbs : ∀ b ∈ bs, b.var = var) :
    s.table.SameOff [var] t.table := by
  rw [h.table]
  exact PseudocostTable.sameOff_foldl_observe
    (fun l hl => hbs l.branch (of_mem_losses hl).1) s.table

end Solves

/-! ## Reliability branching -/

section Walk

variable {B : Backend σ α} {p : Problem α} {node : NodePoint α} {r : Reliability α}
  {s t : Scoring (σ × List (Exchange α)) α}

/-- Learning is one observation. -/
theorem observe_of_runs_learn {s t : Scoring σ α} {b : Branch α} {above below : α} {u : Unit}
    (h : Runs (learn b above below) s u t) :
    t.table = s.table.observe ⟨b, above, below⟩ ∧ t.oracle = s.oracle ∧
      t.fullResolves = s.fullResolves := by
  obtain ⟨changed, hupdate⟩ := update?_of_runs_learn h
  refine ⟨(PseudocostTable.observe_of_update? hupdate).symm, ?_⟩
  rw [eq_of_runs_learn h]
  exact ⟨rfl, rfl⟩

/-- Measuring a child is one request, and an optimum is observed. -/
theorem solves_of_runs_measureChild {cap : ℕ} {b : Branch α} {loss? : Option α}
    (h : Runs (measureChild (transcribing B) p node cap b) s loss? t) :
    ∃ e, Solves node [b] [e] s t := by
  unfold measureChild at h
  obtain ⟨box, _, hrange, h⟩ := runs_bind_iff.mp h
  obtain ⟨hbox, rfl⟩ := runs_inRange_iff.mp hrange
  obtain ⟨⟨status, x, objective, iterations⟩, u, hask, h⟩ := runs_bind_iff.mp h
  have hposts := posts_of_runs_resolve hask
  have hlog := hposts.log_eq
  have hfull := hposts.fullResolves_eq
  have htable : u.table = s.table := by rw [eq_of_runs_ask hask]
  refine ⟨⟨box, some (max cap 1), .ok ⟨status, x, objective, iterations⟩⟩, ?_⟩
  cases status with
  | optimal =>
    obtain ⟨_, v, hcount, h⟩ := runs_bind_iff.mp h
    cases runs_modify_iff.mp hcount
    obtain ⟨_, w, hlearn, h⟩ := runs_bind_iff.mp h
    obtain ⟨-, rfl⟩ := runs_pure_iff.mp h
    obtain ⟨hlearned, horacle, hcounted⟩ := observe_of_runs_learn hlearn
    refine ⟨?_, .cons hbox .nil, ?_, ?_⟩
    · unfold log
      rw [horacle]
      exact hlog
    · rw [hlearned, ← htable]
      rfl
    · rw [hcounted, ← hfull]
      rfl
  | iterationLimit =>
    obtain ⟨_, v, hcount, h⟩ := runs_bind_iff.mp h
    cases runs_modify_iff.mp hcount
    obtain ⟨-, rfl⟩ := runs_pure_iff.mp h
    exact ⟨hlog, .cons hbox .nil, htable, hfull⟩
  | infeasible =>
    obtain ⟨-, rfl⟩ := runs_pure_iff.mp h
    exact ⟨hlog, .cons hbox .nil, htable, hfull⟩

/-- A candidate with too few observations has both children asked for, and another one has none. -/
theorem solves_of_runs_walkedScore {c : Candidate α} {score : α}
    (h : Runs (walkedScore (transcribing B) p node r c) s score t) :
    ∃ es, Solves node (unsettled s.table r.minSamples [c]) es s t := by
  unfold walkedScore at h
  obtain ⟨_, _, hget, h⟩ := runs_bind_iff.mp h
  obtain ⟨rfl, rfl⟩ := runs_get_iff.mp hget
  obtain ⟨reliable, _, hrange, h⟩ := runs_bind_iff.mp h
  obtain ⟨hreliable, rfl⟩ := runs_inRange_iff.mp hrange
  cases reliable with
  | true =>
    obtain ⟨-, rfl⟩ := runs_pure_iff.mp h
    have hnone : unsettled s.table r.minSamples [c] = [] := by simp [unsettled, hreliable]
    rw [hnone]
    exact ⟨[], .refl node s⟩
  | false =>
    have hboth : unsettled s.table r.minSamples [c] = [c.down] ++ [c.up] := by
      simp [unsettled, hreliable]
    rw [if_neg Bool.false_ne_true] at h
    unfold measure at h
    obtain ⟨_, _, hget, h⟩ := runs_bind_iff.mp h
    obtain ⟨rfl, rfl⟩ := runs_get_iff.mp hget
    obtain ⟨gains, _, hrange, h⟩ := runs_bind_iff.mp h
    obtain ⟨-, rfl⟩ := runs_inRange_iff.mp hrange
    obtain ⟨_, u, hdown, h⟩ := runs_bind_iff.mp h
    obtain ⟨_, v, hup, h⟩ := runs_bind_iff.mp h
    obtain ⟨-, rfl⟩ := runs_pure_iff.mp h
    obtain ⟨e, hsolves⟩ := solves_of_runs_measureChild hdown
    obtain ⟨e', hsolves'⟩ := solves_of_runs_measureChild hup
    rw [hboth]
    exact ⟨_, hsolves.trans hsolves'⟩

/-- A walk over candidates of different variables asks for the children of those with too few
observations, in their order, up to some place. -/
theorem solves_of_runs_walk {cs : List (Candidate α)} {top : α} {stale : ℕ}
    {scores : List (ℕ × α)} (hvars : (cs.map Candidate.var).Nodup)
    (h : Runs (walk (transcribing B) p node r cs top stale) s scores t) :
    ∃ bs es, bs <+: unsettled s.table r.minSamples cs ∧ Solves node bs es s t := by
  induction cs generalizing s top stale scores with
  | nil =>
    obtain ⟨-, rfl⟩ := runs_pure_iff.mp h
    exact ⟨[], [], List.nil_prefix, .refl node s⟩
  | cons c cs ih =>
    rw [List.map_cons, List.nodup_cons] at hvars
    rw [walk] at h
    obtain ⟨score, u, hscore, h⟩ := runs_bind_iff.mp h
    obtain ⟨es, hsolves⟩ := solves_of_runs_walkedScore hscore
    rw [unsettled_cons]
    generalize (if top < score then (score, 0) else (top, stale + 1)) = state at h
    dsimp only at h
    split at h
    · obtain ⟨_, v, hnote, h⟩ := runs_bind_iff.mp h
      cases runs_modify_iff.mp hnote
      obtain ⟨-, rfl⟩ := runs_pure_iff.mp h
      exact ⟨_, es, List.prefix_append _ _, hsolves.log, hsolves.boxes, hsolves.table, hsolves.full⟩
    · obtain ⟨_, v, hrest, h⟩ := runs_bind_iff.mp h
      obtain ⟨-, rfl⟩ := runs_pure_iff.mp h
      obtain ⟨bs, es', hbs, hsolves'⟩ := ih hvars.2 hrest
      -- what was learned about this variable says nothing about the others
      have hbranches : ∀ b ∈ unsettled s.table r.minSamples [c], b.var = c.var := by
        intro b hb
        obtain ⟨d, hd, hb⟩ := exists_of_mem_unsettled hb
        cases List.mem_singleton.mp hd
        rcases hb with rfl | rfl <;> rfl
      have hsame := hsolves.sameOff hbranches
      rw [unsettled_congr hsame fun d hd hmem =>
        hvars.1 (List.mem_singleton.mp hmem ▸ List.mem_map_of_mem hd)] at hbs
      exact ⟨_, _, (List.prefix_append_right_inj _).mpr hbs, hsolves.trans hsolves'⟩

end Walk

omit [Scalar α] in
/-- Variables scored one after the other are all scored by the same table. -/
theorem mapM_of_runs_mapM {β : Type} {s t : Scoring σ α} {scored : ℕ × α → Option β}
    {fs : List (ℕ × α)} {cs : List β}
    (h : Runs (fs.mapM fun f => (inRange f.1 (scored f) : ScoringM σ α _)) s cs t) :
    fs.mapM scored = some cs ∧ s = t := by
  refine ⟨mapM_eq_some_iff.mpr ?_,
    (eq_of_runs_mapM (fun _ _ _ _ hf => (runs_inRange_iff.mp hf).2.symm) h).symm⟩
  exact forall₂_of_runs_mapM (fun f _ c _ hf => (runs_inRange_iff.mp hf).1) h

section Reliability

variable {B : Backend σ α} {p : Problem α} {node : NodePoint α} {r : Reliability α}
  {s t : Scoring (σ × List (Exchange α)) α} {c : Candidate α}

/-- Reliability branching asks for children of unreliable candidates in the order of the ranking,
and learns from the answers. -/
theorem solves_of_runs_selectReliability {first : ℕ × α} {rest : List (ℕ × α)}
    (hfs : p.fractional? node.x = some (first :: rest))
    (h : Runs (selectReliability (transcribing B) p node r first rest) s c t) :
    ∃ bs es, bs <+: wanted p r s.table node.x ∧ Solves node bs es s t := by
  unfold selectReliability at h
  obtain ⟨_, _, hget, h⟩ := runs_bind_iff.mp h
  obtain ⟨rfl, rfl⟩ := runs_get_iff.mp hget
  obtain ⟨d, _, hfirst, h⟩ := runs_bind_iff.mp h
  obtain ⟨hd, rfl⟩ := runs_inRange_iff.mp hfirst
  obtain ⟨ds, _, hrest, h⟩ := runs_bind_iff.mp h
  obtain ⟨hds, rfl⟩ := mapM_of_runs_mapM hrest
  dsimp only at h
  obtain ⟨scores, u, hwalk, h⟩ := runs_bind_iff.mp h
  obtain ⟨-, rfl⟩ := runs_pure_iff.mp h
  have hwanted : wanted p r s.table node.x
      = unsettled s.table r.minSamples (Candidate.ranking (d :: ds)) := by
    unfold wanted
    rw [hfs, Option.bind_some, List.mapM_cons, hd, hds]
    rfl
  have hfractions : (d :: ds).map Candidate.fraction = first :: rest := by
    rw [List.map_cons, Candidate.fraction_byBlend? hd,
      map_fraction_of_runs_mapM (fun _ _ => Candidate.fraction_byBlend?) hrest]
  have hvars : ((d :: ds).map Candidate.var).Nodup := by
    have hnodup := p.nodup_fractional? hfs
    rw [← hfractions, List.map_map] at hnodup
    exact hnodup
  rw [hwanted]
  refine solves_of_runs_walk ?_ hwalk
  exact ((List.mergeSort_perm _ _).map _).nodup_iff.mpr hvars

end Reliability

/-! ## All rules -/

section Rules

variable {B : Backend σ α} {p : Problem α} {node : NodePoint α}
  {s t : Scoring (σ × List (Exchange α)) α}

/-- Requests may be put from one state to another, but nothing is observed. -/
structure AsksOnly (s t : Scoring (σ × List (Exchange α)) α) : Prop where
  log : s.log <+: t.log
  table : t.table = s.table
  full : t.fullResolves = s.fullResolves

omit [Scalar α] in
theorem asksOnly_of_eq {rule : BranchingRule α} {journal : Array (Note α)}
    (h : t = { s with rule, journal }) : AsksOnly s t := by
  rw [h]
  exact ⟨List.prefix_rfl, rfl, rfl⟩

/-- Probing asks, and learns nothing. -/
theorem asksOnly_probe (cap : ℕ) (cs : List (Candidate α)) (top : α) (chosen : Candidate α) :
    Maintains (AsksOnly s) (probe (transcribing B) p node cap cs top chosen) := by
  have hask : ∀ box, Maintains (AsksOnly s) (ask (Oracle.resolve (transcribing B) p box cap)) := by
    rintro box u a v h ⟨hlog, htable, hfull⟩
    have hposts := posts_of_runs_resolve h
    refine ⟨hlog.trans ?_, ?_, hposts.fullResolves_eq.trans hfull⟩
    · rw [hposts.log_eq]
      exact List.prefix_append _ _
    · rw [eq_of_runs_ask h]
      exact htable
  induction cs generalizing top chosen with
  | nil => exact maintains_pure chosen
  | cons c cs ih =>
    rw [probe]
    refine maintains_bind (maintains_inRange _ _) fun box => ?_
    exact maintains_bind (hask box) fun answer => maintains_ite (ih _ _) (ih _ _)

/-- Hybrid branching observes nothing of what it asks for. -/
theorem asksOnly_selectHybrid (first : ℕ × α) (rest : List (ℕ × α)) :
    Maintains (AsksOnly s) (selectHybrid (transcribing B) p node first rest) := by
  unfold selectHybrid
  refine maintains_bind maintains_get fun u => ?_
  refine maintains_bind (maintains_inRange _ _) fun first => ?_
  exact maintains_bind (maintains_scored _ _) fun rest => asksOnly_probe _ _ _ _

/-- What the children lost that were solved for a score at a node. Only reliability branching
observes any, and it asks for those it wants in their order. -/
def resolved (p : Problem α) (rule : BranchingRule α) (t : PseudocostTable α) (x : List α)
    (relax : α) (es : List (Exchange α)) : List (Loss α) :=
  match rule with
  | .reliability r => losses relax (wanted p r t x) es
  | _ => []

theorem resolved_nil (p : Problem α) (rule : BranchingRule α) (t : PseudocostTable α) (x : List α)
    (relax : α) : resolved p rule t x relax [] = [] := by
  cases rule with
  | reliability r => exact losses_nil_right _ _
  | _ => rfl

/-- A variable was chosen by a rule with these requests; what they resolved was observed. -/
structure Chooses (p : Problem α) (rule : BranchingRule α) (node : NodePoint α)
    (es : List (Exchange α)) (s t : Scoring (σ × List (Exchange α)) α) : Prop where
  log : t.log = s.log ++ es
  table : t.table
    = (resolved p rule s.table node.x node.relax es).foldl PseudocostTable.observe s.table
  full : t.fullResolves
    = s.fullResolves + (resolved p rule s.table node.x node.relax es).length
  /-- Reliability branching asks for the children that it wants, up to some place. -/
  boxes : ∀ r, rule = .reliability r → ∃ bs, bs <+: wanted p r s.table node.x ∧
    List.Forall₂ (fun b e => b.restrict? node.box = some e.box) bs es

theorem Chooses.refl (p : Problem α) (rule : BranchingRule α) (node : NodePoint α)
    (s : Scoring (σ × List (Exchange α)) α) : Chooses p rule node [] s s := by
  refine ⟨(List.append_nil _).symm, ?_, ?_, fun r _ => ⟨[], List.nil_prefix, .nil⟩⟩
  · rw [resolved_nil]
    rfl
  · rw [resolved_nil]
    rfl

/-- Choosing a variable observes what its requests resolved, and nothing else. -/
theorem chooses_of_runs_select {limit : ℕ} {choice : Option (Candidate α)}
    {rule : BranchingRule α} (hrule : s.rule = rule ∨ rule = .hybrid ∧ s.rule = .pseudocost)
    (h : Runs (select (transcribing B) p limit node) s choice t) :
    ∃ es, Chooses p rule node es s t := by
  cases selects_of_runs_select h with
  | whole hfs => exact ⟨[], .refl _ _ _ _⟩
  | @chosen first rest u _ c hfs hswitches hchoose =>
    obtain ⟨hlog, htable, hfull⟩ : u.log = s.log ∧ u.table = s.table ∧
        u.fullResolves = s.fullResolves := by
      cases hswitches <;> exact ⟨rfl, rfl, rfl⟩
    -- reliability branching never gives way, and no other rule gives way to it
    have hreliability : ∀ r, u.rule = .reliability r ↔ rule = .reliability r := by
      intro r
      cases hswitches <;> rcases hrule with hrule | ⟨hrule, hrule'⟩ <;> simp_all
    have hnothing : AsksOnly u t → (∀ r, u.rule ≠ .reliability r) →
        ∃ es, Chooses p rule node es s t := by
      rintro ⟨⟨es, hes⟩, htable', hfull'⟩ hother
      have hnot : ∀ r, rule ≠ .reliability r := fun r hr => hother r ((hreliability r).mpr hr)
      have hnone : resolved p rule s.table node.x node.relax es = [] := by
        cases rule with
        | reliability r => exact absurd rfl (hnot r)
        | _ => rfl
      refine ⟨es, by rw [← hes, hlog], ?_, ?_, fun r hr => absurd hr (hnot r)⟩
      · rw [hnone, htable', htable]
        rfl
      · rw [hnone, hfull', hfull]
        rfl
    cases hcurrent : u.rule with
    | reliability r =>
      rw [hcurrent] at hchoose
      obtain ⟨bs, es, hbs, hsolves⟩ := solves_of_runs_selectReliability hfs hchoose
      rw [htable] at hbs
      have hresolved : resolved p (.reliability r) s.table node.x node.relax es
          = losses node.relax bs es := losses_of_prefix hbs hsolves.boxes.length_eq
      rw [(hreliability r).mp hcurrent]
      refine ⟨es, by rw [hsolves.log, hlog], ?_, ?_, ?_⟩
      · rw [hresolved, hsolves.table, htable]
      · rw [hresolved, hsolves.full, hfull]
      · rintro _ ⟨rfl⟩
        exact ⟨bs, hbs, hsolves.boxes⟩
    | hybrid =>
      rw [hcurrent] at hchoose
      refine hnothing (asksOnly_selectHybrid first rest _ _ _ hchoose (asksOnly_of_eq rfl)) ?_
      rw [hcurrent]
      nofun
    | _ =>
      -- these rules have no solves of their own
      refine hnothing (asksOnly_of_eq (eq_of_runs_choose (by rw [hcurrent]; rfl) hchoose)) ?_
      rw [hcurrent]
      nofun

end Rules

end Scoring

end BranchBound
