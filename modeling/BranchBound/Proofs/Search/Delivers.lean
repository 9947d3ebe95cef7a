import BranchBound.Proofs.Relaxation.Dependable
import BranchBound.Proofs.Search.Selection

/-!
# Rules that always choose

Over a backend that answers every request in a box of some kind, choosing a variable never fails:
there are pseudocosts for every variable, the boxes that rules ask about are of that kind, and a
rule that is given a fractional variable ends with one.

* `Delivers`, `delivers_bind`, …: a computation succeeds from every state with an invariant, and
  keeps it.
* `PseudocostTable.Covers`, `Splits`: what scoring relies on.
* `Scoring.Fit`: the invariant of scoring.
* `Scoring.delivers_select`: every rule chooses a variable.
-/

namespace BranchBound

open Relaxation

/-- From every state with an invariant a computation succeeds with a value that has a property, and
keeps the invariant. -/
def Delivers {ε σ β : Type} (I : σ → Prop) (x : ExceptT ε (StateM σ) β) (R : β → Prop) : Prop :=
  ∀ s, I s → ∃ b t, Runs x s b t ∧ I t ∧ R b

/-! ## The monad -/

section Monad

variable {ε σ β γ : Type} {I : σ → Prop} {R : β → Prop} {Q : γ → Prop}
  {x y : ExceptT ε (StateM σ) β}

/-- A value that has the property is delivered without a change of state. -/
theorem delivers_pure {b : β} (hb : R b) : Delivers I (pure b : ExceptT ε (StateM σ) β) R :=
  fun s hs => ⟨b, s, runs_pure_iff.mpr ⟨rfl, rfl⟩, hs, hb⟩

/-- Steps follow one another: what the first delivers is all that the second may rely on. -/
theorem delivers_bind {g : β → ExceptT ε (StateM σ) γ} (hx : Delivers I x R)
    (hg : ∀ b, R b → Delivers I (g b) Q) : Delivers I (x >>= g) Q := by
  intro s hs
  obtain ⟨b, u, hxs, hu, hb⟩ := hx s hs
  obtain ⟨c, t, hgu, ht, hc⟩ := hg b hb u hu
  exact ⟨c, t, runs_bind_iff.mpr ⟨b, u, hxs, hgu⟩, ht, hc⟩

/-- The state that is read has the invariant. -/
theorem delivers_get : Delivers I (get : ExceptT ε (StateM σ) σ) I :=
  fun s hs => ⟨s, s, runs_get_iff.mpr ⟨rfl, rfl⟩, hs, hs⟩

/-- A new state has to have the invariant, whatever the old one was. -/
theorem delivers_set {u : σ} (hu : I u) :
    Delivers I (set u : ExceptT ε (StateM σ) PUnit) fun _ => True :=
  fun _ _ => ⟨⟨⟩, u, runs_set_iff.mpr rfl, hu, trivial⟩

theorem delivers_modify {g : σ → σ} (hg : ∀ s, I s → I (g s)) :
    Delivers I (modify g : ExceptT ε (StateM σ) PUnit) fun _ => True :=
  fun s hs => ⟨⟨⟩, g s, runs_modify_iff.mpr rfl, hg s hs, trivial⟩

theorem delivers_map {f : β → γ} (hx : Delivers I x fun b => Q (f b)) :
    Delivers I (f <$> x) Q := by
  rw [map_eq_pure_bind]
  exact delivers_bind hx fun b hb => delivers_pure hb

/-- Each branch may rely on its own side of the condition. -/
theorem delivers_ite {c : Prop} [Decidable c] (hx : c → Delivers I x R)
    (hy : ¬ c → Delivers I y R) : Delivers I (if c then x else y) R := by
  split
  · exact hx ‹_›
  · exact hy ‹_›

/-- A list of results has the property of each of them. -/
theorem delivers_mapM {f : β → ExceptT ε (StateM σ) γ} {l : List β}
    (hf : ∀ b ∈ l, Delivers I (f b) Q) : Delivers I (l.mapM f) fun cs => ∀ c ∈ cs, Q c := by
  induction l with
  | nil =>
    rw [List.mapM_nil]
    exact delivers_pure fun c hc => (List.not_mem_nil hc).elim
  | cons b l ih =>
    obtain ⟨hb, hl⟩ := List.forall_mem_cons.mp hf
    rw [List.mapM_cons]
    refine delivers_bind hb fun c hc => delivers_bind (ih hl) fun cs hcs => ?_
    exact delivers_pure (List.forall_mem_cons.mpr ⟨hc, hcs⟩)

/-- A first step whose result is known leaves the rest. -/
theorem exists_runs_bind {g : β → ExceptT ε (StateM σ) γ} {T : σ → Prop} {s u : σ} {b : β} {c : γ}
    (hx : Runs x s b u) (hg : ∃ t, Runs (g b) u c t ∧ T t) : ∃ t, Runs (x >>= g) s c t ∧ T t := by
  obtain ⟨t, hrun, ht⟩ := hg
  exact ⟨t, runs_bind_iff.mpr ⟨b, u, hx, hrun⟩, ht⟩

/-- A step without a result has a run, which is how callers use that it delivers. -/
theorem Delivers.exists_runs {z : ExceptT ε (StateM σ) Unit} {s : σ}
    (hz : Delivers I z fun _ => True) (hs : I s) : ∃ t, Runs z s () t ∧ I t := by
  obtain ⟨⟨⟩, t, hrun, ht, -⟩ := hz s hs
  exact ⟨t, hrun, ht⟩

/-- What is known of the value of every successful run is known of this one. -/
theorem Delivers.of_runs {T : β → Prop} (hx : Delivers I x R)
    (hT : ∀ {s b t}, Runs x s b t → T b) : Delivers I x T := by
  intro s hs
  obtain ⟨b, t, hrun, ht, -⟩ := hx s hs
  exact ⟨b, t, hrun, ht, hT hrun⟩

end Monad

/-! ## Pseudocosts -/

namespace PseudocostTable

variable {n var : ℕ} {t : PseudocostTable ExtRat}

/-- There are so many entries in both directions. -/
structure Covers (n : ℕ) (t : PseudocostTable ExtRat) : Prop where
  down : t.down.length = n
  up : t.up.length = n

/-- Both sides of a variable have an entry to predict a gain from. -/
theorem Covers.exists_gains? (h : t.Covers n) (hvar : var < n) (value : ExtRat) :
    ∃ gains, t.gains? var value = some gains := by
  unfold gains?
  rw [List.getElem?_eq_getElem (lt_of_lt_of_eq hvar h.down.symm),
    List.getElem?_eq_getElem (lt_of_lt_of_eq hvar h.up.symm)]
  exact ⟨_, rfl⟩

/-- Whether a variable has enough samples can be told for every variable. -/
theorem Covers.exists_isReliable? (h : t.Covers n) (hvar : var < n) (minSamples : ℕ) :
    ∃ reliable, t.isReliable? var minSamples = some reliable := by
  unfold isReliable?
  rw [List.getElem?_eq_getElem (lt_of_lt_of_eq hvar h.down.symm),
    List.getElem?_eq_getElem (lt_of_lt_of_eq hvar h.up.symm)]
  exact ⟨_, rfl⟩

/-- A new entry takes the place of an old one. -/
theorem Covers.set (h : t.Covers n) (sense : Sense) (entry : Pseudocost ExtRat) :
    (t.set sense var entry).Covers n := by
  cases sense with
  | down => exact ⟨(List.length_set).trans h.down, h.up⟩
  | up => exact ⟨h.down, (List.length_set).trans h.up⟩

/-- An observation finds its entry, and the table keeps its length. -/
theorem Covers.exists_update? {b : Branch ExtRat} (h : t.Covers n) (hvar : b.var < n)
    (parent child : ExtRat) :
    ∃ updated, t.update? b parent child = some updated ∧ updated.1.Covers n := by
  have hside : (t.side b.sense).length = n := by
    cases b.sense with
    | down => exact h.down
    | up => exact h.up
  unfold update?
  split
  · rw [List.getElem?_eq_getElem (lt_of_lt_of_eq hvar hside.symm)]
    exact ⟨_, rfl, h.set _ _⟩
  · exact ⟨_, rfl, h⟩

end PseudocostTable

/-! ## Scoring -/

/-- A variable with a value that both branches can be taken from. -/
structure Splits (n : ℕ) (f : ℕ × ExtRat) : Prop where
  var : f.1 < n
  value : Scalar.isFinite f.2 = true

namespace Splits

variable {n : ℕ} {c : Candidate ExtRat}

/-- The whole number below a finite value is finite. -/
theorem isFinite_floor {v : ExtRat} (h : Scalar.isFinite v = true) :
    Scalar.isFinite (Scalar.floor v) = true := by
  rw [← ExtRat.fin_toRat h]
  rfl

/-- The whole number above a finite value is finite. -/
theorem isFinite_ceil {v : ExtRat} (h : Scalar.isFinite v = true) :
    Scalar.isFinite (Scalar.ceil v) = true := by
  rw [← ExtRat.fin_toRat h]
  rfl

/-- The child below a fractional value has a finite bound. -/
theorem down (h : Splits n c.fraction) : c.down.Usable n := ⟨h.var, isFinite_floor h.value⟩

/-- The child above a fractional value has a finite bound. -/
theorem up (h : Splits n c.fraction) : c.up.Usable n := ⟨h.var, isFinite_ceil h.value⟩

/-- A variable that splits can be held at its value, and the box that is left is of the same kind.
-/
theorem exists_heldBox? {Q : Box ExtRat → Prop} {box : Box ExtRat} (h : Splits n c.fraction)
    (hQ : Box.Tightens n Q) (hbox : Q box) :
    ∃ held, Scoring.heldBox? box c = some held ∧ Q held := by
  obtain ⟨tight, htight, hbox⟩ := hQ.lower hbox h.var (isFinite_floor h.value)
  obtain ⟨held, hheld, hbox⟩ := hQ.upper hbox h.var (isFinite_ceil h.value)
  exact ⟨held, Option.bind_eq_some_iff.mpr ⟨tight, htight, hheld⟩, hbox⟩

end Splits

section Candidates

variable {n : ℕ} {t : PseudocostTable ExtRat} {f : ℕ × ExtRat}

/-- Pseudocosts make a candidate of every variable that splits. -/
theorem PseudocostTable.Covers.exists_byPseudocost? (h : t.Covers n) (hf : Splits n f) :
    ∃ c, Candidate.byPseudocost? t f = some c ∧ Splits n c.fraction := by
  obtain ⟨gains, hgains⟩ := h.exists_gains? hf.var f.2
  unfold Candidate.byPseudocost? PseudocostTable.score?
  rw [hgains]
  exact ⟨_, rfl, hf⟩

/-- So does the blend of losses and gains. -/
theorem PseudocostTable.Covers.exists_byBlend? (weight : ExtRat) (h : t.Covers n)
    (hf : Splits n f) : ∃ c, Candidate.byBlend? t weight f = some c ∧ Splits n c.fraction := by
  obtain ⟨gains, hgains⟩ := h.exists_gains? hf.var f.2
  unfold Candidate.byBlend?
  rw [hgains]
  exact ⟨_, rfl, hf⟩

end Candidates

namespace Scoring

/-- There are pseudocosts for so many variables, and the backend's state has a property. -/
structure Fit {σ : Type} (n : ℕ) (P : σ → Prop) (s : Scoring σ ExtRat) : Prop where
  table : s.table.Covers n
  backend : P s.oracle.backend

variable {σ : Type} {P : σ → Prop} {p : Problem ExtRat} {B : Backend σ ExtRat}
  {node : NodePoint ExtRat}

/-- A look-up that is known to find something delivers it. -/
theorem delivers_inRange {α β : Type} {I : Scoring σ α → Prop} {R : β → Prop} {index : ℕ}
    {o : Option β} (h : ∃ b, o = some b ∧ R b) :
    Delivers I (inRange index o : ScoringM σ α β) R := by
  obtain ⟨b, rfl, hb⟩ := h
  exact delivers_pure hb

/-- Notes are not part of the invariant. -/
theorem delivers_note {n : ℕ} (m : Note ExtRat) :
    Delivers (Fit n P) (note m : ScoringM σ ExtRat Unit) fun _ => True :=
  delivers_modify fun _ hs => ⟨hs.table, hs.backend⟩

/-- An observation of a variable of the problem finds its entry. -/
theorem delivers_learn {n : ℕ} {b : Branch ExtRat} (hvar : b.var < n) (parent child : ExtRat) :
    Delivers (Fit n P) (learn b parent child : ScoringM σ ExtRat Unit) fun _ => True := by
  unfold learn
  refine delivers_bind delivers_get fun s hs => ?_
  refine delivers_bind (delivers_inRange (hs.table.exists_update? hvar parent child)) ?_
  rintro ⟨table, changed⟩ htable
  refine delivers_bind (delivers_set ⟨htable, hs.backend⟩) fun _ _ => ?_
  cases changed with
  | none => exact delivers_pure trivial
  | some entry => exact delivers_note _

/-- A request delivers what is known of its answer from every state of the oracle. -/
theorem delivers_ask {n : ℕ} {request : Oracle σ → Reply ExtRat × Oracle σ}
    {R : Answer ExtRat → Prop}
    (h : ∀ o, P o.backend →
      ∃ a, (request o).1.outcome = .ok a ∧ P (request o).2.backend ∧ R a) :
    Delivers (Fit n P) (ask request) R := by
  intro s hs
  obtain ⟨a, ha, hnext, hR⟩ := h s.oracle hs.backend
  have hrun := run_ask request s
  rw [ha] at hrun
  exact ⟨a, _, hrun, ⟨hs.table, hnext⟩, hR⟩

/-- Variables that can be scored become candidates, and what is done with these may rely on it. -/
theorem delivers_scored {n : ℕ} {β : Type} {R : β → Prop}
    {scored : ℕ × ExtRat → Option (Candidate ExtRat)}
    (hscored : ∀ f, Splits n f → ∃ c, scored f = some c ∧ Splits n c.fraction)
    {first : ℕ × ExtRat} {rest : List (ℕ × ExtRat)} (hfs : ∀ f ∈ first :: rest, Splits n f)
    {g : Candidate ExtRat → List (Candidate ExtRat) → ScoringM σ ExtRat β}
    (hg : ∀ c cs, (∀ d ∈ c :: cs, Splits n d.fraction) → Delivers (Fit n P) (g c cs) R) :
    Delivers (Fit n P) (do
      let c ← inRange first.1 (scored first)
      let cs ← rest.mapM fun f => inRange f.1 (scored f)
      g c cs) R := by
  obtain ⟨hfirst, hrest⟩ := List.forall_mem_cons.mp hfs
  refine delivers_bind (delivers_inRange (hscored first hfirst)) fun c hc => ?_
  refine delivers_bind (delivers_mapM fun f hf => delivers_inRange (hscored f (hrest f hf)))
    fun cs hcs => ?_
  exact hg c cs (List.forall_mem_cons.mpr ⟨hc, hcs⟩)

section Replies

variable {Q : Box ExtRat → Prop} (hB : B.Replies p Q P)

include hB

/-- In a box with the property a call is answered, and keeps what is known of the backend. -/
theorem exists_call {box : Box ExtRat} (hbox : Q box) (cap : Option ℕ)
    {o : Oracle σ} (ho : P o.backend) :
    ∃ a, (B.solve p box cap o.backend).1.outcome = .ok a ∧ Oracle.wellFormed p a = true ∧
      (Oracle.call B p box cap o).1.outcome = .ok a ∧ P (Oracle.call B p box cap o).2.backend := by
  obtain ⟨a, ha, hwell, hnext⟩ := hB.answers cap hbox ho
  refine ⟨a, ha, hwell, ?_⟩
  unfold Oracle.call
  dsimp only
  rw [ha]
  dsimp only
  rw [if_pos hwell]
  exact ⟨rfl, hnext⟩

/-- The relaxation of a node is answered, by an answer of the right shape. -/
theorem delivers_solveNode {box : Box ExtRat} (hbox : Q box) :
    Delivers (Fit p.numVars P) (ask (Oracle.solveNode B p box)) fun a =>
      Oracle.wellFormed p a = true ∧ ∃ b, P b ∧ (B.solve p box none b).1.outcome = .ok a := by
  apply delivers_ask
  intro o ho
  obtain ⟨a, ha, hwell, hcall, hnext⟩ := exists_call hB hbox none ho
  refine ⟨a, hcall, ?_, hwell, o.backend, ho, ha⟩
  show P (Oracle.countIf _ _ _).backend
  rw [Oracle.backend_countIf]
  exact hnext

/-- A capped request in such a box is answered, too. -/
theorem delivers_resolve {box : Box ExtRat} (hbox : Q box) (cap : ℕ) :
    Delivers (Fit p.numVars P) (ask (Oracle.resolve B p box cap)) fun _ => True := by
  apply delivers_ask
  intro o ho
  obtain ⟨a, -, -, hcall, hnext⟩ := exists_call hB hbox (some (max cap 1)) ho
  refine ⟨a, hcall, ?_, trivial⟩
  show P (Oracle.countIf _ _ _).backend
  rw [Oracle.backend_countIf]
  exact hnext

/-! ### Hybrid branching -/

/-- Probing only asks in boxes where a candidate is held, which are of the same kind. -/
theorem delivers_probe (hbox : Q node.box) (cap : ℕ) {cs : List (Candidate ExtRat)}
    (hcs : ∀ c ∈ cs, Splits p.numVars c.fraction) (top : ExtRat) (chosen : Candidate ExtRat) :
    Delivers (Fit p.numVars P) (probe B p node cap cs top chosen) fun _ => True := by
  induction cs generalizing top chosen with
  | nil => exact delivers_pure trivial
  | cons c cs ih =>
    obtain ⟨hc, hcs⟩ := List.forall_mem_cons.mp hcs
    rw [probe]
    have hheldBox := hc.exists_heldBox? hB.tightens hbox
    refine delivers_bind (delivers_inRange hheldBox) fun held hheld => ?_
    refine delivers_bind (delivers_resolve hB hheld cap) fun answer _ => ?_
    exact delivers_ite (fun _ => ih hcs _ _) fun _ => ih hcs _ _

/-- The hybrid rule ends with a candidate: the list it probes is not empty. -/
theorem delivers_selectHybrid (hbox : Q node.box) {first : ℕ × ExtRat}
    {rest : List (ℕ × ExtRat)} (hfs : ∀ f ∈ first :: rest, Splits p.numVars f) :
    Delivers (Fit p.numVars P) (selectHybrid B p node first rest) fun _ => True := by
  unfold selectHybrid
  refine delivers_bind delivers_get fun s hs => ?_
  refine delivers_scored (fun f => hs.table.exists_byPseudocost?) hfs fun c cs hcs => ?_
  refine delivers_probe hB hbox _ (fun d hd => hcs d ?_) _ _
  exact List.mem_mergeSort.mp (List.mem_of_mem_take hd)

/-! ### Reliability branching -/

/-- A child is measured in a tightened box, which is of the same kind. -/
theorem delivers_measureChild (hbox : Q node.box) (cap : ℕ) {b : Branch ExtRat}
    (hb : b.Usable p.numVars) :
    Delivers (Fit p.numVars P) (measureChild B p node cap b) fun _ => True := by
  unfold measureChild
  have hchild := hB.tightens.exists_restrict? hbox hb
  refine delivers_bind (delivers_inRange hchild) fun box hrestricted => ?_
  refine delivers_bind (delivers_resolve hB hrestricted cap) fun answer _ => ?_
  cases answer.status with
  | optimal =>
    refine delivers_bind (delivers_modify fun _ hs => ⟨hs.table, hs.backend⟩) fun _ _ => ?_
    exact delivers_bind (delivers_learn hb.var _ _) fun _ _ => delivers_pure trivial
  | iterationLimit =>
    exact delivers_bind (delivers_modify fun _ hs => ⟨hs.table, hs.backend⟩) fun _ _ =>
      delivers_pure trivial
  | infeasible => exact delivers_pure trivial

/-- Unreliable candidates are measured on both sides, reliable ones predicted; both give a score. -/
theorem delivers_walkedScore (hbox : Q node.box) (r : Reliability ExtRat)
    {c : Candidate ExtRat} (hc : Splits p.numVars c.fraction) :
    Delivers (Fit p.numVars P) (walkedScore B p node r c) fun _ => True := by
  unfold walkedScore
  refine delivers_bind delivers_get fun s hs => ?_
  obtain ⟨reliable, hreliable⟩ := hs.table.exists_isReliable? hc.var r.minSamples
  refine delivers_bind (delivers_inRange ⟨reliable, hreliable, rfl⟩) fun _ _ => ?_
  refine delivers_ite (fun _ => delivers_pure trivial) fun _ => ?_
  unfold measure
  refine delivers_bind delivers_get fun s hs => ?_
  obtain ⟨gains, hgains⟩ := hs.table.exists_gains? hc.var c.value
  refine delivers_bind (delivers_inRange ⟨gains, hgains, rfl⟩) fun _ _ => ?_
  refine delivers_bind (delivers_measureChild hB hbox _ hc.down) fun _ _ => ?_
  exact delivers_bind (delivers_measureChild hB hbox _ hc.up) fun _ _ => delivers_pure trivial

/-- The walk asks about one candidate at a time and ends with the list. -/
theorem delivers_walk (hbox : Q node.box) (r : Reliability ExtRat)
    {cs : List (Candidate ExtRat)} (hcs : ∀ c ∈ cs, Splits p.numVars c.fraction) (top : ExtRat)
    (stale : ℕ) : Delivers (Fit p.numVars P) (walk B p node r cs top stale) fun _ => True := by
  induction cs generalizing top stale with
  | nil => exact delivers_pure trivial
  | cons c cs ih =>
    obtain ⟨hc, hcs⟩ := List.forall_mem_cons.mp hcs
    rw [walk]
    refine delivers_bind (delivers_walkedScore hB hbox r hc) fun score _ => ?_
    refine delivers_ite (fun _ => ?_) fun _ => ?_
    · exact delivers_bind (delivers_note _) fun _ _ => delivers_pure trivial
    · exact delivers_bind (ih hcs _ _) fun _ _ => delivers_pure trivial

/-- Reliability branching ends with a candidate: there is a first one to fall back on. -/
theorem delivers_selectReliability (hbox : Q node.box) (r : Reliability ExtRat)
    {first : ℕ × ExtRat} {rest : List (ℕ × ExtRat)}
    (hfs : ∀ f ∈ first :: rest, Splits p.numVars f) :
    Delivers (Fit p.numVars P) (selectReliability B p node r first rest) fun _ => True := by
  unfold selectReliability
  refine delivers_bind delivers_get fun s hs => ?_
  refine delivers_scored (fun f => hs.table.exists_byBlend? r.weight) hfs fun c cs hcs => ?_
  refine delivers_bind (delivers_walk hB hbox r (fun d hd => hcs d ?_) _ _) fun _ _ =>
    delivers_pure trivial
  exact List.mem_mergeSort.mp hd

/-! ### All rules -/

/-- Every rule ends with a candidate, given a variable that splits. -/
theorem delivers_choose (hbox : Q node.box) (rule : BranchingRule ExtRat)
    {first : ℕ × ExtRat} {rest : List (ℕ × ExtRat)}
    (hfs : ∀ f ∈ first :: rest, Splits p.numVars f) :
    Delivers (Fit p.numVars P) (choose B p node rule first rest) fun _ => True := by
  cases rule with
  | fixedOrder => exact delivers_pure trivial
  | mostFractional => exact delivers_pure trivial
  | pseudocost =>
    refine delivers_bind delivers_get fun s hs => ?_
    exact delivers_scored (fun f => hs.table.exists_byPseudocost?) hfs fun _ _ _ =>
      delivers_pure trivial
  | reliability r => exact delivers_selectReliability hB hbox r hfs
  | hybrid => exact delivers_selectHybrid hB hbox hfs

omit hB in
theorem delivers_switchRule {n : ℕ} (limit depth : ℕ) :
    Delivers (Fit n P) (switchRule limit depth : ScoringM σ ExtRat Unit) fun _ => True := by
  unfold switchRule
  refine delivers_bind delivers_get fun s hs => ?_
  split
  · refine delivers_ite (fun _ => ?_) fun _ => delivers_pure trivial
    exact delivers_bind (delivers_note _) fun _ _ =>
      delivers_modify fun _ hs => ⟨hs.table, hs.backend⟩
  · exact delivers_pure trivial

/-- Where there is a fractional variable, every rule chooses one. -/
theorem delivers_select (hbox : Q node.box) (limit : ℕ) {fs : List (ℕ × ExtRat)}
    (hx : p.fractional? node.x = some fs) (hne : fs ≠ []) (hfs : ∀ f ∈ fs, Splits p.numVars f) :
    Delivers (Fit p.numVars P) (select B p limit node) fun choice =>
      ∃ c, choice = some c ∧ Splits p.numVars c.fraction := by
  unfold select
  refine delivers_bind (delivers_inRange ⟨fs, hx, rfl⟩) ?_
  rintro _ rfl
  cases fs with
  | nil => exact absurd rfl hne
  | cons first rest =>
    refine delivers_bind (delivers_switchRule limit node.depth) fun _ _ => ?_
    refine delivers_bind delivers_get fun s _ => delivers_map ?_
    refine (delivers_choose hB hbox s.rule hfs).of_runs fun hrun => ?_
    exact ⟨_, rfl, hfs _ (fraction_mem_of_runs_choose hrun)⟩

end Replies

end Scoring

end BranchBound
