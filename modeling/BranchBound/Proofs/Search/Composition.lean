import BranchBound.Proofs.Search.Selection

/-!
# What rules are made of

A rule reads what scoring knows, writes notes, solves candidates with their variable held, and
measures children. A property of scoring computations that these have, and that is handed on where
computations are put together, is a property of every rule.

* `Scoring.Composes`: such a property.
* `Scoring.Composes.choose`: every rule has it.
* `Scoring.rule_select`: the rule in effect changes only from hybrid to pseudocost branching.
-/

namespace BranchBound.Scoring

open Relaxation

variable {σ α : Type} [Scalar α]

/-- A property of scoring computations that is handed on where they are put together, and that the
requests of rules for the variables `fs` of a node have. -/
structure Composes (B : Backend σ α) (p : Problem α) (node : NodePoint α) (fs : List (ℕ × α))
    (Φ : (β : Type) → ScoringM σ α β → Prop) : Prop where
  pure : ∀ {β : Type} (b : β), Φ β (pure b)
  bind : ∀ {β γ : Type} {x : ScoringM σ α β} {g : β → ScoringM σ α γ}, Φ β x → (∀ b, Φ γ (g b)) →
    Φ γ (x >>= g)
  get : Φ (Scoring σ α) get
  inRange : ∀ {β γ : Type} (index : ℕ) (o : Option β) {g : β → ScoringM σ α γ},
    (∀ b, o = some b → Φ γ (g b)) → Φ γ (inRange index o >>= g)
  note : ∀ n : Note α, Φ Unit (note n)
  /-- The solve of a candidate that is held. -/
  held : ∀ (cap : ℕ) (c : Candidate α), c.fraction ∈ fs → ∀ box, heldBox? node.box c = some box →
    Φ (Answer α) (ask (Oracle.resolve B p box cap))
  /-- The solve of a child of a candidate. -/
  measured : ∀ (cap : ℕ) (c : Candidate α), c.fraction ∈ fs →
    Φ (Option α) (measureChild B p node cap c.down) ∧
      Φ (Option α) (measureChild B p node cap c.up)

namespace Composes

variable {B : Backend σ α} {p : Problem α} {node : NodePoint α} {fs : List (ℕ × α)}
  {Φ : (β : Type) → ScoringM σ α β → Prop}

section Parts

variable (h : Composes B p node fs Φ)

include h

/-- What is done with the candidates for some variables has the property, if it has it for all
candidates for these. -/
theorem scored {γ : Type} {scored : ℕ × α → Option (Candidate α)}
    (hscored : ∀ f c, scored f = some c → c.fraction = f) (gs : List (ℕ × α))
    {g : List (Candidate α) → ScoringM σ α γ}
    (hg : ∀ cs, cs.map Candidate.fraction = gs → Φ γ (g cs)) :
    Φ γ (gs.mapM (fun f => (Scoring.inRange f.1 (scored f) : ScoringM σ α _)) >>= g) := by
  induction gs generalizing g with
  | nil =>
    rw [List.mapM_nil, pure_bind]
    exact hg [] rfl
  | cons f gs ih =>
    rw [List.mapM_cons, bind_assoc]
    refine h.inRange _ _ fun c hc => ?_
    simp only [bind_assoc, pure_bind]
    exact ih fun cs hcs => hg (c :: cs) (by rw [List.map_cons, hscored f c hc, hcs])

/-- Probing holds one candidate after another. -/
theorem probe (cap : ℕ) {cs : List (Candidate α)} (hcs : ∀ c ∈ cs, c.fraction ∈ fs) (top : α)
    (chosen : Candidate α) : Φ _ (Scoring.probe B p node cap cs top chosen) := by
  induction cs generalizing top chosen with
  | nil => exact h.pure chosen
  | cons c cs ih =>
    obtain ⟨hc, hcs⟩ := List.forall_mem_cons.mp hcs
    rw [Scoring.probe]
    refine h.inRange _ _ fun box hbox => h.bind (h.held cap c hc box hbox) fun answer => ?_
    exact iteInduction (fun _ => ih hcs _ _) fun _ => ih hcs _ _

/-- A walked score measures both children or predicts them. -/
theorem walkedScore (r : Reliability α) {c : Candidate α} (hc : c.fraction ∈ fs) :
    Φ _ (Scoring.walkedScore B p node r c) := by
  unfold Scoring.walkedScore
  refine h.bind h.get fun s => h.inRange _ _ fun reliable _ => ?_
  split
  · exact h.pure _
  · unfold measure
    refine h.bind h.get fun s => h.inRange _ _ fun gains _ => ?_
    refine h.bind (h.measured _ c hc).1 fun down => h.bind (h.measured _ c hc).2 fun up => ?_
    exact h.pure _

/-- A walk scores candidates one after another. -/
theorem walk (r : Reliability α) {cs : List (Candidate α)} (hcs : ∀ c ∈ cs, c.fraction ∈ fs)
    (top : α) (stale : ℕ) : Φ _ (Scoring.walk B p node r cs top stale) := by
  induction cs generalizing top stale with
  | nil => exact h.pure []
  | cons c cs ih =>
    obtain ⟨hc, hcs⟩ := List.forall_mem_cons.mp hcs
    rw [Scoring.walk]
    refine h.bind (h.walkedScore r hc) fun score => iteInduction (fun _ => ?_) fun _ => ?_
    · exact h.bind (h.note _) fun _ => h.pure _
    · exact h.bind (ih hcs _ _) fun scores => h.pure _

end Parts

/-- Every rule has the property. -/
theorem choose {first : ℕ × α} {rest : List (ℕ × α)} (h : Composes B p node (first :: rest) Φ)
    (rule : BranchingRule α) : Φ _ (Scoring.choose B p node rule first rest) := by
  -- sorting candidates leaves those that were scored
  have hranked : ∀ {c : Candidate α} {cs : List (Candidate α)},
      (c :: cs).map Candidate.fraction = first :: rest →
      ∀ d ∈ Candidate.ranking (c :: cs), d.fraction ∈ first :: rest := fun hcs d hd =>
    Candidate.fraction_mem_of_mem hcs (List.mem_mergeSort.mp hd)
  cases rule with
  | fixedOrder => exact h.pure _
  | mostFractional => exact h.pure _
  | pseudocost =>
    refine h.bind h.get fun s => h.inRange _ _ fun c _ => ?_
    exact h.scored (fun _ _ => Candidate.fraction_byPseudocost?) _ fun cs _ => h.pure _
  | reliability r =>
    refine h.bind h.get fun s => h.inRange _ _ fun c hc => ?_
    refine h.scored (fun _ _ => Candidate.fraction_byBlend?) _ fun cs hcs => ?_
    refine h.bind (h.walk r (hranked ?_) _ _) fun scores => h.pure _
    rw [List.map_cons, Candidate.fraction_byBlend? hc, hcs]
  | hybrid =>
    refine h.bind h.get fun s => h.inRange _ _ fun c hc => ?_
    refine h.scored (fun _ _ => Candidate.fraction_byPseudocost?) _ fun cs hcs => ?_
    refine h.probe _ (fun d hd => hranked ?_ d (List.mem_of_mem_take hd)) _ _
    rw [List.map_cons, Candidate.fraction_byPseudocost? hc, hcs]

end Composes

/-! ## The rule in effect -/

section Rule

variable {β γ : Type} {B : Backend σ α} {p : Problem α} {node : NodePoint α}

/-- A computation leaves the rule as it is, whether it succeeds or fails. -/
def KeepsRule (x : ScoringM σ α β) : Prop := ∀ s, (x.run.run s).2.rule = s.rule

omit [Scalar α] in
/-- Steps that leave the rule in effect alone may follow one another. -/
theorem keepsRule_bind {x : ScoringM σ α β} {g : β → ScoringM σ α γ} (hx : KeepsRule x)
    (hg : ∀ b, KeepsRule (g b)) : KeepsRule (x >>= g) := by
  intro s
  have hfirst := hx s
  rw [run_bind]
  rcases hrun : x.run.run s with ⟨e | b, u⟩
  · rw [hrun] at hfirst
    exact hfirst
  · rw [hrun] at hfirst
    exact (hg b u).trans hfirst

omit [Scalar α] in
theorem keepsRule_inRange_bind {index : ℕ} {o : Option β} {g : β → ScoringM σ α γ}
    (hg : ∀ b, o = some b → KeepsRule (g b)) : KeepsRule (inRange index o >>= g) := by
  cases o with
  | none => exact fun s => rfl
  | some b =>
    rw [inRange, pure_bind]
    exact hg b rfl

omit [Scalar α] in
theorem keepsRule_ask (request : Oracle σ → Reply α × Oracle σ) :
    KeepsRule (ask request : ScoringM σ α (Answer α)) := by
  intro s
  rw [run_ask]

theorem keepsRule_learn (b : Branch α) (parent child : α) :
    KeepsRule (learn b parent child : ScoringM σ α Unit) := by
  intro s
  unfold learn
  rw [run_bind, run_get]
  dsimp only
  cases s.table.update? b parent child with
  | none => rfl
  | some updated =>
    obtain ⟨table, _ | entry⟩ := updated <;> rfl

/-- A child is measured by one request, and its loss is learned. -/
theorem keepsRule_measureChild (cap : ℕ) (b : Branch α) :
    KeepsRule (measureChild B p node cap b) := by
  unfold measureChild
  refine keepsRule_inRange_bind fun box _ => keepsRule_bind (keepsRule_ask _) fun a => ?_
  cases a.status with
  | optimal =>
    refine keepsRule_bind (fun s => rfl) fun _ => ?_
    exact keepsRule_bind (keepsRule_learn _ _ _) fun _ => fun s => rfl
  | iterationLimit => exact keepsRule_bind (fun s => rfl) fun _ => fun s => rfl
  | infeasible => exact fun s => rfl

/-- Nothing that rules are made of changes the rule in effect. -/
theorem composes_keepsRule (fs : List (ℕ × α)) :
    Composes B p node fs fun _ x => KeepsRule x where
  pure _ _ := rfl
  bind := keepsRule_bind
  get _ := rfl
  inRange _ _ _ := keepsRule_inRange_bind
  note _ _ := rfl
  held _ _ _ _ _ := keepsRule_ask _
  measured _ _ _ := ⟨keepsRule_measureChild _ _, keepsRule_measureChild _ _⟩

omit [Scalar α] in
/-- Hybrid branching may give way to pseudocost branching, and no other rule changes. -/
theorem exists_runs_switchRule (limit depth : ℕ) (s : Scoring σ α) :
    ∃ t, Runs (switchRule limit depth) s () t ∧
      (t.rule = s.rule ∨ s.rule = .hybrid ∧ t.rule = .pseudocost) := by
  have hget : Runs (get : ScoringM σ α _) s s s := runs_get_iff.mpr ⟨rfl, rfl⟩
  have hkeep : Runs (Pure.pure () : ScoringM σ α Unit) s () s := runs_pure_iff.mpr ⟨rfl, rfl⟩
  unfold switchRule
  by_cases hhybrid : s.rule = .hybrid
  · by_cases hdeep : limit < depth
    · refine ⟨{ s with rule := .pseudocost, journal := s.journal.push (.ruleSwitched depth limit) },
        runs_bind_iff.mpr ⟨s, s, hget, ?_⟩, .inr ⟨hhybrid, rfl⟩⟩
      rw [hhybrid]
      dsimp only
      rw [if_pos hdeep]
      exact runs_bind_iff.mpr ⟨(), _, runs_modify_iff.mpr rfl, runs_modify_iff.mpr rfl⟩
    · refine ⟨s, runs_bind_iff.mpr ⟨s, s, hget, ?_⟩, .inl rfl⟩
      rw [hhybrid]
      dsimp only
      rw [if_neg hdeep]
      exact hkeep
  · refine ⟨s, runs_bind_iff.mpr ⟨s, s, hget, ?_⟩, .inl rfl⟩
    split
    · exact absurd ‹_› hhybrid
    · exact hkeep

/-- Choosing a variable changes the rule only from hybrid to pseudocost branching, whether a
variable is found or not, and also if the choice fails. -/
theorem rule_select (limit : ℕ) (s : Scoring σ α) :
    ((select B p limit node).run.run s).2.rule = s.rule ∨
      s.rule = .hybrid ∧ ((select B p limit node).run.run s).2.rule = .pseudocost := by
  unfold select
  cases hfs : p.fractional? node.x with
  | none => exact .inl rfl
  | some fs =>
    cases fs with
    | nil => exact .inl rfl
    | cons first rest =>
      obtain ⟨u, hswitch, hrule⟩ := exists_runs_switchRule limit node.depth s
      have hchoose : KeepsRule (do some <$> choose B p node (← MonadState.get).rule first rest) :=
        keepsRule_bind (fun _ => rfl) fun s => by
          rw [map_eq_pure_bind]
          exact keepsRule_bind ((composes_keepsRule _).choose _) fun _ _ => rfl
      unfold Runs at hswitch
      rw [inRange, pure_bind]
      dsimp only
      rw [run_bind, hswitch]
      dsimp only
      rw [hchoose u]
      exact hrule

end Rule

end BranchBound.Scoring
