import BranchBound.Proofs.Relaxation.Simplex
import BranchBound.Proofs.Search.Kept

/-!
# Searches between zero and one

Where all domains end at one, every bound a search adds is zero or one, so the box of every node is
one of finitely many. If optima lie in such boxes, the branches of a path fix different variables,
and the depth of a node never closes it before its variables are all fixed.

* `Box.ZeroOne.replay?`: branches that fix variables keep bounds at zero and one.
* `forall_path_of_grown`: what branching keeps is true of the path of every node.
* `zeroOnePath_of_grown`, `zeroOne_of_grown`: paths and boxes of the nodes.
* `Solved.tooDeep_eq_false`: a node with a fractional optimum is not too deep.
* `not_dropped`, `Kept.le_objective`: without a limit on the depth no point is dropped, and where
  nothing is open every point is reached.
* `Accepted`, `incumbent_of_grown`: where an incumbent comes from.
-/

namespace BranchBound

open Relaxation

/-! ## Boxes -/

section Boxes

variable {box restricted : Box ExtRat} {b : Branch ExtRat} {bs : List (Branch ExtRat)}

/-- A branch that fixes a variable at zero or one keeps the bounds zero or one. -/
theorem Box.ZeroOne.restrict? (hbox : box.ZeroOne) (hb : b.Fixes)
    (h : b.restrict? box = some restricted) : restricted.ZeroOne := by
  have hmin : ∀ c : ExtRat, c = 0 ∨ c = 1 → Scalar.minNum c 0 = 0 ∨ Scalar.minNum c 0 = 1 := by
    rintro c (rfl | rfl)
    · exact .inl (by decide +kernel)
    · exact .inl (by decide +kernel)
  have hmax : ∀ c : ExtRat, c = 0 ∨ c = 1 → Scalar.maxNum c 1 = 0 ∨ Scalar.maxNum c 1 = 1 := by
    rintro c (rfl | rfl)
    · exact .inr (by decide +kernel)
    · exact .inr (by decide +kernel)
  unfold Branch.restrict? at h
  obtain ⟨hlower, hupper⟩ := List.forall_mem_append.mp hbox
  rcases hb with ⟨hsense, hrhs⟩ | ⟨hsense, hrhs⟩
  · rw [hsense, hrhs] at h
    obtain ⟨-, hrestricted⟩ := Option.ite_none_right_eq_some.mp h
    cases hrestricted
    exact List.forall_mem_append.mpr ⟨hlower, forall_mem_modify hupper hmin _⟩
  · rw [hsense, hrhs] at h
    obtain ⟨-, hrestricted⟩ := Option.ite_none_right_eq_some.mp h
    cases hrestricted
    exact List.forall_mem_append.mpr ⟨forall_mem_modify hlower hmax _, hupper⟩

/-- So does a whole path of such branches. -/
theorem Box.ZeroOne.replay? (hbox : box.ZeroOne) (hbs : ∀ b ∈ bs, b.Fixes)
    (h : box.replay? bs = some restricted) : restricted.ZeroOne := by
  induction bs generalizing box with
  | nil =>
    cases h
    exact hbox
  | cons b bs ih =>
    obtain ⟨next, hnext, hrest⟩ := Option.bind_eq_some_iff.mp h
    obtain ⟨hb, hbs⟩ := List.forall_mem_cons.mp hbs
    exact ih (hbox.restrict? hb hnext) hbs hrest

/-- The root box of a binary problem has bounds zero and one. -/
theorem Box.zeroOne_root {p : Problem ExtRat} {binaryVars : Bool}
    (hbinary : p.isBinaryDomain binaryVars = true) : (Box.root p binaryVars).ZeroOne := by
  refine List.forall_mem_append.mpr ⟨fun lo hlo => ?_, fun hi hhi => ?_⟩
  · exact .inl (List.eq_of_mem_replicate hlo)
  · obtain ⟨t, ht, rfl⟩ := List.mem_map.mp hhi
    exact .inr (if_pos (Problem.capped_of_isBinaryDomain hbinary ht))

end Boxes

/-- In boxes whose bounds are zero or one, optima lie in their box. -/
def Relaxation.Backend.InsideZeroOne {σ : Type} (B : Backend σ ExtRat) (p : Problem ExtRat) :
    Prop :=
  ∀ {box backend a}, box.ZeroOne → (B.solve p box none backend).1.outcome = .ok a →
    a.isOptimal = true → box.Contains a.x

namespace Search

/-! ## Paths -/

section Paths

variable {σ α : Type} [Scalar α] {ctx : Context σ α} {s t : Core α} {Q : List (Branch α) → Prop}

/-- Branching on a fractional variable keeps a property of paths. -/
def Branches (ctx : Context σ α) (Q : List (Branch α) → Prop) : Prop :=
  ∀ {s : Core α} {id node box a fs bs} {c : Candidate α}, Solved ctx id s node box a →
    a.isOptimal = true → ctx.problem.fractional? a.x = some fs → c.fraction ∈ fs →
    s.tree.Path id bs → Q bs → Q (c.down :: bs) ∧ Q (c.up :: bs)

theorem forall_path_visited {id : ℕ} (hQ : Branches ctx Q) (hvisited : Visited ctx id s t)
    (h : ∀ k node, s.tree.get? k = some node → ∃ bs, s.tree.Path k bs ∧ Q bs) :
    ∀ k node, t.tree.get? k = some node → ∃ bs, t.tree.Path k bs ∧ Q bs := by
  have hext := hvisited.extends
  -- a node that was there before keeps its path
  have hold : ∀ {k node}, s.tree.get? k = some node → ∃ bs, t.tree.Path k bs ∧ Q bs := by
    intro k node hk
    obtain ⟨bs, hpath, hbs⟩ := h k node hk
    exact ⟨bs, hpath.mono hext, hbs⟩
  intro k node hk
  cases hvisited with
  | @branched node' box a c fs tree tree' hsolved hoptimal hfs hc infeasibility hdown hup =>
    obtain ⟨bs, hpath, hbs⟩ := h id node' hsolved.get?
    obtain ⟨hdownQ, hupQ⟩ := hQ hsolved hoptimal hfs hc hpath hbs
    have hparent := get?_recorded s id a.objective .candidate infeasibility hsolved.get?
    have hpath' := hpath.mono (extends_recorded s id a.objective .candidate infeasibility)
    obtain ⟨hpathDown, hpathUp⟩ := hpath'.children hparent hdown hup
    rw [Tree.get?_children hparent hdown hup] at hk
    split at hk
    · rename_i heq
      exact ⟨_, heq ▸ hpathUp, hupQ⟩
    · split at hk
      · rename_i heq
        exact ⟨_, heq ▸ hpathDown, hdownQ⟩
      · obtain ⟨before, hbefore, -⟩ := Tree.exists_of_get?_modify (by exact fun _ => rfl) hk
        exact hold hbefore
  | _ =>
    obtain ⟨before, hbefore, -⟩ := Tree.exists_of_get?_modify (by exact fun _ => rfl) hk
    exact hold hbefore

/-- What branching keeps is true of the path of every node. -/
theorem forall_path_of_grown (hnil : Q []) (hQ : Branches ctx Q) (h : Grown ctx s) :
    ∀ id node, s.tree.get? id = some node → ∃ bs, s.tree.Path id bs ∧ Q bs := by
  induction h with
  | start =>
    intro id node hnode
    have hid : id = 0 := Nat.lt_one_iff.mp (Tree.get?_lt_size hnode)
    subst hid
    cases hnode
    exact ⟨[], .root rfl rfl rfl, hnil⟩
  | take hs hpop hvisited ih => exact forall_path_visited hQ hvisited ih

/-- Every node of a search has a path. -/
theorem exists_path_of_grown (h : Grown ctx s) :
    ∀ id node, s.tree.get? id = some node → ∃ bs, s.tree.Path id bs := by
  intro id node hnode
  obtain ⟨bs, hpath, -⟩ := forall_path_of_grown (Q := fun _ => True) trivial
    (fun _ _ _ _ _ _ => ⟨trivial, trivial⟩) h id node hnode
  exact ⟨bs, hpath⟩

end Paths

variable {σ : Type} {ctx : Context σ ExtRat} {s : Core ExtRat}

section Binary

variable (hbinary : ctx.problem.isBinaryDomain ctx.settings.binaryVars = true)
  (hbackend : ctx.backend.InsideZeroOne ctx.problem)

include hbinary

/-- Every box of a search on a binary problem has bounds zero or one. -/
theorem zeroOne_of_path {id : ℕ} {node : Node ExtRat} {box : Box ExtRat}
    {bs : List (Branch ExtRat)} (hpath : s.tree.Path id bs) (hnode : s.tree.get? id = some node)
    (hzeroOne : ZeroOnePath ctx.problem.numVars bs) (hbox : s.tree.box? id ctx.rootBox = some box) :
    box.ZeroOne := by
  rw [hpath.box?_eq hnode] at hbox
  exact (Box.zeroOne_root hbinary).replay? hzeroOne.fixes hbox

include hbackend

/-- Branching fixes a variable that was not fixed before. -/
theorem branches_zeroOnePath : Branches ctx (ZeroOnePath ctx.problem.numVars) := by
  intro s id node box a fs bs c hsolved hoptimal hfs hc hpath hzeroOne
  obtain ⟨backend, hanswer⟩ := hsolved.answered
  have hbox := zeroOne_of_path hbinary hpath hsolved.get? hzeroOne hsolved.box?
  exact hsolved.zeroOnePath_cons (hbackend hbox hanswer hoptimal) hfs hc hpath hbinary hzeroOne

/-- The branches of every path fix different variables. -/
theorem zeroOnePath_of_grown (h : Grown ctx s) : ∀ id node, s.tree.get? id = some node →
    ∃ bs, s.tree.Path id bs ∧ ZeroOnePath ctx.problem.numVars bs :=
  forall_path_of_grown (zeroOnePath_nil _) (branches_zeroOnePath hbinary hbackend) h

/-- Every node has a box whose bounds are zero or one. -/
theorem zeroOne_of_grown (h : Grown ctx s) {id : ℕ} {box : Box ExtRat}
    (hbox : s.tree.box? id ctx.rootBox = some box) : box.ZeroOne := by
  obtain ⟨node, hnode⟩ := Tree.exists_of_box? hbox
  obtain ⟨bs, hpath, hzeroOne⟩ := zeroOnePath_of_grown hbinary hbackend h id node hnode
  exact zeroOne_of_path hbinary hpath hnode hzeroOne hbox

/-- A node with a fractional optimum still has a variable that is not fixed. -/
theorem Solved.tooDeep_eq_false (hlimit : ctx.settings.depthLimit = none)
    (htol : 0 < ctx.settings.integralityTol) {id : ℕ} {node : Node ExtRat} {box : Box ExtRat}
    {a : Answer ExtRat} {bs : List (Branch ExtRat)} (hpath : s.tree.Path id bs)
    (hzeroOne : ZeroOnePath ctx.problem.numVars bs) (h : Solved ctx id s node box a)
    (hoptimal : a.isOptimal = true)
    (hinteger : ctx.problem.integerFeasible? a.x ctx.settings.integralityTol = some false) :
    ctx.tooDeep node.depth = false := by
  obtain ⟨backend, hanswer⟩ := h.answered
  have hbox := zeroOne_of_path hbinary hpath h.get? hzeroOne h.box?
  have hinside := hbackend hbox hanswer hoptimal
  rw [← Bool.not_eq_true]
  intro hdeep
  exact h.integerFeasible?_ne hinside hlimit htol hdeep hpath (fun _ => hzeroOne) hinteger

/-- No node is closed for its depth alone. -/
theorem not_dropped (hlimit : ctx.settings.depthLimit = none)
    (htol : 0 < ctx.settings.integralityTol) (h : Grown ctx s) {id : ℕ} {node : Node ExtRat}
    {box : Box ExtRat} {a : Answer ExtRat} : ¬ Dropped ctx s id node box a := by
  intro hdropped
  obtain ⟨bs, hpath, hzeroOne⟩ := zeroOnePath_of_grown hbinary hbackend h id node hdropped.get?
  have hshallow := hdropped.toSolved.tooDeep_eq_false hbinary hbackend hlimit htol hpath hzeroOne
    hdropped.isOptimal hdropped.fractional
  exact Bool.false_ne_true (hshallow.symm.trans hdropped.tooDeep)

/-- Where nothing is open, every point has been reached. -/
theorem Kept.le_objective {y : List ℚ} {v : ExtRat} (hkept : Kept ctx y v s.frontier.entries s)
    (hlimit : ctx.settings.depthLimit = none) (htol : 0 < ctx.settings.integralityTol)
    (h : Grown ctx s) (hentries : s.frontier.entries = []) : v ≤ s.incumbent.objective := by
  cases hkept with
  | reached hle => exact hle
  | pending he =>
    rw [hentries] at he
    cases he
  | dropped hdropped => exact absurd hdropped (not_dropped hbinary hbackend hlimit htol h)

end Binary

/-! ## The incumbent -/

/-- An integer optimum that the backend has answered about the box of some node. -/
structure Accepted (ctx : Context σ ExtRat) (tree : Tree ExtRat) (box : Box ExtRat)
    (a : Answer ExtRat) : Prop where
  box? : ∃ id, tree.box? id ctx.rootBox = some box
  answered : ∃ backend, (ctx.backend.solve ctx.problem box none backend).1.outcome = .ok a
  isOptimal : a.isOptimal = true
  whole : ctx.problem.integerFeasible? a.x ctx.settings.integralityTol = some true

theorem Accepted.of_extends {tree tree' : Tree ExtRat} {box : Box ExtRat} {a : Answer ExtRat}
    (h : Accepted ctx tree box a)
    (hpaths : ∀ id node, tree.get? id = some node → ∃ bs, tree.Path id bs)
    (hext : tree.Extends tree') : Accepted ctx tree' box a := by
  obtain ⟨id, hbox⟩ := h.box?
  exact ⟨⟨id, Tree.box?_of_extends hpaths hext hbox⟩, h.answered, h.isOptimal, h.whole⟩

/-- An incumbent is an accepted optimum. -/
theorem incumbent_of_grown (h : Grown ctx s) : s.incumbent.point = none ∨
    ∃ box a, Accepted ctx s.tree box a ∧ s.incumbent = ⟨some a.x, a.objective⟩ := by
  induction h with
  | start => exact .inl rfl
  | @take s t e rest hs hpop hvisited ih =>
    have hpaths := exists_path_of_grown hs
    have hext := hvisited.extends
    -- as long as the incumbent stays, all that changes is the tree
    have hkept : t.incumbent = s.incumbent → t.incumbent.point = none ∨
        ∃ box a, Accepted ctx t.tree box a ∧ t.incumbent = ⟨some a.x, a.objective⟩ := by
      intro hsame
      rw [hsame]
      rcases ih with hnone | ⟨box, a, haccepted, heq⟩
      · exact .inl hnone
      · exact .inr ⟨box, a, haccepted.of_extends hpaths hext, heq⟩
    cases hvisited with
    | @integer node box a hsolved hoptimal hinteger infeasibility =>
      by_cases himproved : s.incumbent.improvedBy a.objective = true
      · refine .inr ⟨box, a, ?_, if_pos himproved⟩
        have haccepted : Accepted ctx s.tree box a :=
          ⟨⟨e.node, hsolved.box?⟩, hsolved.answered, hoptimal, hinteger⟩
        exact haccepted.of_extends hpaths hext
      · exact hkept (if_neg himproved)
    | _ => exact hkept rfl

end Search

end BranchBound
