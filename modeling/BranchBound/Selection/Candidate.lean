import BranchBound.Pseudocost

/-!
# Branching candidates

Fractional integer variables with scores. Where several candidates share the best score, the first
one in the order of the variables wins, so a choice is reproducible.

* `Candidate.best`: the first candidate with the largest score.
* `Candidate.ranking`: candidates by falling score, equal ones in their order.
* `blend`: a score from two gains.
-/

namespace BranchBound

variable {α : Type} [Scalar α]

/-- A variable that can be branched on, and how promising that is. -/
structure Candidate (α : Type) where
  var : Nat
  value : α
  score : α

namespace Candidate

/-- The branch to the whole number below. -/
def down (c : Candidate α) : Branch α := .down c.var c.value

/-- The branch to the whole number above. -/
def up (c : Candidate α) : Branch α := .up c.var c.value

/-- The first of the candidates with the largest score. -/
def best (first : Candidate α) (rest : List (Candidate α)) : Candidate α :=
  rest.foldl (fun best c => if best.score < c.score then c else best) first

/-- By falling score; equal scores keep their order. -/
def ranking (cs : List (Candidate α)) : List (Candidate α) :=
  cs.mergeSort fun a b => Scalar.totalCompare b.score a.score != .gt

/-- A fractional variable scored by its distance to the nearest whole number. -/
def byFractionality (f : Nat × α) : Candidate α := ⟨f.1, f.2, Scalar.fractionality f.2⟩

/-- A fractional variable scored by the smaller of its predicted losses. -/
def byPseudocost? (t : PseudocostTable α) (f : Nat × α) : Option (Candidate α) :=
  (t.score? f.1 f.2).map fun score => ⟨f.1, f.2, score⟩

end Candidate

/-- A score from two gains: mostly the smaller one, and a share `weight` of the larger one. -/
def blend (down up weight : α) : α :=
  (1 - weight) * Scalar.minNum down up + weight * Scalar.maxNum down up

/-- A fractional variable scored by a blend of its predicted losses. -/
def Candidate.byBlend? (t : PseudocostTable α) (weight : α) (f : Nat × α) :
    Option (Candidate α) :=
  (t.gains? f.1 f.2).map fun (down, up) => ⟨f.1, f.2, blend down up weight⟩

end BranchBound
