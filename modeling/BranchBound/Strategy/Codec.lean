import BranchBound.Json.Number
import BranchBound.Strategy.Basic

/-!
# Strategies as JSON

Alternatives are written by name. A name may also stand as the only member of an object; reliability
branching always does, with its four parameters, each of which has to be there once.
-/

namespace BranchBound

variable {α : Type}

namespace Reliability

/-- Parameters as an object. -/
def toJson (codec : NumberCodec α) (r : Reliability α) : Json :=
  .object [("reliability_count", .ofNat r.minSamples), ("max_sb_iters", .ofNat r.iterationCap),
    ("score_weight", codec.encode r.weight), ("lookahead", .ofNat r.lookahead)]

/-- Parameters from an object; other members are passed over. -/
def ofJson? [Scalar α] (codec : NumberCodec α) (j : Json) : Option (Reliability α) := do
  some { minSamples := ← j.field? "reliability_count" Json.count?
         iterationCap := ← j.field? "max_sb_iters" Json.count?
         weight := ← j.field? "score_weight" codec.read
         lookahead := ← j.field? "lookahead" Json.count? }

end Reliability

namespace BranchingRule

/-- A rule by its name. -/
def toJson (codec : NumberCodec α) : BranchingRule α → Json
  | .fixedOrder => .string "fixed_order"
  | .mostFractional => .string "most_fractional"
  | .pseudocost => .string "pseudocost"
  | .reliability r => .object [("reliability", r.toJson codec)]
  | .hybrid => .string "hybrid"

/-- A rule from its name. -/
def ofJson? [Scalar α] (codec : NumberCodec α) (j : Json) : Option (BranchingRule α) :=
  match j.tagged? with
  | some ("reliability", params) => (Reliability.ofJson? codec params).map .reliability
  | some ("fixed_order", .null) => some .fixedOrder
  | some ("most_fractional", .null) => some .mostFractional
  | some ("pseudocost", .null) => some .pseudocost
  | some ("hybrid", .null) => some .hybrid
  | _ => none

end BranchingRule

namespace NodeSelection

/-- An order by its name. -/
def toJson : NodeSelection → Json
  | .depthFirst => .string "depth_first"
  | .bestFirst => .string "best_first"
  | .bestEstimate => .string "best_estimate"

/-- An order from its name. -/
def ofJson? (j : Json) : Option NodeSelection :=
  match j.plainTag? with
  | some "depth_first" => some .depthFirst
  | some "best_first" => some .bestFirst
  | some "best_estimate" => some .bestEstimate
  | _ => none

theorem ofJson?_toJson (s : NodeSelection) : ofJson? s.toJson = some s := by
  cases s <;> rfl

end NodeSelection

namespace LpMode

/-- A simplex variant by its name. -/
def toJson : LpMode → Json
  | .dynamic => .string "dynamic"
  | .primalSimplex => .string "primal_simplex"
  | .dualSimplex => .string "dual_simplex"

/-- A simplex variant from its name. -/
def ofJson? (j : Json) : Option LpMode :=
  match j.plainTag? with
  | some "dynamic" => some .dynamic
  | some "primal_simplex" => some .primalSimplex
  | some "dual_simplex" => some .dualSimplex
  | _ => none

theorem ofJson?_toJson (m : LpMode) : ofJson? m.toJson = some m := by
  cases m <;> rfl

end LpMode

end BranchBound
