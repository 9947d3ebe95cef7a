import BranchBound.Error
import BranchBound.Strategy.Basic
import BranchBound.Text.Blank

/-!
# Names of strategies

Strategies are chosen by name. Case, blanks, dashes and camel case do not matter: `normalize` brings
a name to lower case with single underscores between its words, and the canonical names are compared
with that.
-/

namespace BranchBound

variable {α : Type}

namespace StrategyName

/-- Spaces, dashes and underscores separate words. -/
def isSeparator (c : Char) : Bool := c == ' ' || c == '-' || c == '_'

/-- Joins words by single underscores and lowers capitals; a capital after a small letter starts a
new word. The flags tell whether the text so far ends in an underscore, and whether the character
before was a small letter. -/
def joinWords : (underscore small : Bool) → List Char → List Char
  | _, _, [] => []
  | underscore, small, c :: cs =>
    if isSeparator c then
      if underscore then joinWords true false cs else '_' :: joinWords true false cs
    else if c.isUpper then
      if small then '_' :: c.toLower :: joinWords false false cs
      else c.toLower :: joinWords false false cs
    else c :: joinWords false c.isLower cs

/-- The canonical form of a name. -/
def normalize (name : String) : String :=
  String.ofList (joinWords false false (Text.trim name.toList))

end StrategyName

open StrategyName (normalize)

/-- The rule with a canonical name. -/
def BranchingRule.ofCanonical? [Scalar α] : String → Option (BranchingRule α)
  | "fixed" | "fixed_order" | "fixed_branching" => some .fixedOrder
  | "most_fractional" => some .mostFractional
  | "pseudocost" | "pseudocost_branching" => some .pseudocost
  | "reliability" | "reliability_branching" => some (.reliability .standard)
  | "hybrid" => some .hybrid
  | _ => none

/-- The rule with a name. -/
def BranchingRule.parse [Scalar α] (name : String) : Except (ConfigFault α) (BranchingRule α) :=
  (ofCanonical? (normalize name)).elim (.error (.unknownRule name)) .ok

/-- The order with a canonical name. -/
def NodeSelection.ofCanonical? : String → Option NodeSelection
  | "depth_first" | "dfs" => some .depthFirst
  | "best_first" | "best_bound" => some .bestFirst
  | "best_estimate" => some .bestEstimate
  | _ => none

/-- The order with a name. -/
def NodeSelection.parse (name : String) : Except (ConfigFault α) NodeSelection :=
  (ofCanonical? (normalize name)).elim (.error (.unknownSelection name)) .ok

/-- The simplex variant with a canonical name. -/
def LpMode.ofCanonical? : String → Option LpMode
  | "dynamic" => some .dynamic
  | "primal_simplex" | "primal" => some .primalSimplex
  | "dual_simplex" | "dual" => some .dualSimplex
  | _ => none

/-- The simplex variant with a name. -/
def LpMode.parse (name : String) : Except (ConfigFault α) LpMode :=
  (ofCanonical? (normalize name)).elim (.error (.unknownLpMode name)) .ok

end BranchBound
