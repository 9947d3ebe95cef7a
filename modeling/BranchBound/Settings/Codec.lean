import BranchBound.Settings.Basic
import BranchBound.Strategy.Codec

/-!
# Settings as JSON

Settings are an object with one member per setting. A missing member stands for its standard value,
a known one that is there twice is refused, and an unknown one is passed over. The solver's own
settings are not part of the object.
-/

namespace BranchBound.Settings

variable {α : Type}

/-- Settings as an object. -/
def toJson (codec : NumberCodec α) (s : Settings α) : Json :=
  .object
    [("max_nodes", .ofNat s.maxNodes),
     ("time_limit_ms", .ofOption .ofNat s.timeLimit),
     ("int_feas_tol", codec.encode s.integralityTol),
     ("depth_limit", .ofOption .ofNat s.depthLimit),
     ("branching_rule", s.rule.toJson codec),
     ("node_selection", s.selection.toJson),
     ("complete_enumeration", .bool s.enumerateAll),
     ("binary_vars", .bool s.binaryVars),
     ("lp_mode", s.lpMode.toJson),
     ("verbose", .bool s.verbose),
     ("log_freq", .ofNat s.logInterval)]

/-- Settings from an object. -/
def ofJson? [Scalar α] (codec : NumberCodec α) : Json → Option (Settings α)
  | .object members => do
    let j := Json.object members
    let d : Settings α := standard
    some
      { maxNodes := ← j.fieldOr? "max_nodes" d.maxNodes Json.count?
        timeLimit := ← j.fieldOr? "time_limit_ms" d.timeLimit (Json.nullable Json.count?)
        integralityTol := ← j.fieldOr? "int_feas_tol" d.integralityTol codec.read
        depthLimit := ← j.fieldOr? "depth_limit" d.depthLimit (Json.nullable Json.count?)
        rule := ← j.fieldOr? "branching_rule" d.rule (BranchingRule.ofJson? codec)
        selection := ← j.fieldOr? "node_selection" d.selection NodeSelection.ofJson?
        enumerateAll := ← j.fieldOr? "complete_enumeration" d.enumerateAll Json.bool?
        binaryVars := ← j.fieldOr? "binary_vars" d.binaryVars Json.bool?
        lpMode := ← j.fieldOr? "lp_mode" d.lpMode LpMode.ofJson?
        lp := d.lp
        verbose := ← j.fieldOr? "verbose" d.verbose Json.bool?
        logInterval := ← j.fieldOr? "log_freq" d.logInterval Json.count? }
  | _ => none

end BranchBound.Settings
