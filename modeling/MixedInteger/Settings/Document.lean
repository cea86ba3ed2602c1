import MixedInteger.Json
import MixedInteger.Scalar.Binary64
import MixedInteger.Settings

/-!
# Settings as a JSON document

`Settings.toJson` writes every field in order. `Settings.ofJson` reads a document in which fields
may be missing, takes defaults for those, ignores fields it does not know, and validates the
result. The settings, and those of the generator in them, may also be written as arrays.
-/

namespace MixedInteger

open Json

namespace GomorySettings

def fieldNames : List String := ["min_fraction", "zero_tol", "max_coefficient"]

def toJson {α : Type} [Scalar α] (s : GomorySettings α) : String :=
  objectText [("min_fraction", Scalar.json s.minFraction), ("zero_tol", Scalar.json s.zeroTol),
    ("max_coefficient", Scalar.json s.maxCoefficient)]

def read? (v : Json) : Option (GomorySettings Float) := do
  let fields ← record? fieldNames v
  let d : GomorySettings Float := default
  return {
    minFraction := ← field? fields "min_fraction" d.minFraction asFloat?
    zeroTol := ← field? fields "zero_tol" d.zeroTol asFloat?
    maxCoefficient := ← field? fields "max_coefficient" d.maxCoefficient asFloat? }

end GomorySettings

/-- The choices in a document are written exactly by name. -/
def NodeOrder.read? (v : Json) : Option NodeOrder := do
  match ← asVariant? v with
  | "depth-first" => some .depthFirst
  | "best-bound" => some .bestBound
  | _ => none

def BranchingRule.read? (v : Json) : Option BranchingRule := do
  match ← asVariant? v with
  | "in-order" => some .inOrder
  | "closest-to-half" => some .closestToHalf
  | "greatest-objective-impact" => some .greatestObjectiveImpact
  | _ => none

def CutStrategy.read? (v : Json) : Option CutStrategy := do
  match ← asVariant? v with
  | "none" => some .off
  | "gomory-mixed-integer" | "gomory" => some .gomoryMixedInteger
  | _ => none

def Scope.read? (v : Json) : Option Scope := do
  match ← asVariant? v with
  | "objective-support" => some .objectiveSupport
  | "all-columns" => some .allColumns
  | _ => none

/-- A number of sixteen bits. -/
def readPort? (v : Json) : Option UInt16 := do
  let n ← asWord? v
  if n < 65536 then some (UInt16.ofNat n) else none

def readCount? (v : Json) : Option UInt64 := (asWord? v).map UInt64.ofNat

namespace Settings

def fieldNames : List String :=
  ["node_selection", "branching_rule", "cut_strategy", "cut_fraction", "gomory", "max_iterations",
    "int_feas_tol", "integrality_scope", "prune_ties", "telemetry_port", "log_freq"]

def toJson {α : Type} [Scalar α] (s : Settings α) : String :=
  objectText [
    ("node_selection", plainString s.nodeOrder.name),
    ("branching_rule", plainString s.branchingRule.name),
    ("cut_strategy", plainString s.cutStrategy.name),
    ("cut_fraction", Scalar.json s.cutFraction),
    ("gomory", s.gomory.toJson),
    ("max_iterations", toString s.maxIterations.toNat),
    ("int_feas_tol", Scalar.json s.integralityTol),
    ("integrality_scope", plainString s.scope.name),
    ("prune_ties", if s.pruneTies then "true" else "false"),
    ("telemetry_port", match s.telemetryPort with
      | some p => toString p.toNat
      | none => "null"),
    ("log_freq", toString s.logFreq.toNat)]

def read? (v : Json) : Option (Settings Float) := do
  let fields ← record? fieldNames v
  let d : Settings Float := default
  return {
    nodeOrder := ← field? fields "node_selection" d.nodeOrder NodeOrder.read?
    branchingRule := ← field? fields "branching_rule" d.branchingRule BranchingRule.read?
    cutStrategy := ← field? fields "cut_strategy" d.cutStrategy CutStrategy.read?
    cutFraction := ← field? fields "cut_fraction" d.cutFraction asFloat?
    gomory := ← field? fields "gomory" d.gomory GomorySettings.read?
    maxIterations := ← field? fields "max_iterations" d.maxIterations readCount?
    integralityTol := ← field? fields "int_feas_tol" d.integralityTol asFloat?
    scope := ← field? fields "integrality_scope" d.scope Scope.read?
    pruneTies := ← field? fields "prune_ties" d.pruneTies asBool?
    telemetryPort := ← field? fields "telemetry_port" d.telemetryPort (orNull? readPort?)
    logFreq := ← field? fields "log_freq" d.logFreq readCount? }

/-- The settings of a document, if it is one and they are valid. -/
def ofJson (document : String) : Except (ConfigError Float) (Settings Float) := do
  match (parse? document).bind read? with
  | none => .error .parse
  | some s =>
    s.validate
    return s

end Settings

end MixedInteger
