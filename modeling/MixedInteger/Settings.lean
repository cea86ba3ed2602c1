import MixedInteger.Cut.Gomory
import MixedInteger.Search.NodePool
import MixedInteger.Text.Blank
import MixedInteger.Text.Quoted

/-!
# Settings of a search

What can be chosen, the names of the choices, and which values are accepted.

* `Settings`: the record of all choices, `Settings.default` being where one starts;
* `Settings.validate`: the ranges that values must lie in;
* `NodeOrder.ofName?` and its siblings: a choice from a name or a code that a user types.
-/

namespace MixedInteger

inductive CutStrategy where
  /-- Plain branch and bound. -/
  | off
  /-- Gomory mixed-integer cuts at every branched node. -/
  | gomoryMixedInteger
  deriving DecidableEq, Repr

structure Settings (α : Type) where
  nodeOrder : NodeOrder
  branchingRule : BranchingRule
  cutStrategy : CutStrategy
  /-- The share of the cuts generated at a node that enter the pool. -/
  cutFraction : α
  gomory : GomorySettings α
  /-- A search that has taken so many nodes and still has some waiting fails. -/
  maxIterations : UInt64
  /-- Values this close to an integer count as integral. -/
  integralityTol : α
  scope : Scope
  /-- Nodes whose bound equals the incumbent's objective are given up. -/
  pruneTies : Bool
  telemetryPort : Option UInt16
  /-- A progress line after every so many iterations, never if zero. -/
  logFreq : UInt64

inductive ConfigError (α : Type) where
  | unknownNodeOrder (text : String)
  | unknownBranchingRule (text : String)
  | unknownCutStrategy (text : String)
  | unknownScope (text : String)
  | cutFraction (value : α)
  | integralityTolerance (value : α)
  | gomory (fault : GomoryFault α)
  | zeroIterationCap
  | parse
  deriving DecidableEq, Repr

variable {α : Type} [Scalar α]

open Scalar

def ConfigError.message : ConfigError α → String
  | .unknownNodeOrder s => s!"Unknown node selection strategy: {Text.quoted s}"
  | .unknownBranchingRule s => s!"Unknown branching rule: {Text.quoted s}"
  | .unknownCutStrategy s => s!"Unknown cut strategy: {Text.quoted s}"
  | .unknownScope s => s!"Unknown integrality scope: {Text.quoted s}"
  | .cutFraction v => s!"Cut fraction must lie in [0, 1], got {text v}"
  | .integralityTolerance v =>
    s!"Integrality tolerance must be finite and non-negative, got {text v}"
  | .gomory fault => s!"Invalid Gomory settings: {fault.text}"
  | .zeroIterationCap => "Iteration cap must be positive"
  | .parse => "Failed to parse settings"

/-! ## Names -/

namespace NodeOrder

def name : NodeOrder → String
  | .depthFirst => "depth-first"
  | .bestBound => "best-bound"

def ofName? (s : String) : Except (ConfigError α) NodeOrder :=
  match Text.optionName s with
  | "depth-first" | "dfs" | "0" => .ok .depthFirst
  | "best-bound" | "best" | "1" => .ok .bestBound
  | _ => .error (.unknownNodeOrder s)

end NodeOrder

namespace BranchingRule

def name : BranchingRule → String
  | .inOrder => "in-order"
  | .closestToHalf => "closest-to-half"
  | .greatestObjectiveImpact => "greatest-objective-impact"

def ofName? (s : String) : Except (ConfigError α) BranchingRule :=
  match Text.optionName s with
  | "in-order" | "0" => .ok .inOrder
  | "closest-to-half" | "1" => .ok .closestToHalf
  | "greatest-objective-impact" | "2" => .ok .greatestObjectiveImpact
  | _ => .error (.unknownBranchingRule s)

end BranchingRule

namespace CutStrategy

def name : CutStrategy → String
  | .off => "none"
  | .gomoryMixedInteger => "gomory-mixed-integer"

/-- The strategy as it stands in the log. -/
def label : CutStrategy → String
  | .off => "None"
  | .gomoryMixedInteger => "GomoryMixedInteger"

def ofName? (s : String) : Except (ConfigError α) CutStrategy :=
  match Text.optionName s with
  | "none" | "off" => .ok .off
  | "gomory" | "gomory-mixed-integer" | "gmi" => .ok .gomoryMixedInteger
  | _ => .error (.unknownCutStrategy s)

end CutStrategy

namespace Scope

def name : Scope → String
  | .objectiveSupport => "objective-support"
  | .allColumns => "all-columns"

def ofName? (s : String) : Except (ConfigError α) Scope :=
  match Text.optionName s with
  | "objective-support" => .ok .objectiveSupport
  | "all-columns" | "all" => .ok .allColumns
  | _ => .error (.unknownScope s)

end Scope

/-! ## Defaults and ranges -/

namespace Settings

def default : Settings α where
  nodeOrder := .depthFirst
  branchingRule := .inOrder
  cutStrategy := .off
  cutFraction := 1
  gomory := GomorySettings.default
  maxIterations := 200000
  integralityTol := 1e-9
  scope := .objectiveSupport
  pruneTies := true
  telemetryPort := none
  logFreq := 100

/-- The first value that is out of range, in the order of these checks. -/
def validate (s : Settings α) : Except (ConfigError α) Unit :=
  if ¬(0 ≤ s.cutFraction ∧ s.cutFraction ≤ 1) then .error (.cutFraction s.cutFraction)
  else if isFinite s.integralityTol = false ∨ s.integralityTol < 0 then
    .error (.integralityTolerance s.integralityTol)
  else if s.maxIterations = 0 then .error .zeroIterationCap
  else s.gomory.validate.mapError .gomory

def cutsEnabled (s : Settings α) : Bool := s.cutStrategy ≠ .off

/-- Gomory cuts with the given share of them admitted. -/
def withGomoryCuts (s : Settings α) (fraction : α) : Settings α :=
  { s with cutStrategy := .gomoryMixedInteger, cutFraction := fraction }

end Settings

end MixedInteger
