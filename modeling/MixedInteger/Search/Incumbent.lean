import MixedInteger.Relaxation
import MixedInteger.Search.NodeId

/-!
# The incumbent

The best integral point found so far. It is replaced only by a strictly better one, so the history
of its objective values increases.
-/

namespace MixedInteger

/-- An integral point with the node where it was found. -/
structure Found (α : Type) where
  point : Point α
  description : String
  node : NodeId

structure Incumbent (α : Type) where
  found : Option (Found α)
  /-- The objective of the point found, `-∞` before there is one. -/
  bestLowerBound : α
  /-- The objective after each improvement. -/
  history : Array α

namespace Incumbent

variable {α : Type} [Scalar α]

open Scalar

def initial : Incumbent α := ⟨none, negInf, #[]⟩

/-- Would a point with this objective improve the incumbent? -/
def improvedBy (i : Incumbent α) (objective : α) : Bool := decide (objective > i.bestLowerBound)

def update (i : Incumbent α) (objective : α) (found : Found α) : Incumbent α :=
  if i.improvedBy objective then ⟨some found, objective, i.history.push objective⟩ else i

/-- A node with this bound is not worth exploring. With `ties` that includes a bound equal to the
incumbent's objective. -/
def dominates (i : Incumbent α) (bound : α) (ties : Bool) : Bool :=
  if ties then decide (bound ≤ i.bestLowerBound) else decide (bound < i.bestLowerBound)

end Incumbent

variable {α : Type} [Scalar α] {R : Type} [Relaxation R α]

open Scalar

/-- One column of a described solution. Columns without a part in the objective value are left
out. -/
def describeColumn? (oracle : R) (j : Nat) : Option String :=
  let c := Relaxation.objective oracle j
  let v := Relaxation.value oracle j
  if c == 0 || v == 0 then none else some s!"{text c}*(x[{j}] = {text v})"

/-- The solution of a relaxation as found at a node: `[node] c*(x[j] = v) + … = objective`. -/
def describeSolution (node : NodeId) (oracle : R) : String :=
  let terms := (List.range (Relaxation.numVariables oracle)).filterMap (describeColumn? oracle)
  let body := if terms.isEmpty then "0" else String.intercalate " + " terms
  s!"[{node}] {body} = {text (Relaxation.objectiveValue oracle)}"

end MixedInteger
