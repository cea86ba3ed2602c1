import MixedInteger.Relaxation

/-!
# Classifying a solved relaxation

A solved node is infeasible, integral or fractional. Which columns have to be integral is a
setting: all integral columns, or only those that take part in the objective with a nonzero value.
-/

namespace MixedInteger

/-- Which integral columns are checked. -/
inductive Scope where
  | objectiveSupport
  | allColumns
  deriving DecidableEq, Repr

/-- A checked column whose value is not integral. -/
structure Violation (α : Type) where
  column : Nat
  value : α
  objective : α

inductive Classification (α : Type) where
  | infeasible
  | integral
  /-- The violations in increasing order of their columns; there is at least one. -/
  | fractional (violations : List (Violation α))

variable {α : Type} [Scalar α]

open Scalar

/-- The distance to the next integer below, also for negative values. -/
def fractionalPart (v : α) : α := v - floor v

def Violation.fraction (v : Violation α) : α := fractionalPart v.value

/-- Does the scope take in a column with this value and objective coefficient? -/
def Scope.covers (scope : Scope) (value objective : α) : Bool :=
  match scope with
  | .objectiveSupport => !(value == 0) && !(objective == 0)
  | .allColumns => true

/-- The value is further than `tol` from every integer. -/
def isFractional (tol value : α) : Bool := decide (abs (value - round value) > tol)

variable {R : Type} [Relaxation R α]

/-- Column `j` of a solved relaxation if it violates integrality. -/
def violation? (oracle : R) (scope : Scope) (tol : α) (j : Nat) : Option (Violation α) :=
  let value := Relaxation.value oracle j
  let objective := Relaxation.objective oracle j
  if (Relaxation.kind oracle j).isIntegral && scope.covers value objective
      && isFractional tol value then
    some ⟨j, value, objective⟩
  else none

def violations (oracle : R) (scope : Scope) (tol : α) : List (Violation α) :=
  (List.range (Relaxation.numVariables oracle)).filterMap (violation? oracle scope tol)

/-- A relaxation without an optimum is infeasible as far as the search goes. -/
def classify (oracle : R) (verdict : Verdict) (scope : Scope) (tol : α) : Classification α :=
  if verdict ≠ .optimal then .infeasible
  else
    match violations oracle scope tol with
    | [] => .integral
    | v :: vs => .fractional (v :: vs)

/-- An infeasible root settles the whole problem. -/
def terminatesSearch (verdict : Verdict) (isRoot : Bool) : Bool :=
  decide (verdict ≠ .optimal) && isRoot

end MixedInteger
