import MixedInteger.Sparse

/-!
# Cuts

A cut is an inequality `coefficients ≥ lowerBound` that is meant to hold for every integral point.
-/

namespace MixedInteger

/-- Where a cut comes from. -/
inductive CutSource where
  /-- The tableau row of a basic column, read at a node. -/
  | gomory (column node : Nat)
  | user
  deriving DecidableEq, Repr

structure Cut (α : Type) where
  coefficients : SparseRow α
  lowerBound : α
  source : CutSource

namespace Cut

variable {α : Type} [Scalar α]

/-- The left-hand side, for a point that has all the columns of the cut. -/
def activity? (c : Cut α) (x : Point α) : Option α :=
  if c.coefficients.dim ≤ x.size then some (Sparse.dot c.coefficients.terms x) else none

/-- How far the point falls short; positive exactly when the cut is violated. -/
def violation? (c : Cut α) (x : Point α) : Option α :=
  (c.activity? x).map fun a => c.lowerBound - a

/-- A point that is too short never satisfies the cut. -/
def isSatisfied (c : Cut α) (x : Point α) (tol : α) : Bool :=
  match c.violation? x with
  | some v => decide (v ≤ tol)
  | none => false

end Cut

end MixedInteger
