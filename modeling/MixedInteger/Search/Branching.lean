import MixedInteger.Relaxation.Classification
import MixedInteger.Search.FirstMax

/-!
# Branching

A fractional node is split on one of its violations. The rule picks the violation; the split puts
the floor of its value on one side as an upper bound and the ceiling on the other as a lower bound,
so that no integral value is lost and the fractional one is.
-/

namespace MixedInteger

inductive BranchingRule where
  /-- The first violation. -/
  | inOrder
  /-- The value closest to half between two integers. -/
  | closestToHalf
  /-- The largest objective coefficient in absolute value. -/
  | greatestObjectiveImpact
  deriving DecidableEq, Repr

/-- A bound moved by branching on a column with the given value. -/
structure BoundChange (α : Type) where
  column : Nat
  value : α
  side : Side
  bound : α

variable {α : Type} [Scalar α]

open Scalar

/-- Zero for a value halfway between two integers, otherwise negative. -/
def Violation.closeness (v : Violation α) : α := -abs (v.fraction - 0.5)

/-- The weight of the column in the objective. -/
def Violation.impact (v : Violation α) : α := abs v.objective

/-- The position of the violation to branch on, none if there is none. -/
def BranchingRule.select? (rule : BranchingRule) (vs : List (Violation α)) : Option Nat :=
  match rule with
  | .inOrder => if vs.isEmpty then none else some 0
  | .closestToHalf => firstMax? (vs.map Violation.closeness)
  | .greatestObjectiveImpact => firstMax? (vs.map Violation.impact)

/-- Every rule finds one of the violations if there is any, however they score. -/
theorem BranchingRule.exists_select? (rule : BranchingRule) {vs : List (Violation α)}
    (h : vs ≠ []) : ∃ i, rule.select? vs = some i ∧ i < vs.length := by
  have hscores (score : Violation α → α) : ∃ i, firstMax? (vs.map score) = some i ∧
      i < vs.length := by
    have hmap : vs.map score ≠ [] := mt List.map_eq_nil_iff.mp h
    simpa only [List.length_map] using exists_firstMax? hmap
  cases rule with
  | inOrder => exact ⟨0, by simp [select?, h], List.length_pos_iff.mpr h⟩
  | closestToHalf => exact hscores Violation.closeness
  | greatestObjectiveImpact => exact hscores Violation.impact

namespace BoundChange

/-- The side with `x ≤ ⌊value⌋`. -/
def down (column : Nat) (value : α) : BoundChange α := ⟨column, value, .upper, floor value⟩

/-- The side with `x ≥ ⌈value⌉`. -/
def up (column : Nat) (value : α) : BoundChange α := ⟨column, value, .lower, ceil value⟩

def apply {R : Type} [Relaxation R α] (c : BoundChange α) (oracle : R) :
    Except (ModelError α) R :=
  Relaxation.setBound oracle c.column c.side c.bound

def admits (c : BoundChange α) (x : α) : Bool :=
  match c.side with
  | .upper => decide (x ≤ c.bound)
  | .lower => decide (x ≥ c.bound)

end BoundChange

end MixedInteger
