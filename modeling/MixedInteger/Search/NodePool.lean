import MixedInteger.Search.Branching
import MixedInteger.Search.NodeId

/-!
# Subproblems and the pool of waiting ones

The pool keeps subproblems in the order in which they were added. A selector sees the bounds of the
waiting nodes and names a position; the node there is taken out and the others close up.
-/

namespace MixedInteger

/-- A node of the search with its own relaxation. -/
structure Subproblem (R α : Type) where
  id : NodeId
  parent : Option NodeId
  depth : Nat
  isRoot : Bool
  model : R
  /-- The relaxation bound: `∞` until it is known, `-∞` if there is no optimum. -/
  upperBound : α
  lowerBound : α
  change : Option (BoundChange α)

/-- Names the position of the next node, given the bounds of the waiting ones. -/
abbrev NodeSelector (α : Type) := List α → Option Nat

inductive NodeOrder where
  /-- The node that has waited longest. -/
  | depthFirst
  /-- The node with the largest bound, of several the one that has waited longest. -/
  | bestBound
  deriving DecidableEq, Repr

structure NodePool (R α : Type) where
  waiting : Array (Subproblem R α)
  totalAdded : Nat
  totalTaken : Nat

variable {R α : Type} [Scalar α]

open Scalar

def NodeOrder.selector (order : NodeOrder) : NodeSelector α :=
  match order with
  | .depthFirst => fun bounds => if bounds.isEmpty then none else some 0
  | .bestBound => firstMax?

namespace Subproblem

def root (id : NodeId) (model : R) : Subproblem R α :=
  ⟨id, none, 0, true, model, posInf, negInf, none⟩

/-- A child: the parent's relaxation with one bound moved, not solved yet. -/
def child [Relaxation R α] (id parent : NodeId) (depth : Nat) (model : R)
    (change : BoundChange α) : Except (ModelError α) (Subproblem R α) := do
  return ⟨id, some parent, depth, false, ← change.apply model, posInf, negInf, some change⟩

/-- Solves the relaxation once and records its bound. -/
def presolve [Relaxation R α] (p : Subproblem R α) : Subproblem R α :=
  let (verdict, model) := Relaxation.solve p.model
  { p with
    model := model
    upperBound := if verdict = .optimal then Relaxation.objectiveValue model else negInf }

end Subproblem

namespace NodePool

def empty : NodePool R α := ⟨#[], 0, 0⟩

def size (p : NodePool R α) : Nat := p.waiting.size

def isEmpty (p : NodePool R α) : Bool := p.waiting.isEmpty

def push (p : NodePool R α) (node : Subproblem R α) : NodePool R α :=
  { p with waiting := p.waiting.push node, totalAdded := p.totalAdded + 1 }

omit [Scalar α] in
@[simp] theorem size_push (p : NodePool R α) (node : Subproblem R α) :
    (p.push node).size = p.size + 1 := by
  simp [push, size]

def bounds (p : NodePool R α) : List α := p.waiting.toList.map Subproblem.upperBound

omit [Scalar α] in
@[simp] theorem bounds_push (p : NodePool R α) (node : Subproblem R α) :
    (p.push node).bounds = p.bounds ++ [node.upperBound] := by
  simp [push, bounds]

/-- Takes out the node at the selected position, which is returned with it. Nothing changes if
there is no such position. -/
def take? (p : NodePool R α) (selector : NodeSelector α) :
    Option ((Subproblem R α × Nat) × NodePool R α) := do
  let i ← selector p.bounds
  let node ← p.waiting[i]?
  return ((node, i), { p with
    waiting := p.waiting.eraseIdxIfInBounds i
    totalTaken := p.totalTaken + 1 })

section Taking

variable {p p' : NodePool R α} {selector : NodeSelector α} {node : Subproblem R α} {i : Nat}

omit [Scalar α] in
theorem take?_eq_some_iff :
    p.take? selector = some ((node, i), p') ↔
      selector p.bounds = some i ∧ p.waiting[i]? = some node ∧
      p' = ⟨p.waiting.eraseIdxIfInBounds i, p.totalAdded, p.totalTaken + 1⟩ := by
  constructor
  · intro h
    obtain ⟨k, hk, hrest⟩ := Option.bind_eq_some_iff.mp h
    obtain ⟨n, hn, heq⟩ := Option.bind_eq_some_iff.mp hrest
    cases heq
    exact ⟨hk, hn, rfl⟩
  · rintro ⟨hi, hnode, rfl⟩
    rw [take?, hi, Option.bind_eq_bind, Option.bind_some, hnode]
    rfl

omit [Scalar α] in
/-- Nothing is taken if and only if the selector names no position, or one out of range. -/
theorem take?_eq_none_iff :
    p.take? selector = none ↔ ∀ i, selector p.bounds = some i → p.size ≤ i := by
  constructor
  · intro hnone i hi
    apply Nat.le_of_not_lt
    intro hlt
    have hsome := take?_eq_some_iff.mpr ⟨hi, Array.getElem?_eq_getElem hlt, rfl⟩
    cases hnone.symm.trans hsome
  · intro hout
    cases h : p.take? selector with
    | none => rfl
    | some given =>
      obtain ⟨⟨node, i⟩, p'⟩ := given
      obtain ⟨hi, hnode, -⟩ := take?_eq_some_iff.mp h
      have hlt := (Array.getElem?_eq_some_iff.mp hnode).1
      exact absurd hlt (Nat.not_lt_of_le (hout i hi))

/-- Takes out the node at the selected position where the pool is. -/
def takeInPlace (selector : NodeSelector α) :
    StateM (NodePool R α) (Option (Subproblem R α × Nat)) := do
  let start ← get
  let some i := selector start.bounds | return none
  let some node := start.waiting[i]? | return none
  modify fun p => { p with totalTaken := p.totalTaken + 1 }
  modify fun p => { p with waiting := p.waiting.eraseIdxIfInBounds i }
  return some (node, i)

omit [Scalar α] in
/-- Nothing is written unless a node is taken. -/
theorem run_takeInPlace (selector : NodeSelector α) (p : NodePool R α) :
    (takeInPlace selector).run p =
      match p.take? selector with
      | none => (none, p)
      | some (taken, p') => (some taken, p') := by
  unfold takeInPlace take?
  rw [StateT.run_bind, StateT.run_get, pure_bind]
  dsimp only [Option.bind_eq_bind]
  cases selector p.bounds with
  | none => rfl
  | some i =>
    dsimp only [Option.bind_some]
    cases p.waiting[i]? <;> rfl

end Taking

/-- The largest bound of a waiting node, `-∞` if none waits. -/
def bestBound (p : NodePool R α) : α := p.bounds.foldl larger negInf

end NodePool

end MixedInteger
