import MixedInteger.Cut
import MixedInteger.Relaxation

/-!
# The cut pool

Admitted cuts in order of admission. Injecting a cut appends it to a relaxation as a row and
counts the injection; the pool keeps the cut.
-/

namespace MixedInteger

structure PooledCut (α : Type) where
  cut : Cut α
  id : Nat
  timesInjected : Nat

structure CutPool (α : Type) where
  cuts : Array (PooledCut α)
  totalAdded : Nat
  totalInjected : Nat

/-- Picks one of the cuts from `start` up to but without `stop`, or none. -/
abbrev CutSelector (α : Type) := CutPool α → (start stop : Nat) → Option Nat

namespace CutPool

variable {α : Type}

def empty : CutPool α := ⟨#[], 0, 0⟩

def size (p : CutPool α) : Nat := p.cuts.size

/-- The index of the next cut is the number of cuts there are. -/
def add (p : CutPool α) (cut : Cut α) : CutPool α :=
  { p with cuts := p.cuts.push ⟨cut, p.size, 0⟩, totalAdded := p.totalAdded + 1 }

@[simp] theorem size_add (p : CutPool α) (cut : Cut α) : (p.add cut).size = p.size + 1 := by
  simp [add, size]

/-- The latest cut of the candidates. -/
def mostRecent : CutSelector α := fun p start stop =>
  let last := min stop p.size
  if start < last then some (last - 1) else none

/-- The cut that is meant by an optional index: the latest one if there is none. -/
def resolve? (p : CutPool α) (id : Option Nat) : Option Nat :=
  match id with
  | some i => some i
  | none => if p.size = 0 then none else some (p.size - 1)

/-- Counts an injection of cut `i`. -/
def countInjection (p : CutPool α) (i : Nat) : CutPool α :=
  { p with
    cuts := p.cuts.modify i fun c => { c with timesInjected := c.timesInjected + 1 }
    totalInjected := p.totalInjected + 1 }

@[simp] theorem size_countInjection (p : CutPool α) (i : Nat) :
    (p.countInjection i).size = p.size := by
  simp [countInjection, size]

/-- Appends a cut to the relaxation and gives the index of its row, or none if there is no such
cut. -/
def inject {R : Type} [Relaxation R α] (p : CutPool α) (oracle : R) (id : Option Nat) :
    Except (ModelError α) (Option Nat × CutPool α × R) :=
  match p.resolve? id with
  | none => .ok (none, p, oracle)
  | some i =>
    match p.cuts[i]? with
    | none => .ok (none, p, oracle)
    | some pooled => do
      let (row, oracle') ← Relaxation.addRow oracle pooled.cut.coefficients pooled.cut.lowerBound
      return (some row, p.countInjection i, oracle')

end CutPool

end MixedInteger
