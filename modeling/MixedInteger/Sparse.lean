import MixedInteger.Scalar

/-!
# Sparse rows

A linear form is a list of terms `(column, coefficient)`. `normalize` puts arbitrary terms into
the stored form: columns in increasing order, one term a column, no zero coefficient.

* `SparseRow`: a stored form with the number of columns it ranges over;
* `SparseRow.ofTerms`: the stored form of arbitrary terms;
* `dot`: the value of a form at a point;
* `Matrix`: forms stacked on each other.
-/

namespace MixedInteger

variable {α : Type} [Scalar α]

/-- A column and its coefficient. -/
abbrev Term (α : Type) := Nat × α

/-- One number for each column. -/
abbrev Point (α : Type) := Array α

/-- The coordinate of a point, zero beyond its end. -/
def Point.coord (x : Point α) (j : Nat) : α := x[j]?.getD 0

namespace Sparse

/-- Puts a term in front of the first one whose column is not smaller. -/
def insertTerm (t : Term α) : List (Term α) → List (Term α)
  | [] => [t]
  | s :: rest => if t.1 ≤ s.1 then t :: s :: rest else s :: insertTerm t rest

/-- The terms in increasing order of their columns. Terms of one column keep their order. -/
def sortTerms (ts : List (Term α)) : List (Term α) := ts.foldr insertTerm []

/-- Adds up neighbouring terms of one column, `a` being the sum so far in column `j`. -/
def mergeFrom (j : Nat) (a : α) : List (Term α) → List (Term α)
  | [] => [(j, a)]
  | (k, b) :: rest => if k = j then mergeFrom j (a + b) rest else (j, a) :: mergeFrom k b rest

/-- Adds up neighbouring terms of one column, from left to right. -/
def mergeTerms : List (Term α) → List (Term α)
  | [] => []
  | (j, a) :: rest => mergeFrom j a rest

/-- Sorted, merged and without zeros. A sum that cancels to zero disappears with its column. -/
def normalize (ts : List (Term α)) : List (Term α) :=
  (mergeTerms (sortTerms ts)).filter fun t => !(t.2 == 0)

/-- The value of the form at a point. -/
def dot (ts : List (Term α)) (x : Point α) : α :=
  Scalar.sum (ts.map fun t => t.2 * x.coord t.1)

end Sparse

/-- A stored form over `dim` columns. -/
structure SparseRow (α : Type) where
  dim : Nat
  terms : List (Term α)

/-- The stored form of arbitrary terms over columns below `dim`. -/
def SparseRow.ofTerms (dim : Nat) (ts : List (Term α)) : SparseRow α := ⟨dim, Sparse.normalize ts⟩

/-- How a matrix groups its nonzero entries. -/
inductive Storage where
  | byRow
  | byColumn
  deriving DecidableEq, Repr

/-- A matrix given by its nonzero entries. `lines` has a list of them for each row, or for each
column when entries are grouped by column, and the first component of an entry is the other
index. -/
structure Matrix (α : Type) where
  height : Nat
  width : Nat
  storage : Storage
  lines : Array (List (Term α))

namespace Matrix

/-- The matrix without nonzero entries. -/
def zero (height width : Nat) : Matrix α := ⟨height, width, .byRow, Array.replicate height []⟩

/-- One more line of entries after the others: a row at the bottom, or a column on the right when
entries are grouped by column. -/
def appendLine (m : Matrix α) (line : SparseRow α) : Matrix α :=
  match m.storage with
  | .byRow => { m with height := m.height + 1, lines := m.lines.push line.terms }
  | .byColumn => { m with width := m.width + 1, lines := m.lines.push line.terms }

omit [Scalar α] in
theorem lines_appendLine (m : Matrix α) (line : SparseRow α) :
    (m.appendLine line).lines = m.lines.push line.terms := by
  unfold appendLine
  split <;> rfl

/-- The nonzero entries in the order in which they are stored. -/
def values (m : Matrix α) : List α := m.lines.toList.flatMap fun line => line.map Prod.snd

/-- The same matrix grouped by column. -/
def byColumn (m : Matrix α) : Matrix α :=
  match m.storage with
  | .byColumn => m
  | .byRow =>
    let column (j : Nat) : List (Term α) :=
      (List.range m.height).flatMap fun i =>
        (m.lines[i]?.getD []).filterMap fun t => if t.1 = j then some (i, t.2) else none
    { m with storage := .byColumn, lines := Array.ofFn fun j : Fin m.width => column j }

/-- Replaces the `k`-th stored entry. -/
def setValue (m : Matrix α) (k : Nat) (a : α) : Matrix α :=
  let step (state : Nat × Array (List (Term α))) (line : List (Term α)) :=
    let (start, done) := state
    (start + line.length,
      done.push (line.mapIdx fun i t => if start + i = k then (t.1, a) else t))
  { m with lines := (m.lines.foldl step (0, #[])).2 }

end Matrix

end MixedInteger
