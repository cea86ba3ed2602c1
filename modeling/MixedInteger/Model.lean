import MixedInteger.Change
import MixedInteger.Model.Error
import MixedInteger.Sparse

/-!
# Linear models

`maximize c x` subject to `rowLower ≤ A x ≤ rowUpper` and `colLower ≤ x ≤ colUpper`, where some
columns may be asked to take integral values. Either end of a range may be infinite.

* `Model.new?`, `Model.addRow`, `Model.setColBounds`: building a model; each checks what it is
  given;
* `Model.addRowInPlace`, `Model.setColBoundsInPlace`: the same part by part where the model is,
  which a failure leaves as it was;
* `Model.rowActivity`, `Model.objectiveValue`, `Model.isFeasible`: a model at a point;
* `Model.validate`: the checks that a search asks for before it starts.
-/

namespace MixedInteger

/-- What values a column may take. Binary columns are integral and stay within `[0, 1]`. -/
inductive Kind where
  | continuous
  | integer
  | binary
  deriving DecidableEq, Repr

namespace Kind

def isIntegral : Kind → Bool
  | .continuous => false
  | .integer | .binary => true

def text : Kind → String
  | .continuous => "Continuous"
  | .integer => "Integer"
  | .binary => "Binary"

end Kind

/-- A model. The parts are independent of each other, so that a model can also be wrong;
`validate` says whether they fit. -/
structure Model (α : Type) where
  objective : Array α
  matrix : Matrix α
  rowLower : Array α
  rowUpper : Array α
  colLower : Array α
  colUpper : Array α
  kinds : Array Kind

variable {α : Type} [Scalar α]

open Scalar

/-- A range must be defined, must not be empty, and must not lie at infinity. -/
def checkRange (line : Line) (lower upper : α) : Except (ModelError α) Unit :=
  if isNaN lower || isNaN upper then .error (.nonFinite (.bounds line))
  else if lower == posInf || upper == negInf || decide (lower > upper) then
    .error (.crossedBounds line lower upper)
  else .ok ()

namespace Model

def numCols (m : Model α) : Nat := m.objective.size

def numRows (m : Model α) : Nat := m.rowLower.size

/-- The first objective coefficient that is not finite. -/
def badObjective? (objective : Array α) : Option Nat := objective.findIdx? fun c => !isFinite c

/-- A model without rows. Columns range over `[0, ∞)`, binary ones over `[0, 1]`. -/
def new? (objective : Array α) (kinds : Array Kind) : Except (ModelError α) (Model α) :=
  if kinds.size ≠ objective.size then .error (.dimension (.kinds objective.size kinds.size))
  else
    match badObjective? objective with
    | some j => .error (.nonFinite (.objective j))
    | none => .ok {
        objective := objective
        matrix := Matrix.zero 0 objective.size
        rowLower := #[]
        rowUpper := #[]
        colLower := Array.replicate objective.size 0
        colUpper := kinds.map fun k => if k = .binary then 1 else posInf
        kinds := kinds }

/-- A model whose columns are all continuous. -/
def continuous? (objective : Array α) : Except (ModelError α) (Model α) :=
  new? objective (Array.replicate objective.size .continuous)

/-- The first term that does not fit as one of row `i` over `n` columns. -/
def checkTerms (i n : Nat) : List (Term α) → Except (ModelError α) Unit
  | [] => .ok ()
  | (j, a) :: rest =>
    if n ≤ j then .error (.columnOutOfRange j n)
    else if !isFinite a then .error (.nonFinite (.coefficient i j))
    else checkTerms i n rest

/-- One more row `lower ≤ terms ≤ upper`. Its index is the number of rows there were. -/
def addRow (m : Model α) (terms : List (Term α)) (lower upper : α) :
    Except (ModelError α) (Model α) := do
  checkTerms m.numRows m.numCols terms
  checkRange (.row m.numRows) lower upper
  return { m with
    matrix := m.matrix.appendLine (SparseRow.ofTerms m.numCols terms)
    rowLower := m.rowLower.push lower
    rowUpper := m.rowUpper.push upper }

def addLe (m : Model α) (terms : List (Term α)) (rhs : α) : Except (ModelError α) (Model α) :=
  m.addRow terms negInf rhs

def addGe (m : Model α) (terms : List (Term α)) (rhs : α) : Except (ModelError α) (Model α) :=
  m.addRow terms rhs posInf

def addEq (m : Model α) (terms : List (Term α)) (rhs : α) : Except (ModelError α) (Model α) :=
  m.addRow terms rhs rhs

/-- The kind of a column; there are no integral columns beyond the last. -/
def kind (m : Model α) (j : Nat) : Kind := m.kinds[j]?.getD .continuous

/-- The range a column of this kind takes when it is given `[lower, upper]`. -/
def clampRange (k : Kind) (lower upper : α) : α × α :=
  match k with
  | .binary => (larger lower 0, smaller upper 1)
  | .continuous | .integer => (lower, upper)

/-- Replaces the range of a column. An empty range is accepted, since branching produces them;
the model then has no feasible point and does not pass `validate`. -/
def setColBounds (m : Model α) (j : Nat) (lower upper : α) : Except (ModelError α) (Model α) :=
  if m.numCols ≤ j then .error (.columnOutOfRange j m.numCols)
  else if isNaN lower || isNaN upper then .error (.nonFinite (.bounds (.column j)))
  else
    let range := clampRange (m.kind j) lower upper
    .ok { m with
      colLower := m.colLower.setIfInBounds j range.1
      colUpper := m.colUpper.setIfInBounds j range.2 }

/-- The stored terms of a row. -/
def rowTerms (m : Model α) (i : Nat) : Except (ModelError α) (List (Term α)) :=
  match m.matrix.lines[i]? with
  | some terms => .ok terms
  | none => .error (.rowOutOfRange i m.numRows)

/-- The value of a row at a point, zero for a row that does not exist. -/
def rowActivity (m : Model α) (i : Nat) (x : Point α) : α :=
  match m.matrix.lines[i]? with
  | some terms => Sparse.dot terms x
  | none => 0

/-- The objective at a point. A point that is too short or too long is cut to what both have. -/
def objectiveValue (m : Model α) (x : Point α) : α :=
  Scalar.sum (List.zipWith (· * ·) m.objective.toList x.toList)

/-- The range of row `i`, the whole line if there is no such row. -/
def rowRange (m : Model α) (i : Nat) : α × α :=
  (m.rowLower[i]?.getD negInf, m.rowUpper[i]?.getD posInf)

/-- The range of column `j`, the whole line if there is no such column. -/
def colRange (m : Model α) (j : Nat) : α × α :=
  (m.colLower[j]?.getD negInf, m.colUpper[j]?.getD posInf)

/-- Whether `v` lies in the range, give or take `tol`. -/
def withinRange (range : α × α) (tol v : α) : Bool :=
  decide (v ≥ range.1 - tol) && decide (v ≤ range.2 + tol)

/-- The point meets every row and every column range within `tol`. Integrality is not asked for. -/
def isFeasible (m : Model α) (x : Point α) (tol : α) : Bool :=
  x.size == m.numCols
    && (List.range m.numCols).all (fun j => withinRange (m.colRange j) tol (x.coord j))
    && (List.range m.numRows).all (fun i => withinRange (m.rowRange i) tol (m.rowActivity i x))

/-- The sizes of the parts agree. -/
def checkSizes (m : Model α) : Except (ModelError α) Unit :=
  let n := m.numCols
  if m.kinds.size ≠ n ∨ m.colLower.size ≠ n ∨ m.colUpper.size ≠ n then
    .error (.dimension (.columns n m.kinds.size m.colLower.size m.colUpper.size))
  else if m.rowUpper.size ≠ m.numRows ∨ m.matrix.height ≠ m.numRows ∨ m.matrix.width ≠ n then
    .error (.dimension
      (.rows m.numRows m.rowUpper.size m.matrix.height m.matrix.width n))
  else if m.matrix.storage ≠ .byRow then .error (.dimension .storage)
  else .ok ()

/-- Coefficients are finite. -/
def checkCoefficients (m : Model α) : Except (ModelError α) Unit :=
  match badObjective? m.objective with
  | some j => .error (.nonFinite (.objective j))
  | none =>
    if m.matrix.values.any fun a => !isFinite a then .error (.nonFinite .matrix) else .ok ()

/-- The parts fit, all coefficients are finite and no range is empty. Of several faults the first
in this order is reported, rows before columns. -/
def validate (m : Model α) : Except (ModelError α) Unit := do
  m.checkSizes
  m.checkCoefficients
  (List.range m.numRows).forM fun i => checkRange (.row i) (m.rowRange i).1 (m.rowRange i).2
  (List.range m.numCols).forM fun j => checkRange (.column j) (m.colRange j).1 (m.colRange j).2

/-! ## In place -/

/-- Appends a row to each part of the model, after the checks, and gives its index. -/
def addRowInPlace (terms : List (Term α)) (lower upper : α) :
    Change (ModelError α) (Model α) Nat := do
  let start ← get
  ofExcept (checkTerms start.numRows start.numCols terms)
  ofExcept (checkRange (.row start.numRows) lower upper)
  modify fun m => { m with matrix := m.matrix.appendLine (SparseRow.ofTerms start.numCols terms) }
  modify fun m => { m with rowLower := m.rowLower.push lower }
  modify fun m => { m with rowUpper := m.rowUpper.push upper }
  return (← get).numRows - 1

/-- Writes one end of the range of a column after the other, after the checks. -/
def setColBoundsInPlace (j : Nat) (lower upper : α) : Change (ModelError α) (Model α) Unit := do
  let start ← get
  if start.numCols ≤ j then throw (.columnOutOfRange j start.numCols)
  if isNaN lower || isNaN upper then throw (.nonFinite (.bounds (.column j)))
  let range := clampRange (start.kind j) lower upper
  modify fun m => { m with colLower := m.colLower.setIfInBounds j range.1 }
  modify fun m => { m with colUpper := m.colUpper.setIfInBounds j range.2 }

/-- Both checks come before the first part is written. -/
theorem addRowInPlace_eq (terms : List (Term α)) (lower upper : α) :
    addRowInPlace terms lower upper =
      Change.atomic (fun m => m.addRow terms lower upper) fun m => m.numRows - 1 := by
  funext m
  change (addRowInPlace terms lower upper).run m = (Change.atomic _ _).run m
  simp only [addRowInPlace, addRow, Change.run_atomic, EStateM.run_bind, EStateM.run_get,
    Change.run_ofExcept]
  cases checkTerms m.numRows m.numCols terms with
  | error e => rfl
  | ok fits =>
    cases checkRange (.row m.numRows) lower upper with
    | error e => rfl
    | ok range => rfl

theorem setColBoundsInPlace_eq (j : Nat) (lower upper : α) :
    setColBoundsInPlace j lower upper =
      Change.atomic (fun m => m.setColBounds j lower upper) fun _ => () := by
  funext m
  change (setColBoundsInPlace j lower upper).run m = (Change.atomic _ _).run m
  simp only [setColBoundsInPlace, setColBounds, Change.run_atomic, EStateM.run_bind,
    EStateM.run_get]
  by_cases hcol : m.numCols ≤ j
  · simp only [if_pos hcol]
    rfl
  · simp only [if_neg hcol]
    cases isNaN lower || isNaN upper <;> rfl

end Model

end MixedInteger
