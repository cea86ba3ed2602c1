import MixedInteger.Relaxation
import MixedInteger.Simplex.Arrays

/-!
# A solver in memory

A solver is changed where it is. An edit changes its model, which may fail, and then forgets the
last solve in two writes. Nothing but these writes keeps the tableau of an older model from being
shown.

* `Solver.solve`, `Solver.setColBounds`, `Solver.addRow`: the changes;
* `Solver.varStatus?`, `Solver.basisRow?`, `Solver.tableauRow?`: what is shown of the last basis;
* `Simplex.toSolver`: how a solver whose basis fits its model lies in memory.
-/

namespace MixedInteger

structure Solver (α : Type) where
  model : Model α
  settings : SimplexSettings α
  tableau : Option (ArrayTableau α)
  status : SolveStatus
  /-- Steps of the last solve. -/
  pivots : Nat

variable {α β : Type} [Scalar α]

open Scalar

namespace Solver

omit [Scalar α] in
def new (model : Model α) (settings : SimplexSettings α) : Solver α :=
  ⟨model, settings, none, .notSolved, 0⟩

/-! ## Changes -/

/-- Forgets the last solve. The number of its steps stays. -/
def invalidate : Change (ModelError α) (Solver α) Unit := do
  modify fun s => { s with tableau := none }
  modify fun s => { s with status := .notSolved }

/-- Changes the model. If that has not failed, the last solve is forgotten. -/
def edit (c : Change (ModelError α) (Model α) β) : Change (ModelError α) (Solver α) β := do
  let answer ← Change.onPart Solver.model (fun s model => { s with model := model }) c
  invalidate
  return answer

def setColBounds (j : Nat) (lower upper : α) : Change (ModelError α) (Solver α) Unit :=
  edit (Model.setColBoundsInPlace j lower upper)

/-- Appends a row and gives its index. -/
def addRow (terms : List (Term α)) (lower upper : α) : Change (ModelError α) (Solver α) Nat :=
  edit (Model.addRowInPlace terms lower upper)

/-- The steps from a first tableau. A range that is empty by more than the tolerance is found
before any step. -/
def run (s : Solver α) (start : ArrayTableau α) : ArrayTableau.Ended α :=
  if start.hasEmptyRange s.settings.tolFeas then ⟨.infeasible, 0, start⟩
  else start.iterate s.settings s.model.objective s.settings.maxPivots 0

/-- Solves from the slack basis. -/
def solve : Change (ModelError α) (Solver α) SolveStatus := do
  modify fun s => { s with pivots := 0 }
  let s ← get
  let ended := s.run (ArrayTableau.slackBasis s.model)
  modify fun s => { s with pivots := ended.pivots }
  modify fun s => { s with status := ended.status }
  modify fun s => { s with tableau := some ended.tableau.updateValues }
  return ended.status

/-! ## Queries -/

variable (s : Solver α)

/-- Row values followed by columns. -/
def numVars : Nat := s.model.numRows + s.model.numCols

def optimalTableau? : Option (ArrayTableau α) := if s.status = .optimal then s.tableau else none

/-- The value of variable `k` at the last basis, zero if there is none. -/
def varValue (k : Nat) : α := (s.tableau.bind fun t => t.value[k]?).getD 0

def columnValue (j : Nat) : α := s.varValue (s.model.numRows + j)

def columnValues : Point α := ((List.range s.model.numCols).map s.columnValue).toArray

def rowActivity (i : Nat) : α := s.varValue i

/-- The objective at the last basis, `-∞` unless it is optimal. -/
def objectiveValue : α :=
  match s.optimalTableau? with
  | some _ => s.model.objectiveValue s.columnValues
  | none => negInf

/-- What variable `k` does in the optimal basis. -/
def varStatus? (k : Nat) : Option VarStatus := do (← s.optimalTableau?).status[k]?

/-- The tableau row of a basic variable. -/
def basisRow? (k : Nat) : Option Nat := do ← (← s.optimalTableau?).rowOf[k]?

/-- Variable `k` is basic and the resting variables determine it: `x_k = Σ ξ_j x_j` over the
listed `(j, ξ_j)`, which are the nonzero ones in increasing order. -/
def tableauRow? (k : Nat) : Option (List (Term α)) := do
  let t ← s.optimalTableau?
  let r ← ← t.rowOf[k]?
  return ((List.range t.numVars).filter fun j => !(t.statusOf j).isBasic).filterMap fun j =>
    if t.rate r j == 0 then none else some (j, t.rate r j)

/-- Column `j` is basic. -/
def isBasic (j : Nat) : Bool := decide (s.varStatus? (s.model.numRows + j) = some .basic)

/-- Variable `k` as it stands in a tableau row with coefficient `xi`; none if it is basic. -/
def tableauEntry? (k : Nat) (xi : α) : Option (TableauEntry α) := do
  let rest ←
    match ← s.varStatus? k with
    | .basic => none
    | .resting rest => some rest
  let m := s.model.numRows
  let range := s.model.varRange k
  return {
    var := if k < m then .row k else .column (k - m)
    coefficient := xi
    rest := rest
    lower := range.1
    upper := range.2
    kind := s.model.varKind k }

/-- The tableau row of a basic column. -/
def columnRow? (j : Nat) : Option (TableauRow α) := do
  let row ← s.tableauRow? (s.model.numRows + j)
  return ⟨s.columnValue j, row.filterMap fun t => s.tableauEntry? t.1 t.2⟩

end Solver

/-! ## Bases that fit their model -/

/-- What a variable does that has this place. -/
def Place.status {m : Nat} : Place m → VarStatus
  | .basic _ => .basic
  | .nonbasic rest => .resting rest

@[simp] theorem Place.isBasic_status {m : Nat} (p : Place m) : p.status.isBasic = p.isBasic := by
  cases p <;> rfl

omit [Scalar α] in
/-- The arrays in which a tableau lies with its values. -/
def Tableau.arrays {m n : Nat} (t : Tableau α m n) (values : Vector α (m + n)) :
    ArrayTableau α where
  entry := t.entry.toArray.map Vector.toArray
  head := t.head.toArray.map Fin.val
  status := t.place.toArray.map Place.status
  lower := t.lower.toArray
  upper := t.upper.toArray
  value := values.toArray
  rowOf := t.place.toArray.map fun place => place.row?.map Fin.val

def Simplex.toSolver (s : Simplex α) : Solver α :=
  ⟨s.model, s.settings, s.basis.map fun b => b.tableau.arrays b.values, s.status, s.pivots⟩

end MixedInteger
