import MixedInteger.Simplex

/-!
# Relaxations

The search knows its subproblems only as relaxations: something that can be solved, asked for
values, tightened by a bound and extended by a row. A relaxation is a value, so a child that is
tightened leaves its parent as it was.

Access to the tableau is optional. A relaxation that hides it yields no cuts.

* `Relaxation`: the operations;
* the instance for `Simplex`;
* `Tableauless`: a relaxation with its tableau hidden;
* `Scripted`: a relaxation whose answers are written down.
-/

namespace MixedInteger

/-- The outcome of solving a relaxation. -/
inductive Verdict where
  | optimal
  | infeasible
  | unbounded
  deriving DecidableEq, Repr

inductive Side where
  | lower
  | upper
  deriving DecidableEq, Repr

/-- A variable of the tableau: the value of a row or a column. -/
inductive TableauVar where
  | row (index : Nat)
  | column (index : Nat)
  deriving DecidableEq, Repr

/-- A resting variable in the tableau row of a basic one. -/
structure TableauEntry (α : Type) where
  var : TableauVar
  coefficient : α
  rest : Resting
  lower : α
  upper : α
  kind : Kind

/-- A basic variable as a combination of resting ones. -/
structure TableauRow (α : Type) where
  basicValue : α
  entries : List (TableauEntry α)

/-- What the search asks of a relaxation. Values belong to the last solve. -/
class Relaxation (R : Type) (α : outParam Type) where
  solve : R → Verdict × R
  /-- The objective of the last solve, `-∞` unless it was optimal. -/
  objectiveValue : R → α
  value : R → Nat → α
  kind : R → Nat → Kind
  bounds : R → Nat → α × α
  objective : R → Nat → α
  numVariables : R → Nat
  numRows : R → Nat
  setBound : R → Nat → Side → α → Except (ModelError α) R
  /-- Appends the row `coefficients ≥ lower` and gives its index. -/
  addRow : R → SparseRow α → α → Except (ModelError α) (Nat × R)
  rowTerms : R → Nat → List (Term α)
  isBasic : R → Nat → Bool := fun _ _ => false
  tableauRow? : R → Nat → Option (TableauRow α) := fun _ _ => none

variable {α : Type} [Scalar α]

open Scalar

namespace Simplex

/-- A solve that did not finish counts as infeasible: nothing more is expected of the node. -/
def verdict : SolveStatus → Verdict
  | .optimal => .optimal
  | .unbounded => .unbounded
  | .infeasible | .iterationLimit | .notSolved => .infeasible

/-- Replaces one end of the range of a column and keeps the other. -/
def setBound (s : Simplex α) (j : Nat) (side : Side) (v : α) : Except (ModelError α) (Simplex α) :=
  let range := s.model.colRange j
  match side with
  | .lower => s.setColBounds j v range.2
  | .upper => s.setColBounds j range.1 v

/-- Variable `k` as it stands in a tableau row with coefficient `xi`; none if it is basic. -/
def tableauEntry? (s : Simplex α) (k : Nat) (xi : α) : Option (TableauEntry α) := do
  let rest ←
    match ← s.varPlace? k with
    | .basic _ => none
    | .nonbasic rest => some rest
  let m := s.model.numRows
  let range := s.model.varRange k
  return {
    var := if k < m then .row k else .column (k - m)
    coefficient := xi
    rest := rest
    lower := range.1
    upper := range.2
    kind := s.model.varKind k }

/-- The tableau row of a basic column. -/
def columnRow? (s : Simplex α) (j : Nat) : Option (TableauRow α) := do
  let row ← s.tableauRow? (s.model.numRows + j)
  return ⟨s.columnValue j, row.filterMap fun t => s.tableauEntry? t.1 t.2⟩

end Simplex

instance : Relaxation (Simplex α) α where
  solve s := let s' := s.solve; (Simplex.verdict s'.status, s')
  objectiveValue := Simplex.objectiveValue
  value := Simplex.columnValue
  kind s := s.model.kind
  bounds s := s.model.colRange
  objective s j := s.model.objective[j]?.getD 0
  numVariables s := s.model.numCols
  numRows s := s.model.numRows
  setBound := Simplex.setBound
  addRow s row lower := s.addRow row.terms lower posInf
  rowTerms s i := s.model.matrix.lines[i]?.getD []
  isBasic s j := ((s.varPlace? (s.model.numRows + j)).map Place.isBasic).getD false
  tableauRow? := Simplex.columnRow?

/-- A relaxation whose tableau is not shown. -/
structure Tableauless (R : Type) where
  inner : R

instance {R : Type} {α : Type} [Relaxation R α] : Relaxation (Tableauless R) α where
  solve s := let (v, r) := Relaxation.solve s.inner; (v, ⟨r⟩)
  objectiveValue s := Relaxation.objectiveValue s.inner
  value s := Relaxation.value s.inner
  kind s := Relaxation.kind s.inner
  bounds s := Relaxation.bounds s.inner
  objective s := Relaxation.objective s.inner
  numVariables s := Relaxation.numVariables s.inner
  numRows s := Relaxation.numRows s.inner
  setBound s j side v := do return ⟨← Relaxation.setBound s.inner j side v⟩
  addRow s row lower := do
    let (i, r) ← Relaxation.addRow s.inner row lower
    return (i, ⟨r⟩)
  rowTerms s := Relaxation.rowTerms s.inner

/-- A column of a scripted relaxation. -/
structure ScriptedColumn (α : Type) where
  kind : Kind
  objective : α
  value : α

/-- A relaxation that answers from a table. Its bounds cannot be changed, and rows that are added
do not change its answers. -/
structure Scripted (α : Type) where
  verdict : Verdict
  objectiveValue : α
  columns : Array (ScriptedColumn α)
  rows : Array (List (Term α))
  /-- The basic columns with their tableau rows. -/
  tableau : List (Nat × TableauRow α)
  /-- Why bounds cannot be changed. -/
  refusal : String

instance : Relaxation (Scripted α) α where
  solve s := (s.verdict, s)
  objectiveValue := Scripted.objectiveValue
  value s j := (s.columns[j]?.map ScriptedColumn.value).getD 0
  kind s j := (s.columns[j]?.map ScriptedColumn.kind).getD .continuous
  bounds _ _ := (negInf, posInf)
  objective s j := (s.columns[j]?.map ScriptedColumn.objective).getD 0
  numVariables s := s.columns.size
  numRows s := s.rows.size
  setBound s _ _ _ := .error (.dimension (.other s.refusal))
  addRow s row _ := .ok (s.rows.size, { s with rows := s.rows.push row.terms })
  rowTerms s i := s.rows[i]?.getD []
  isBasic s j := (s.tableau.lookup j).isSome
  tableauRow? s j := s.tableau.lookup j

end MixedInteger
