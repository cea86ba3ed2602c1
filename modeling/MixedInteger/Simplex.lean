import MixedInteger.Simplex.Pivoting

/-!
# The simplex solver

A solver owns a model and, after a solve, the basis it ended with. Changing the model forgets the
basis, so a basis always belongs to the model beside it.

* `Simplex.solve`: solves from the slack basis;
* `Simplex.setColBounds`, `Simplex.addRow`: changes of the model;
* `Simplex.tableauRow`: a basic variable in terms of the resting ones.
-/

namespace MixedInteger

variable {α : Type} [Scalar α]

open Scalar

/-- A tableau with its point. -/
structure Basis (α : Type) [Scalar α] (m n : Nat) where
  tableau : Tableau α m n
  values : Vector α (m + n)
  values_eq : values = tableau.values

def Basis.ofTableau {m n : Nat} (t : Tableau α m n) : Basis α m n := ⟨t, t.values, rfl⟩

structure Simplex (α : Type) [Scalar α] where
  model : Model α
  settings : SimplexSettings α
  basis : Option (Basis α model.numRows model.numCols)
  status : SolveStatus
  /-- Steps of the last solve. -/
  pivots : Nat

namespace Simplex

def new (model : Model α) (settings : SimplexSettings α) : Simplex α :=
  ⟨model, settings, none, .notSolved, 0⟩

def ofModel (model : Model α) : Simplex α := new model SimplexSettings.default

/-- Puts a changed model in place. -/
def withModel (s : Simplex α) (model : Model α) : Simplex α :=
  ⟨model, s.settings, none, .notSolved, s.pivots⟩

def setColBounds (s : Simplex α) (j : Nat) (lower upper : α) :
    Except (ModelError α) (Simplex α) := do
  return s.withModel (← s.model.setColBounds j lower upper)

/-- Appends a row and gives its index, the last one of the model. -/
def addRow (s : Simplex α) (terms : List (Term α)) (lower upper : α) :
    Except (ModelError α) (Nat × Simplex α) := do
  let model ← s.model.addRow terms lower upper
  return (model.numRows - 1, s.withModel model)

/-- The run of the simplex method from the slack basis. A range that is empty by more than the
tolerance is found before any step. -/
def run (s : Simplex α) : Tableau.Run α s.model.numRows s.model.numCols :=
  let start := Tableau.slackBasis s.model
  if start.hasEmptyRange s.settings.tolFeas then ⟨.infeasible, 0, start⟩
  else start.iterate s.settings s.model.objective s.settings.maxPivots 0

def solve (s : Simplex α) : Simplex α :=
  let r := s.run
  { s with basis := some (Basis.ofTableau r.tableau), status := r.status, pivots := r.pivots }

/-- Row values followed by columns. -/
def numVars (s : Simplex α) : Nat := s.model.numRows + s.model.numCols

/-- The basis if the last solve was optimal. -/
def optimalBasis? (s : Simplex α) : Option (Basis α s.model.numRows s.model.numCols) :=
  if s.status = .optimal then s.basis else none

/-- The value of variable `k` at the last basis, zero if there is none. -/
def varValue (s : Simplex α) (k : Nat) : α :=
  match s.basis with
  | some b => b.values[k]?.getD 0
  | none => 0

def columnValue (s : Simplex α) (j : Nat) : α := s.varValue (s.model.numRows + j)

def columnValues (s : Simplex α) : Point α :=
  ((List.range s.model.numCols).map s.columnValue).toArray

def rowActivity (s : Simplex α) (i : Nat) : α := s.varValue i

/-- The objective at the last basis, `-∞` unless it is optimal. -/
def objectiveValue (s : Simplex α) : α :=
  match s.optimalBasis? with
  | some _ => s.model.objectiveValue s.columnValues
  | none => negInf

/-- What an optimal solve reports is the objective at the point that it reports. -/
theorem objectiveValue_solve {s : Simplex α} (hopt : s.solve.status = .optimal) :
    s.solve.objectiveValue = s.model.objectiveValue s.solve.columnValues := by
  have hbasis : s.solve.optimalBasis? = some (Basis.ofTableau s.run.tableau) := if_pos hopt
  unfold objectiveValue
  rw [hbasis]
  rfl

/-- Where variable `k` stands in the optimal basis. -/
def varPlace? (s : Simplex α) (k : Nat) : Option (Place s.model.numRows) := do
  let b ← s.optimalBasis?
  b.tableau.place[k]?

/-- The tableau row of a basic variable. -/
def basisRow? (s : Simplex α) (k : Nat) : Option (Fin s.model.numRows) :=
  (s.varPlace? k).bind Place.row?

/-- Variable `k` is basic and the resting variables determine it: `x_k = Σ ξ_j x_j` over the
listed `(j, ξ_j)`, which are the nonzero ones in increasing order. -/
def tableauRow? (s : Simplex α) (k : Nat) : Option (List (Term α)) := do
  let b ← s.optimalBasis?
  let r ← (← b.tableau.place[k]?).row?
  return (List.finRange (s.model.numRows + s.model.numCols)).filterMap fun j =>
    if (b.tableau.place.get j).isBasic || b.tableau.rate r j == 0 then none
    else some (j.val, b.tableau.rate r j)

end Simplex

end MixedInteger
