import MixedInteger.Model

/-!
# The simplex tableau

A model with `m` rows and `n` columns has `m + n` variables: variable `k < m` is the value of row
`k`, variable `m + j` is column `j`. Row `r` of the tableau says that the combination of all
variables with its entries is zero, and its basic variable `head r` has entry one there, so the
basic variables are known once the others rest somewhere.

* `Tableau.slackBasis`: the tableau in which the rows of the model are basic;
* `Tableau.values`: the point that the resting places determine;
* `Tableau.pivot`: exchanges a basic variable for another one;
* `Tableau.flip`: moves a resting variable to its other bound.
-/

namespace MixedInteger

/-- Where a variable outside the basis rests. A free one rests at zero. -/
inductive Resting where
  | atLower
  | atUpper
  | free
  | fixed
  deriving DecidableEq, Repr

/-- A variable is basic in a row of the tableau, or it rests. -/
inductive Place (m : Nat) where
  | basic (row : Fin m)
  | nonbasic (rest : Resting)
  deriving DecidableEq, Repr

namespace Place

def isBasic {m : Nat} : Place m → Bool
  | .basic _ => true
  | .nonbasic _ => false

def row? {m : Nat} : Place m → Option (Fin m)
  | .basic r => some r
  | .nonbasic _ => none

end Place

structure Tableau (α : Type) (m n : Nat) where
  entry : Vector (Vector α (m + n)) m
  /-- The basic variable of each row. -/
  head : Vector (Fin (m + n)) m
  place : Vector (Place m) (m + n)
  lower : Vector α (m + n)
  upper : Vector α (m + n)

variable {α : Type} [Scalar α]

open Scalar

namespace Resting

/-- Where a variable with this range first rests: at a finite bound if it has one. -/
def initial (lower upper : α) : Resting :=
  if lower == upper then .fixed
  else if isFinite lower then .atLower
  else if isFinite upper then .atUpper
  else .free

/-- The value at which a variable with this range rests. -/
def value (rest : Resting) (lower upper : α) : α :=
  match rest with
  | .atLower | .fixed => lower
  | .atUpper => upper
  | .free => 0

end Resting

namespace Model

/-- The range of variable `k`: of row `k` below the number of rows, of a column from there on. -/
def varRange (m : Model α) (k : Nat) : α × α :=
  if k < m.numRows then m.rowRange k else m.colRange (k - m.numRows)

/-- The kind of variable `k`. Rows are continuous. -/
def varKind (m : Model α) (k : Nat) : Kind :=
  if k < m.numRows then .continuous else m.kind (k - m.numRows)

/-- The coefficient of a column in a row, zero where nothing is stored. -/
def coefficient? (m : Model α) (i j : Nat) : Option α :=
  (m.matrix.lines[i]?.getD []).lookup j

/-- The entry of variable `k` in the row that defines variable `i` as the value of row `i`. -/
def definingEntry (m : Model α) (i k : Nat) : α :=
  if k < m.numRows then (if k = i then 1 else 0)
  else
    match m.coefficient? i (k - m.numRows) with
    | some a => -a
    | none => 0

end Model

namespace Tableau

/-- The rows are basic, each defined by its terms, and the columns rest. -/
def slackBasis (model : Model α) : Tableau α model.numRows model.numCols where
  entry := Vector.ofFn fun i => Vector.ofFn fun k => model.definingEntry i k
  head := Vector.ofFn fun i => i.castAdd model.numCols
  place := Vector.ofFn fun k =>
    if h : k < model.numRows then .basic ⟨k, h⟩
    else .nonbasic (Resting.initial (model.varRange k).1 (model.varRange k).2)
  lower := Vector.ofFn fun k => (model.varRange k).1
  upper := Vector.ofFn fun k => (model.varRange k).2

variable {m n : Nat}

/-- The coefficient of variable `k` in row `r`. -/
def coef (t : Tableau α m n) (r : Fin m) (k : Fin (m + n)) : α := (t.entry.get r).get k

/-- The value of variable `k` if it rests, zero if it is basic. -/
def restValue (t : Tableau α m n) (k : Fin (m + n)) : α :=
  match t.place.get k with
  | .basic _ => 0
  | .nonbasic rest => rest.value (t.lower.get k) (t.upper.get k)

/-- The value that row `r` gives its basic variable, adding up the resting variables that occur. -/
def basicValue (t : Tableau α m n) (r : Fin m) : α :=
  (List.finRange (m + n)).foldl (fun (v : α) k =>
    if (t.place.get k).isBasic || t.coef r k == 0 then v else v - t.coef r k * t.restValue k) 0

/-- The point of the tableau. -/
def values (t : Tableau α m n) : Vector α (m + n) :=
  Vector.ofFn fun k =>
    match t.place.get k with
    | .basic r => t.basicValue r
    | .nonbasic rest => rest.value (t.lower.get k) (t.upper.get k)

/-- How fast the basic variable of row `r` grows with the resting variable `k`. -/
def rate (t : Tableau α m n) (r : Fin m) (k : Fin (m + n)) : α := -t.coef r k

/-- Numbers smaller than `tol` count as zero. -/
def flush (tol x : α) : α := if abs x < tol then 0 else x

/-- Row `p` divided by its entry in column `q`. -/
def pivotRow (t : Tableau α m n) (p : Fin m) (q : Fin (m + n)) : Vector α (m + n) :=
  Vector.ofFn fun k => if k = q then 1 else t.coef p k / t.coef p q

/-- Row `r` after column `q` is eliminated from it with the pivot row. -/
def eliminate (dropTol : α) (row pivot : Vector α (m + n)) (q : Fin (m + n)) : Vector α (m + n) :=
  let factor := row.get q
  if factor == 0 then row
  else Vector.ofFn fun k => if k = q then 0 else flush dropTol (row.get k - factor * pivot.get k)

/-- Exchanges the basic variable of row `p` for the resting variable `q`. The leaving variable
rests at `leave`, or is fixed if its bounds coincide. -/
def pivot (t : Tableau α m n) (dropTol : α) (p : Fin m) (q : Fin (m + n)) (leave : Resting) :
    Tableau α m n :=
  let row := t.pivotRow p q
  let leaving := t.head.get p
  let rest := if t.lower.get leaving == t.upper.get leaving then .fixed else leave
  { t with
    entry := Vector.ofFn fun r => if r = p then row else eliminate dropTol (t.entry.get r) row q
    head := Vector.ofFn fun r => if r = p then q else t.head.get r
    place := Vector.ofFn fun k =>
      if k = q then .basic p else if k = leaving then .nonbasic rest else t.place.get k }

theorem get_ofFn {β : Type} {k : Nat} (f : Fin k → β) (i : Fin k) :
    (Vector.ofFn f).get i = f i := by
  simp only [Vector.get, Vector.toArray_ofFn, Array.getElem_ofFn]
  rfl

theorem head_pivot (t : Tableau α m n) (dropTol : α) (p r : Fin m) (q : Fin (m + n))
    (leave : Resting) :
    (t.pivot dropTol p q leave).head.get r = if r = p then q else t.head.get r := by
  simp only [pivot, get_ofFn]

/-- Lets variable `q` rest somewhere else. -/
def flip (t : Tableau α m n) (q : Fin (m + n)) (rest : Resting) : Tableau α m n :=
  { t with place := Vector.ofFn fun k => if k = q then .nonbasic rest else t.place.get k }

omit [Scalar α] in
theorem place_flip (t : Tableau α m n) (q k : Fin (m + n)) (rest : Resting) :
    (t.flip q rest).place.get k = if k = q then .nonbasic rest else t.place.get k := by
  simp only [flip, get_ofFn]

end Tableau

end MixedInteger
