import MixedInteger.Simplex.Pivoting

/-!
# A tableau in arrays

A tableau as it lies in memory. What a variable does and the row in which it is basic stand in two
arrays, and the basic variables of the rows in a third one, which a pivot writes one after the
other. Nothing but the code ties the arrays to each other or their sizes to a model. Reading beyond
the end of an array gives a default, and writing there does nothing.

* `VarStatus`, `ArrayTableau`: the arrays;
* `ArrayTableau.slackBasis`, `ArrayTableau.updateValues`: the first tableau, and the values;
* `ArrayTableau.pivot`, `ArrayTableau.flip`: the changes of the basis;
* `ArrayTableau.iterate`: steps until no variable can enter, or no step is left.
-/

namespace MixedInteger

/-- What a variable does: it is basic in some row, or it rests. -/
inductive VarStatus where
  | basic
  | resting (rest : Resting)
  deriving DecidableEq, Repr

def VarStatus.isBasic : VarStatus → Bool
  | .basic => true
  | .resting _ => false

@[ext]
structure ArrayTableau (α : Type) where
  entry : Array (Array α)
  /-- The basic variable of each row. -/
  head : Array Nat
  status : Array VarStatus
  lower : Array α
  upper : Array α
  value : Array α
  /-- The row of each basic variable. -/
  rowOf : Array (Option Nat)

/-- A row that stops a movement, with its basic variable. -/
structure ArrayBlock (α : Type) where
  row : Nat
  ratio : α
  var : Nat
  leave : Resting

variable {α : Type} [Scalar α]

open Scalar

namespace ArrayTableau

variable (t : ArrayTableau α)

omit [Scalar α] in
def numVars : Nat := t.status.size

omit [Scalar α] in
def numRows : Nat := t.head.size

/-- The coefficient of variable `k` in row `r`. -/
def coef (r k : Nat) : α := (t.entry[r]?.getD #[])[k]?.getD 0

def headOf (r : Nat) : Nat := t.head[r]?.getD 0

def statusOf (k : Nat) : VarStatus := t.status[k]?.getD .basic

def lowerOf (k : Nat) : α := t.lower[k]?.getD 0

def upperOf (k : Nat) : α := t.upper[k]?.getD 0

def valueOf (k : Nat) : α := t.value[k]?.getD 0

/-- How fast the basic variable of row `r` grows with the resting variable `k`. -/
def rate (r k : Nat) : α := -t.coef r k

/-! ## Values -/

/-- Where variable `k` rests, zero while it is basic. -/
def restValue (k : Nat) : α :=
  match t.statusOf k with
  | .basic => 0
  | .resting rest => rest.value (t.lowerOf k) (t.upperOf k)

/-- The value that row `r` gives its basic variable, read off the values of the resting ones. -/
def rowValue (value : Array α) (r : Nat) : α :=
  (List.range t.numVars).foldl (fun (v : α) k =>
    if (t.statusOf k).isBasic || t.coef r k == 0 then v
    else v - t.coef r k * value[k]?.getD 0) 0

/-- Writes the values of the resting variables, then those of the basic ones row by row. -/
def updateValues : ArrayTableau α :=
  let resting := Array.ofFn fun k : Fin t.numVars => t.restValue k
  { t with value := (List.range t.numRows).foldl (fun value r =>
      value.setIfInBounds (t.headOf r) (t.rowValue value r)) resting }

/-- The rows are basic, each defined by its terms, and the columns rest. -/
def slackBasis (model : Model α) : ArrayTableau α :=
  let lower := model.rowLower ++ model.colLower
  let upper := model.rowUpper ++ model.colUpper
  let size := model.numRows + model.numCols
  updateValues {
    entry := Array.ofFn fun i : Fin model.numRows => Array.ofFn fun k : Fin size =>
      model.definingEntry i k
    head := Array.range model.numRows
    status := Array.ofFn fun k : Fin size =>
      if k < model.numRows then .basic
      else .resting (Resting.initial (lower[k.val]?.getD 0) (upper[k.val]?.getD 0))
    lower := lower
    upper := upper
    value := Array.replicate size 0
    rowOf := Array.ofFn fun k : Fin size => if k < model.numRows then some k.val else none }

/-! ## Changes of the basis -/

/-- Divides row `p` by its entry in column `q`. -/
def divideRow (p q : Nat) : ArrayTableau α :=
  { t with entry := t.entry.modify p fun row =>
      (row.map fun a => a / t.coef p q).setIfInBounds q 1 }

/-- A row after column `q` is eliminated from it with the pivot row. -/
def eliminateRow (dropTol : α) (row pivot : Array α) (q : Nat) : Array α :=
  let factor := row[q]?.getD 0
  if factor == 0 then row
  else
    (row.mapIdx fun k a => Tableau.flush dropTol (a - factor * pivot[k]?.getD 0)).setIfInBounds q 0

/-- Eliminates column `q` from all rows but row `p`. -/
def eliminate (dropTol : α) (p q : Nat) : ArrayTableau α :=
  { t with entry := t.entry.mapIdx fun r row =>
      if r = p then row else eliminateRow dropTol row (t.entry[p]?.getD #[]) q }

/-- Enters variable `q` as the basic one of row `p`. The variable that leaves comes to rest at
`leave`, or is fixed if its bounds coincide. -/
def exchange (p q : Nat) (leave : Resting) : ArrayTableau α :=
  let leaving := t.headOf p
  let rest := if t.lowerOf leaving == t.upperOf leaving then .fixed else leave
  let t := { t with status := t.status.setIfInBounds leaving (.resting rest) }
  let t := { t with rowOf := t.rowOf.setIfInBounds leaving none }
  let t := { t with status := t.status.setIfInBounds q .basic }
  let t := { t with rowOf := t.rowOf.setIfInBounds q (some p) }
  { t with head := t.head.setIfInBounds p q }

/-- Exchanges the basic variable of row `p` for the resting variable `q`. -/
def pivot (dropTol : α) (p q : Nat) (leave : Resting) : ArrayTableau α :=
  ((t.divideRow p q).eliminate dropTol p q).exchange p q leave

/-- Lets variable `q` rest somewhere else. -/
def flip (q : Nat) (rest : Resting) : ArrayTableau α :=
  { t with status := t.status.setIfInBounds q (.resting rest) }

/-! ## Steps -/

/-- Some range is empty by more than the tolerance. -/
def hasEmptyRange (tol : α) : Bool :=
  (List.range t.numVars).any fun k => decide (t.lowerOf k > t.upperOf k + tol)

/-- Writes the cost of a basic variable that lies outside its range, and remembers that there is
one. -/
def repairStep (tol : α) (acc : Array α × Bool) (b : Nat) : Array α × Bool :=
  if t.valueOf b < t.lowerOf b - tol then (acc.1.setIfInBounds b 1, true)
  else if t.valueOf b > t.upperOf b + tol then (acc.1.setIfInBounds b (-1), true)
  else acc

/-- The cost of phase one, and whether some basic variable lies outside its range. -/
def repairCost (tol : α) : Array α × Bool :=
  t.head.foldl (t.repairStep tol) (Array.replicate t.numVars 0, false)

/-- The cost to be maximized, and whether it is that of phase one. -/
def cost (tol : α) (objective : Array α) : Array α × Bool :=
  match t.repairCost tol with
  | (cost, true) => (cost, true)
  | (cost, false) =>
    (cost.mapIdx fun k c => if k < t.numRows then c else objective[k - t.numRows]?.getD c, false)

/-- How fast the cost grows with variable `k`, the basic variables following it. -/
def reducedCost (cost : Array α) (k : Nat) : α :=
  (List.range t.numRows).foldl (fun (d : α) r =>
    let c := cost[t.headOf r]?.getD 0
    if c == 0 then d else d + c * t.rate r k) (cost[k]?.getD 0)

/-- The way in which moving variable `k` improves the cost, if there is one. -/
def improving? (tolCost : α) (cost : Array α) (k : Nat) : Option Heading :=
  match t.statusOf k with
  | .basic => none
  | .resting rest =>
    if !rest.canGrow && !rest.canShrink then none
    else
      let d := t.reducedCost cost k
      if decide (d > tolCost) && rest.canGrow then some .up
      else if decide (d < -tolCost) && rest.canShrink then some .down
      else none

/-- The resting variable of smallest index whose movement improves the cost. -/
def entering (tolCost : α) (cost : Array α) : Option (Nat × Heading) :=
  (List.range t.numVars).findSome? fun k => (t.improving? tolCost cost k).map fun h => (k, h)

/-- How far `q` can move until the basic variable of row `r` stops it. -/
def candidate (s : SimplexSettings α) (q : Nat) (dir : Heading) (r : Nat) :
    Option (ArrayBlock α) :=
  let alpha := dir.orient (t.rate r q)
  let b := t.headOf r
  let x := t.valueOf b
  let lower := t.lowerOf b
  let upper := t.upperOf b
  if abs alpha ≤ s.tolPivot then none
  else if x < lower - s.tolFeas then
    if alpha > 0 then some ⟨r, (lower - x) / alpha, b, .atLower⟩ else none
  else if x > upper + s.tolFeas then
    if alpha < 0 then some ⟨r, (x - upper) / -alpha, b, .atUpper⟩ else none
  else if alpha > 0 then
    if isFinite upper then some ⟨r, larger ((upper - x) / alpha) 0, b, .atUpper⟩ else none
  else
    if isFinite lower then some ⟨r, larger ((x - lower) / -alpha) 0, b, .atLower⟩ else none

/-- Whether `c` takes the place of the block found so far. -/
def improves (tol : α) (best : Option (ArrayBlock α)) (c : ArrayBlock α) : Bool :=
  match best with
  | none => true
  | some b =>
    decide (c.ratio < b.ratio - tol) || decide (c.ratio ≤ b.ratio + tol) && decide (c.var < b.var)

/-- The row that stops the movement of `q`. -/
def ratioTest (s : SimplexSettings α) (q : Nat) (dir : Heading) : Option (ArrayBlock α) :=
  (List.range t.numRows).foldl (fun best r =>
    match t.candidate s q dir r with
    | none => best
    | some c => if improves s.tolFeas best c then some c else best) none

/-- The end of the steps: the verdict, their number and the last tableau. -/
structure Ended (α : Type) where
  status : SolveStatus
  pivots : Nat
  tableau : ArrayTableau α

/-- Moves `q` until it has crossed its own range or a basic variable stops it, whichever is first.
Nothing stops it if there is no such row and its range is infinite. -/
def move (s : SimplexSettings α) (q : Nat) (dir : Heading) : Option (ArrayTableau α) :=
  let block := t.ratioTest s q dir
  let span := t.upperOf q - t.lowerOf q
  if isFinite span && block.all fun b => decide (span ≤ b.ratio) then some (t.flip q dir.target)
  else block.map fun b => t.pivot s.dropTol b.row q b.leave

/-- Steps while a variable can enter. `remaining` more steps are allowed after the `done` taken. -/
def iterate (s : SimplexSettings α) (objective : Array α) (remaining done : Nat)
    (t : ArrayTableau α) : Ended α :=
  let t := t.updateValues
  let (cost, phaseOne) := t.cost s.tolFeas objective
  match t.entering s.tolCost cost with
  | none => ⟨if phaseOne then .infeasible else .optimal, done, t⟩
  | some (q, dir) =>
    match remaining with
    | 0 => ⟨.iterationLimit, done, t⟩
    | left + 1 =>
      match t.move s q dir with
      | none => ⟨.unbounded, done, t⟩
      | some next => iterate s objective left (done + 1) next

end ArrayTableau

end MixedInteger
