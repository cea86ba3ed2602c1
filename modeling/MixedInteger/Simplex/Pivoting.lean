import MixedInteger.Simplex.Tableau

/-!
# Pivoting

One step of the simplex method changes the basis along an improving direction. While some basic
variable lies outside its range the cost is the distance back (phase one), afterwards it is the
objective of the model. The entering variable and, among equal ratios, the leaving one is the one
of smallest index.

* `Tableau.entering`: the variable to move and its direction;
* `Tableau.ratioTest`: the first row that stops the movement;
* `Tableau.move`: the tableau after the movement, none if nothing stops it;
* `Tableau.iterate`: steps until no variable can enter, or no step is left.
-/

namespace MixedInteger

/-- Tolerances and the step limit of a solve. -/
structure SimplexSettings (α : Type) where
  /-- Pivots and flips together. -/
  maxPivots : Nat
  /-- A variable may lie this far outside its range. -/
  tolFeas : α
  /-- Entries up to this magnitude are no pivots. -/
  tolPivot : α
  /-- Reduced costs up to this magnitude do not improve. -/
  tolCost : α
  /-- Entries below this magnitude become zero in an elimination. -/
  dropTol : α

def SimplexSettings.default {α : Type} [Scalar α] : SimplexSettings α where
  maxPivots := 50000
  tolFeas := 1e-9
  tolPivot := 1e-9
  tolCost := 1e-9
  dropTol := 1e-13

/-- How a solve ended, or that there was none since the last change of the model. -/
inductive SolveStatus where
  | optimal
  | infeasible
  | unbounded
  | iterationLimit
  | notSolved
  deriving DecidableEq, Repr

/-- Which way a resting variable moves. -/
inductive Heading where
  | up
  | down
  deriving DecidableEq, Repr

/-- A row that stops a movement: after `ratio`, when its basic variable comes to rest at `leave`. -/
structure Block (α : Type) (m : Nat) where
  row : Fin m
  ratio : α
  leave : Resting

variable {α : Type} [Scalar α]

open Scalar

/-- A rate per unit of growth as a rate per unit of movement. -/
def Heading.orient : Heading → α → α
  | .up, rate => rate
  | .down, rate => -rate

/-- Where a variable rests that has moved this way through its whole range. -/
def Heading.target : Heading → Resting
  | .up => .atUpper
  | .down => .atLower

/-- May a variable that rests there grow? -/
def Resting.canGrow : Resting → Bool
  | .atLower | .free => true
  | .atUpper | .fixed => false

/-- May a variable that rests there shrink? -/
def Resting.canShrink : Resting → Bool
  | .atUpper | .free => true
  | .atLower | .fixed => false

namespace Tableau

variable {m n : Nat}

/-- Some range is empty by more than the tolerance. -/
def hasEmptyRange (t : Tableau α m n) (tol : α) : Bool :=
  (List.finRange (m + n)).any fun k => decide (t.lower.get k > t.upper.get k + tol)

/-- Variable `k` lies below its range at `x`. -/
def isBelow (t : Tableau α m n) (tol : α) (x : Vector α (m + n)) (k : Fin (m + n)) : Bool :=
  decide (x.get k < t.lower.get k - tol)

/-- Variable `k` lies above its range at `x`. -/
def isAbove (t : Tableau α m n) (tol : α) (x : Vector α (m + n)) (k : Fin (m + n)) : Bool :=
  decide (x.get k > t.upper.get k + tol)

/-- Some basic variable lies outside its range. -/
def inPhaseOne (t : Tableau α m n) (tol : α) (x : Vector α (m + n)) : Bool :=
  (List.finRange m).any fun r => t.isBelow tol x (t.head.get r) || t.isAbove tol x (t.head.get r)

/-- The cost of phase one rewards the way back into the range. -/
def repairCost (t : Tableau α m n) (tol : α) (x : Vector α (m + n)) : Vector α (m + n) :=
  Vector.ofFn fun k =>
    if !(t.place.get k).isBasic then 0
    else if t.isBelow tol x k then 1
    else if t.isAbove tol x k then -1
    else 0

/-- The cost of phase two is the objective of the model; rows cost nothing. -/
def objectiveCost (objective : Array α) : Vector α (m + n) :=
  Vector.ofFn fun k => if k.val < m then 0 else objective[k.val - m]?.getD 0

/-- The cost to be maximized at the point `x`. -/
def cost (t : Tableau α m n) (tol : α) (objective : Array α) (x : Vector α (m + n)) :
    Vector α (m + n) :=
  if t.inPhaseOne tol x then t.repairCost tol x else objectiveCost objective

/-- How fast the cost grows with variable `k`, the basic variables following it. -/
def reducedCost (t : Tableau α m n) (cost : Vector α (m + n)) (k : Fin (m + n)) : α :=
  (List.finRange m).foldl (fun (d : α) r =>
    let c := cost.get (t.head.get r)
    if c == 0 then d else d + c * t.rate r k) (cost.get k)

/-- The way in which moving variable `k` improves the cost, if there is one. -/
def improving? (t : Tableau α m n) (tolCost : α) (cost : Vector α (m + n)) (k : Fin (m + n)) :
    Option Heading :=
  match t.place.get k with
  | .basic _ => none
  | .nonbasic rest =>
    if rest = .fixed then none
    else
      let d := t.reducedCost cost k
      if decide (d > tolCost) && rest.canGrow then some .up
      else if decide (d < -tolCost) && rest.canShrink then some .down
      else none

/-- The resting variable of smallest index whose movement improves the cost. -/
def entering (t : Tableau α m n) (tolCost : α) (cost : Vector α (m + n)) :
    Option (Fin (m + n) × Heading) :=
  (List.finRange (m + n)).findSome? fun k => (t.improving? tolCost cost k).map fun h => (k, h)

/-- How far `q` can move until the basic variable of row `r` reaches the end of its range, or
comes back to it if it lies outside. -/
def candidate (t : Tableau α m n) (s : SimplexSettings α) (x : Vector α (m + n))
    (q : Fin (m + n)) (dir : Heading) (r : Fin m) : Option (Block α m) :=
  let alpha := dir.orient (t.rate r q)
  let b := t.head.get r
  if abs alpha ≤ s.tolPivot then none
  else if t.isBelow s.tolFeas x b then
    if alpha > 0 then some ⟨r, (t.lower.get b - x.get b) / alpha, .atLower⟩ else none
  else if t.isAbove s.tolFeas x b then
    if alpha < 0 then some ⟨r, (x.get b - t.upper.get b) / -alpha, .atUpper⟩ else none
  else if alpha > 0 then
    if isFinite (t.upper.get b) then
      some ⟨r, larger ((t.upper.get b - x.get b) / alpha) 0, .atUpper⟩
    else none
  else
    if isFinite (t.lower.get b) then
      some ⟨r, larger ((x.get b - t.lower.get b) / -alpha) 0, .atLower⟩
    else none

/-- Whether `c` stops the movement before `best`, or within the tolerance at the same time and with
a basic variable of smaller index. -/
def blocksBefore (t : Tableau α m n) (tol : α) (c best : Block α m) : Bool :=
  decide (c.ratio < best.ratio - tol)
    || decide (c.ratio ≤ best.ratio + tol) && decide (t.head.get c.row < t.head.get best.row)

/-- The row that stops the movement of `q`. -/
def ratioTest (t : Tableau α m n) (s : SimplexSettings α) (x : Vector α (m + n))
    (q : Fin (m + n)) (dir : Heading) : Option (Block α m) :=
  ((List.finRange m).filterMap (t.candidate s x q dir)).foldl (fun best c =>
    match best with
    | none => some c
    | some b => if t.blocksBefore s.tolFeas c b then some c else some b) none

/-- Moves `q` until it has crossed its own range or a basic variable stops it, whichever is
first. Nothing stops it if there is no such row and its range is infinite. -/
def move (t : Tableau α m n) (s : SimplexSettings α) (x : Vector α (m + n))
    (q : Fin (m + n)) (dir : Heading) : Option (Tableau α m n) :=
  let span := t.upper.get q - t.lower.get q
  match t.ratioTest s x q dir with
  | none => if isFinite span then some (t.flip q dir.target) else none
  | some b =>
    if isFinite span && decide (span ≤ b.ratio) then some (t.flip q dir.target)
    else some (t.pivot s.dropTol b.row q b.leave)

/-- The end of a solve: the verdict, the number of steps and the last tableau. -/
structure Run (α : Type) (m n : Nat) where
  status : SolveStatus
  pivots : Nat
  tableau : Tableau α m n

/-- Steps while a variable can enter. `remaining` more steps are allowed after the `done` taken. -/
def iterate (s : SimplexSettings α) (objective : Array α) (remaining done : Nat)
    (t : Tableau α m n) : Run α m n :=
  let x := t.values
  match t.entering s.tolCost (t.cost s.tolFeas objective x) with
  | none => ⟨if t.inPhaseOne s.tolFeas x then .infeasible else .optimal, done, t⟩
  | some (q, dir) =>
    match remaining with
    | 0 => ⟨.iterationLimit, done, t⟩
    | left + 1 =>
      match t.move s x q dir with
      | none => ⟨.unbounded, done, t⟩
      | some next => iterate s objective left (done + 1) next

end Tableau

end MixedInteger
