import MixedInteger.Cut
import MixedInteger.Relaxation.Classification

/-!
# Gomory mixed-integer cuts

The tableau row of a basic integral column reads `x_B = Σ ξ_j x_j` over resting variables. Measured
from the bound it rests at, each of them is a distance `x'_j ≥ 0`, and the row becomes
`x_B + Σ α_j x'_j = β`. With `f₀` the fractional part of `β`, every point with integral `x_B` meets
`Σ φ_j x'_j ≥ f₀`, where `φ_j` depends on the fractional part of `α_j` if the distance is integral
and on its sign otherwise. Distances are then replaced by variables, and row values by their terms,
so that the cut is one over the columns of the model.

* `weight`: the factor `φ` of one distance;
* `Gomory.contribution`: what a tableau entry adds to the cut;
* `Gomory.generate`: the cut of a column, if there is one.
-/

namespace MixedInteger

structure GomorySettings (α : Type) where
  /-- Basic values closer than this to an integer are not cut. -/
  minFraction : α
  /-- Entries below this magnitude are ignored. -/
  zeroTol : α
  /-- Rows with an entry above this magnitude are rejected. -/
  maxCoefficient : α

/-- What is wrong with the settings of the generator, and the value that is. -/
inductive GomoryFault (α : Type) where
  | minFraction (value : α)
  | zeroTol (value : α)
  | maxCoefficient (value : α)
  deriving DecidableEq, Repr

variable {α : Type} [Scalar α]

open Scalar

namespace GomorySettings

def default : GomorySettings α where
  minFraction := 1e-6
  zeroTol := 1e-10
  maxCoefficient := 1e5

def validate (s : GomorySettings α) : Except (GomoryFault α) Unit :=
  if ¬(0 ≤ s.minFraction ∧ s.minFraction < 0.5) then .error (.minFraction s.minFraction)
  else if isFinite s.zeroTol = false ∨ s.zeroTol < 0 then .error (.zeroTol s.zeroTol)
  else if isNaN s.maxCoefficient = true ∨ s.maxCoefficient ≤ s.zeroTol then
    .error (.maxCoefficient s.maxCoefficient)
  else .ok ()

end GomorySettings

def GomoryFault.text : GomoryFault α → String
  | .minFraction v => s!"min_fraction must lie in [0, 0.5), got {Scalar.text v}"
  | .zeroTol v => s!"zero_tol must be finite and non-negative, got {Scalar.text v}"
  | .maxCoefficient v => s!"max_coefficient must exceed zero_tol, got {Scalar.text v}"

/-- Rows looked at, cuts made, and rows given up for a free variable or a huge entry. -/
structure GomoryCounts where
  attempts : Nat
  generated : Nat
  rejected : Nat
  deriving DecidableEq, Repr

structure Gomory (α : Type) where
  settings : GomorySettings α
  counts : GomoryCounts

namespace Gomory

def new (settings : GomorySettings α) : Gomory α := ⟨settings, ⟨0, 0, 0⟩⟩

/-- What a tableau entry does to the cut under construction. -/
inductive Contribution (α : Type) where
  | skip
  | reject
  /-- Adds `coefficient` times the variable to the left-hand side and `shift` to the right. -/
  | add (coefficient shift : α)

/-- The factor of an integral distance with coefficient `alpha`, none if `alpha` is integral up to
the tolerance. -/
def integralWeight? (zeroTol f₀ alpha : α) : Option α :=
  let f := fractionalPart alpha
  if f < zeroTol ∨ f > 1 - zeroTol then none
  else if f ≤ f₀ then some f
  else some (f₀ / (1 - f₀) * (1 - f))

/-- The factor of a distance that need not be integral. -/
def continuousWeight (f₀ alpha : α) : α := if alpha ≥ 0 then alpha else f₀ / (1 - f₀) * -alpha

/-- The factor of the distance from `bound`. The distance of an integral variable is integral only
if the bound is. -/
def weight? (zeroTol f₀ : α) (kind : Kind) (alpha bound : α) : Option α :=
  if kind.isIntegral && bound == round bound then integralWeight? zeroTol f₀ alpha
  else some (continuousWeight f₀ alpha)

/-- A fixed variable has no distance, and the distance of a free one has no sign. -/
def contribution (s : GomorySettings α) (f₀ : α) (e : TableauEntry α) : Contribution α :=
  let xi := e.coefficient
  if abs xi < s.zeroTol then .skip
  else if abs xi > s.maxCoefficient then .reject
  else
    match e.rest with
    | .fixed => .skip
    | .free => .reject
    | .atLower =>
      match weight? s.zeroTol f₀ e.kind (-xi) e.lower with
      | none => .skip
      | some phi => .add phi (phi * e.lower)
    | .atUpper =>
      match weight? s.zeroTol f₀ e.kind xi e.upper with
      | none => .skip
      | some phi => .add (-phi) (-phi * e.upper)

/-- The cut under construction: coefficients of row values and of columns, and the right side. -/
structure Draft (α : Type) where
  rows : Array α
  columns : Array α
  rhs : α

/-- Adds a multiple of a variable. -/
def Draft.addVar (d : Draft α) (var : TableauVar) (a : α) : Draft α :=
  match var with
  | .row i => { d with rows := d.rows.modify i (· + a) }
  | .column j => { d with columns := d.columns.modify j (· + a) }

/-- Goes through the entries in order; none if one of them spoils the row. -/
def Draft.collect (s : GomorySettings α) (f₀ : α) :
    Draft α → List (TableauEntry α) → Option (Draft α)
  | d, [] => some d
  | d, e :: rest =>
    match contribution s f₀ e with
    | .skip => Draft.collect s f₀ d rest
    | .reject => none
    | .add a shift =>
      Draft.collect s f₀ ({ d with rhs := d.rhs + shift }.addVar e.var a) rest

variable {R : Type} [Relaxation R α]

/-- Replaces row values by their terms. -/
def Draft.substitute (d : Draft α) (oracle : R) : Array α :=
  d.rows.toList.zipIdx.foldl (fun columns (p, i) =>
    if p == 0 then columns
    else (Relaxation.rowTerms oracle i).foldl (fun columns t =>
      columns.modify t.1 (· + p * t.2)) columns) d.columns

/-- The terms of the cut that are larger than the tolerance. -/
def significantTerms (zeroTol : α) (columns : Array α) : List (Term α) :=
  (columns.toList.zipIdx.map fun (v, j) => (j, v)).filter fun t => decide (abs t.2 > zeroTol)

/-- A row is used if it is the row of a basic integral column with a fractional value. -/
def sourceRow? (oracle : R) (column : Nat) : Option (TableauRow α) :=
  if (Relaxation.kind oracle column).isIntegral && Relaxation.isBasic oracle column then
    Relaxation.tableauRow? oracle column
  else none

/-- The fractional part of the basic value is large enough on both sides. -/
def isCuttable (s : GomorySettings α) (f₀ : α) : Bool :=
  !(decide (f₀ < s.minFraction) || decide (f₀ > 1 - s.minFraction))

/-- The empty draft of a cut with right side `f₀`. -/
def Draft.start (oracle : R) (f₀ : α) : Draft α :=
  ⟨Array.replicate (Relaxation.numRows oracle) 0,
    Array.replicate (Relaxation.numVariables oracle) 0, f₀⟩

/-- The cut from the tableau row of a column, found at a node. There is none if the column is
continuous, resting or integral, or if its row cannot be used safely. -/
def generate (g : Gomory α) (oracle : R) (column node : Nat) : Option (Cut α) × Gomory α :=
  match sourceRow? oracle column with
  | none => (none, g)
  | some row =>
    let tried := { g.counts with attempts := g.counts.attempts + 1 }
    let f₀ := fractionalPart row.basicValue
    if !isCuttable g.settings f₀ then (none, { g with counts := tried })
    else
      match Draft.collect g.settings f₀ (Draft.start oracle f₀) row.entries with
      | none => (none, { g with counts := { tried with rejected := tried.rejected + 1 } })
      | some draft =>
        match significantTerms g.settings.zeroTol (draft.substitute oracle) with
        | [] => (none, { g with counts := tried })
        | terms =>
          (some ⟨SparseRow.ofTerms (Relaxation.numVariables oracle) terms, draft.rhs,
              .gomory column node⟩,
            { g with counts := { tried with generated := tried.generated + 1 } })

end Gomory

end MixedInteger
