import MixedInteger.Scalar

/-!
# What is wrong with a model

Causes are values; `ModelError.message` is the only place that words them.
-/

namespace MixedInteger

/-- A row or a column of a model. -/
inductive Line where
  | row (index : Nat)
  | column (index : Nat)
  deriving DecidableEq, Repr

/-- Data that has to be finite, or at least defined. -/
inductive Datum where
  | objective (column : Nat)
  | coefficient (row column : Nat)
  | bounds (line : Line)
  | matrix
  deriving DecidableEq, Repr

/-- Parts of a model whose sizes disagree. -/
inductive Mismatch where
  | kinds (objective kinds : Nat)
  | columns (columns kinds lower upper : Nat)
  | rows (lower upper height width columns : Nat)
  | storage
  /-- A reason that a relaxation of another kind gives. -/
  | other (reason : String)
  deriving DecidableEq, Repr

inductive ModelError (α : Type) where
  | dimension (cause : Mismatch)
  | columnOutOfRange (index columns : Nat)
  | rowOutOfRange (index rows : Nat)
  | nonFinite (datum : Datum)
  | crossedBounds (line : Line) (lower upper : α)
  deriving DecidableEq, Repr

def Line.text : Line → String
  | .row i => s!"row {i}"
  | .column j => s!"column {j}"

def Datum.text : Datum → String
  | .objective j => s!"objective coefficient {j}"
  | .coefficient i j => s!"row {i} coefficient {j}"
  | .bounds line => s!"bounds of {line.text}"
  | .matrix => "constraint matrix"

def Mismatch.text : Mismatch → String
  | .kinds n k => s!"{n} objective coefficients but {k} column kinds"
  | .columns n k lo up => s!"{n} columns but {k} kinds, {lo} lower and {up} upper bounds"
  | .rows lo up h w n =>
    s!"{lo} row lower bounds, {up} row upper bounds, matrix is {h}x{w} (expected {lo}x{n})"
  | .storage => "constraint matrix must be CSR"
  | .other reason => reason

def ModelError.message {α : Type} [Scalar α] : ModelError α → String
  | .dimension cause => s!"Dimension mismatch: {cause.text}"
  | .columnOutOfRange j n => s!"Column index {j} out of range ({n} columns)"
  | .rowOutOfRange i m => s!"Row index {i} out of range ({m} rows)"
  | .nonFinite datum => s!"Non-finite value in {datum.text}"
  | .crossedBounds line lo up =>
    s!"Crossed bounds on {line.text}: lower {Scalar.text lo} > upper {Scalar.text up}"

end MixedInteger
