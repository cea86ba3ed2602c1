import MixedInteger.Scalar

/-!
# Exact arithmetic

Rational numbers without rounding, with the two infinities and an undefined value for sums,
products and quotients that have no value. The searches and solves of this library mean over these
scalars what they are meant to compute over floating point.
-/

namespace MixedInteger

inductive Exact where
  | undefined
  | negInf
  | fin (value : Rat)
  | posInf
  deriving DecidableEq

namespace Exact

def add : Exact → Exact → Exact
  | .undefined, _ | _, .undefined => .undefined
  | .fin p, .fin q => .fin (p + q)
  | .posInf, .negInf | .negInf, .posInf => .undefined
  | .posInf, _ | _, .posInf => .posInf
  | .negInf, _ | _, .negInf => .negInf

def neg : Exact → Exact
  | .undefined => .undefined
  | .negInf => .posInf
  | .fin q => .fin (-q)
  | .posInf => .negInf

/-- The infinity with the sign of `q`; none for zero. -/
def infinity (q : Rat) : Exact := if 0 < q then .posInf else if q < 0 then .negInf else .undefined

/-- A finite number with the sign of an infinite one. -/
def signum : Exact → Rat
  | .undefined => 0
  | .negInf => -1
  | .fin q => q
  | .posInf => 1

def mul : Exact → Exact → Exact
  | .undefined, _ | _, .undefined => .undefined
  | .fin p, .fin q => .fin (p * q)
  | x, y => infinity (x.signum * y.signum)

/-- A number other than zero divided by zero is infinite with the sign of the number. -/
def div : Exact → Exact → Exact
  | .undefined, _ | _, .undefined => .undefined
  | .fin p, .fin q => if q = 0 then infinity p else .fin (p / q)
  | .fin _, _ => .fin 0
  | x, .fin q => if q = 0 then x else infinity (x.signum * q)
  | _, _ => .undefined

def lt : Exact → Exact → Bool
  | .undefined, _ | _, .undefined => false
  | .fin p, .fin q => decide (p < q)
  | .negInf, .negInf => false
  | .negInf, _ => true
  | .posInf, _ => false
  | .fin _, .posInf => true
  | .fin _, .negInf => false

/-- Equality of values; an undefined value equals nothing. -/
def eq : Exact → Exact → Bool
  | .fin p, .fin q => decide (p = q)
  | .negInf, .negInf | .posInf, .posInf => true
  | _, _ => false

/-- Applies a function to a finite value. -/
def map (f : Rat → Rat) : Exact → Exact
  | .fin q => .fin (f q)
  | x => x

def abs : Exact → Exact
  | .negInf => .posInf
  | .fin q => .fin (if q < 0 then -q else q)
  | x => x

/-- The nearest integer, a half going away from zero. -/
def roundHalf (q : Rat) : Rat :=
  if q < 0 then -((-q + 1 / 2).floor : Rat) else ((q + 1 / 2).floor : Rat)

def isNaN : Exact → Bool
  | .undefined => true
  | _ => false

def isFinite : Exact → Bool
  | .fin _ => true
  | _ => false

/-- The largest count that is told apart from the infinite one. -/
def countLimit : Nat := 0xFFFFFFFFFFFFFFFF

def toCount : Exact → Nat
  | .fin q => min q.floor.toNat countLimit
  | .posInf => countLimit
  | .undefined | .negInf => 0

def text : Exact → String
  | .undefined => "NaN"
  | .negInf => "-inf"
  | .fin q => if q.den = 1 then toString q.num else s!"{q.num}/{q.den}"
  | .posInf => "inf"

instance : Scalar Exact where
  zero := .fin 0
  one := .fin 1
  add := add
  sub := fun x y => add x (neg y)
  mul := mul
  div := div
  neg := neg
  lt := fun x y => lt x y = true
  le := fun x y => (lt x y || eq x y) = true
  beq := eq
  ofScientific := fun m s e => .fin (OfScientific.ofScientific m s e)
  decLt := fun _ _ => inferInstanceAs (Decidable (_ = true))
  decLe := fun _ _ => inferInstanceAs (Decidable (_ = true))
  emptySum := .fin 0
  posInf := .posInf
  negInf := .negInf
  isNaN := isNaN
  isFinite := isFinite
  abs := abs
  floor := map fun q => (q.floor : Rat)
  ceil := map fun q => (q.ceil : Rat)
  round := map roundHalf
  larger := fun x y => if x.isNaN then y else if y.isNaN then x else if lt y x then x else y
  smaller := fun x y => if x.isNaN then y else if y.isNaN then x else if lt x y then x else y
  ofNat := fun n => .fin (n : Rat)
  toCount := toCount
  text := text
  json := fun x => if x.isFinite then "\"" ++ x.text ++ "\"" else "null"

end Exact

end MixedInteger
