import MixedInteger.Scalar
import MixedInteger.Decimal.Layout

/-!
# Double precision

The scalars that programs run on: binary64 with one rounding per operation. The empty sum is
negative zero, the number that adding leaves every other number as it is.

* `Binary64.roundMagnitude`: a number without its fractional part, one further from zero or not;
* `Binary64.floor`, `Binary64.ceil`, `Binary64.round`: when it is one further.
-/

namespace MixedInteger

namespace Binary64

/-- Numbers of this magnitude have no fractional part. -/
def integralFrom : Float := 4503599627370496.0

/-- Has the number a minus sign? Negative zero has one. -/
def isNegative (x : Float) : Bool := decide (0x8000000000000000 ≤ x.toBits)

/-- Cuts off the fractional part. The magnitude grows by one if `away` says so of it and of its
integral part. The sign stays, also that of zero, and so does what has no fractional part. -/
def roundMagnitude (away : Float → Float → Bool) (x : Float) : Float :=
  let magnitude := x.abs
  if magnitude < integralFrom then
    let whole := magnitude.toUInt64
    let rounded := if away magnitude whole.toFloat then whole + 1 else whole
    if isNegative x then -rounded.toFloat else rounded.toFloat
  else x

def floor (x : Float) : Float :=
  roundMagnitude (fun magnitude whole => isNegative x && decide (whole < magnitude)) x

def ceil (x : Float) : Float :=
  roundMagnitude (fun magnitude whole => !isNegative x && decide (whole < magnitude)) x

/-- The nearest integer; a half goes away from zero. -/
def round (x : Float) : Float :=
  roundMagnitude (fun magnitude whole => decide (0.5 ≤ magnitude - whole)) x

end Binary64

instance : Scalar Float where
  decLt := fun a b => inferInstanceAs (Decidable (a < b))
  decLe := fun a b => inferInstanceAs (Decidable (a ≤ b))
  emptySum := -0.0
  posInf := 1.0 / 0.0
  negInf := -1.0 / 0.0
  isNaN := Float.isNaN
  isFinite := Float.isFinite
  abs := Float.abs
  floor := Binary64.floor
  ceil := Binary64.ceil
  round := Binary64.round
  larger := fun a b => if a.isNaN then b else if b.isNaN then a else if b < a then a else b
  smaller := fun a b => if a.isNaN then b else if b.isNaN then a else if a < b then a else b
  ofNat := Float.ofNat
  toCount := fun x => x.toUInt64.toNat
  text := Decimal.inMessages.render
  json := Decimal.inJson.render

end MixedInteger
