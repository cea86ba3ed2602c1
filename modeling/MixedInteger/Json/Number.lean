/-!
# Numbers in JSON documents

A number is kept as it is written. It is read as a word if it is a plain integer that fits, and as
a binary64 number otherwise: the digits that fit a word make the significand, the digits after those
are dropped, and one multiplication or division by a power of ten follows. That is not always the
binary64 number nearest to what is written, but it is exact for short significands.

* `Number.toWord?`: a plain integer below `2 ^ 64`;
* `Number.toFloat?`: the binary64 number, none if it is too large.
-/

namespace MixedInteger.Json

/-- A number as it is written. Digits are kept as numbers below ten. -/
structure Number where
  negative : Bool
  whole : List Nat
  /-- Empty if there is no point. -/
  fraction : List Nat
  /-- Sign and digits of the exponent: `(true, ds)` for a negative one. -/
  exponent : Option (Bool × List Nat)
  deriving DecidableEq, Repr

namespace Number

/-- What fits a word of 64 bits. -/
def wordLimit : Nat := 0x10000000000000000

/-- Appends digits to a significand as long as it fits a word. Returns it with the digits left. -/
def appendDigits (s : Nat) : List Nat → Nat × List Nat
  | [] => (s, [])
  | d :: ds => if s * 10 + d < wordLimit then appendDigits (s * 10 + d) ds else (s, d :: ds)

/-- The significand and the decimal exponent that belongs to it, the written exponent apart. -/
def significand (x : Number) : Nat × Int :=
  let (s, dropped) := appendDigits 0 x.whole
  let (s', unused) := appendDigits s x.fraction
  (s', (dropped.length : Int) - (x.fraction.length - unused.length : Nat))

def digitsValue (ds : List Nat) : Nat := ds.foldl (fun v d => v * 10 + d) 0

/-- Exponents from here on are not told apart. -/
def exponentLimit : Nat := 0x80000000

/-- A power of ten that binary64 numbers reach. -/
def powerOfTen (k : Nat) : Float := Float.ofScientific 1 false k

/-- The quotient `f / 10 ^ (308 * steps + rest)`, dividing until nothing is left. -/
def divideDown (f : Float) (rest : Nat) : (steps : Nat) → Float
  | 0 => if f == 0 then f else f / powerOfTen rest
  | steps + 1 => if f == 0 then f else divideDown (f / powerOfTen 308) rest steps

/-- The product `f * 10 ^ e`, none if that is too large. -/
def scale? (f : Float) (e : Int) : Option Float :=
  if f == 0 then some f
  else if 308 < e then none
  else if 0 ≤ e then
    let scaled := f * powerOfTen e.toNat
    if scaled.isInf then none else some scaled
  else
    let down := (-e).toNat
    if down ≤ 308 then some (f / powerOfTen down)
    else
      let steps := (down - 1) / 308
      some (divideDown f (down - 308 * steps) steps)

def toFloat? (x : Number) : Option Float := do
  let (s, e) := x.significand
  let f := Float.ofNat s
  let magnitude ←
    match x.exponent with
    | none => scale? f e
    | some (down, ds) =>
      let written := digitsValue ds
      if exponentLimit ≤ written then (if s = 0 ∨ down then some 0 else none)
      else scale? f (if down then e - written else e + written)
  return if x.negative then -magnitude else magnitude

/-- A plain integer that is not negative and fits a word. The digits of zero may not be signed. -/
def toWord? (x : Number) : Option Nat :=
  if x.negative ∨ x.fraction ≠ [] ∨ x.exponent.isSome then none
  else
    let v := digitsValue x.whole
    if v < wordLimit then some v else none

end Number

end MixedInteger.Json
