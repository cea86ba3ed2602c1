import MixedInteger.Decimal.Shortest

/-!
# How numbers are laid out

One shortest decimal, two layouts: `inMessages` never uses an exponent and shows no point on whole
numbers, `inJson` is the layout of JSON documents. A layout decides which way ties between equally
near digits go, since that changes the digits themselves.
-/

namespace MixedInteger.Decimal

/-- The choices of a layout that are not the digits of the number. -/
structure Layout where
  /-- Exponents of the leading digit for which every place is written. -/
  positional : Int → Bool
  /-- Whole numbers end in `.0`. -/
  wholePoint : Bool
  tie : Tie
  nan : String
  posInf : String
  negInf : String

/-- Every place written, no point on whole numbers. -/
def inMessages : Layout where
  positional := fun _ => true
  wholePoint := false
  tie := .up
  nan := "NaN"
  posInf := "inf"
  negInf := "-inf"

/-- Between `0.00001` and `10 ^ 16` every place is written, otherwise one digit before the point
and a signed exponent. There is no number for the infinities. -/
def inJson : Layout where
  positional := fun e => decide (-5 ≤ e ∧ e < 16)
  wholePoint := true
  tie := .toEven
  nan := "null"
  posInf := "null"
  negInf := "null"

/-- All places of `digits * 10 ^ exponent`, with the point inside, before or after the digits. -/
def Numeral.places (wholePoint : Bool) (d : Numeral) : List Char :=
  let ds := Nat.toDigits 10 d.digits
  if 0 ≤ d.exponent then
    ds ++ List.replicate d.exponent.toNat '0' ++ (if wholePoint then ['.', '0'] else [])
  else
    let behind := (-d.exponent).toNat
    if behind < ds.length then
      ds.take (ds.length - behind) ++ '.' :: ds.drop (ds.length - behind)
    else
      '0' :: '.' :: List.replicate (behind - ds.length) '0' ++ ds

/-- One digit, the point and the other digits if there are any, and the exponent with its sign. -/
def Numeral.scientific (leading : Int) (d : Numeral) : List Char :=
  let body :=
    match Nat.toDigits 10 d.digits with
    | [] => []
    | [c] => [c]
    | c :: rest => c :: '.' :: rest
  let sign := if leading < 0 then '-' else '+'
  body ++ 'e' :: sign :: Nat.toDigits 10 leading.natAbs

/-- A decimal without sign. -/
def Layout.decimal (f : Layout) (d : Numeral) : List Char :=
  let leading : Int := d.exponent + (Nat.toDigits 10 d.digits).length - 1
  if f.positional leading then d.places f.wholePoint else d.scientific leading

/-- The text of a number. Zero keeps its sign, an undefined value has none. -/
def Layout.render (f : Layout) (x : Float) : String :=
  if x.isNaN then f.nan
  else
    let negative := x.toBits >>> 63 == 1
    if x.isInf then (if negative then f.negInf else f.posInf)
    else
      let body := f.decimal ((Magnitude.ofBits x.toBits).shortest f.tie)
      String.ofList (if negative then '-' :: body else body)

end MixedInteger.Decimal
