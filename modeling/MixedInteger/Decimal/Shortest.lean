/-!
# Shortest decimal digits

A finite binary64 magnitude is `mantissa * 2 ^ exponent`. The reals that round to it form an
interval, and its shortest decimal is the one with the fewest digits in that interval; of several
the nearest. Everything is decided by comparing natural numbers.

* `Magnitude.ofBits`: the magnitude behind a bit pattern;
* `Magnitude.admits`: a decimal lies among the reals that round to the magnitude;
* `Magnitude.shortest`: the decimal with the fewest digits that is admitted.
-/

namespace MixedInteger.Decimal

/-- The magnitude `mantissa * 2 ^ exponent` of a finite number. -/
structure Magnitude where
  mantissa : Nat
  exponent : Int
  /-- The next smaller magnitude is half as far away as the next larger one. -/
  closeBelow : Bool
  deriving DecidableEq, Repr

/-- The decimal number `digits * 10 ^ exponent`. -/
structure Numeral where
  digits : Nat
  exponent : Int
  deriving DecidableEq, Repr

/-- Which of two equally near decimals is taken. -/
inductive Tie where
  | toEven
  | up
  deriving DecidableEq, Repr

/-- The magnitude of a bit pattern that is neither infinite nor undefined. -/
def Magnitude.ofBits (bits : UInt64) : Magnitude :=
  let field := ((bits >>> 52) &&& 0x7FF).toNat
  let fraction := (bits &&& 0xFFFFFFFFFFFFF).toNat
  if field = 0 then ⟨fraction, -1074, false⟩
  else ⟨0x10000000000000 + fraction, (field : Int) - 1075, fraction = 0 && decide (1 < field)⟩

namespace Magnitude

/-- A quarter of a unit in the last place of `v` and a step of the grid `10 ^ grid` are to each
other as `v.quarterFactor grid` to `v.gridFactor grid`. -/
def quarterFactor (v : Magnitude) (grid : Int) : Nat :=
  Nat.pow 2 v.exponent.toNat * Nat.pow 10 (-grid).toNat

def gridFactor (v : Magnitude) (grid : Int) : Nat :=
  4 * Nat.pow 2 (-v.exponent).toNat * Nat.pow 10 grid.toNat

/-- The lower end of the interval, in quarters of a unit in the last place. -/
def lowerQuarters (v : Magnitude) : Nat := 4 * v.mantissa - (if v.closeBelow then 1 else 2)

/-- The upper end of the interval, in quarters of a unit in the last place. -/
def upperQuarters (v : Magnitude) : Nat := 4 * v.mantissa + 2

/-- The decimal lies among the reals that round to `v`. The ends of that interval belong to it
exactly when the mantissa is even. -/
def admits (v : Magnitude) (d : Numeral) : Bool :=
  let point := d.digits * v.gridFactor d.exponent
  let lower := v.lowerQuarters * v.quarterFactor d.exponent
  let upper := v.upperQuarters * v.quarterFactor d.exponent
  if v.mantissa % 2 = 0 then decide (lower ≤ point ∧ point ≤ upper)
  else decide (lower < point ∧ point < upper)

/-- The least `k` with `v < 10 ^ k`, for a magnitude that is not zero. -/
def decimalScale (v : Magnitude) : Int :=
  let whole := v.mantissa * Nat.pow 2 v.exponent.toNat
  let parts := Nat.pow 2 (-v.exponent).toNat
  if parts ≤ whole then (Nat.toDigits 10 (whole / parts)).length
  else 1 - ((Nat.toDigits 10 ((parts - 1) / whole)).length : Int)

/-- The admitted neighbour of `v` on the grid of multiples of `10 ^ grid`, the nearer one if both
are. -/
def onGrid (v : Magnitude) (tie : Tie) (grid : Int) : Option Numeral :=
  let point := 4 * v.mantissa * v.quarterFactor grid
  let unit := v.gridFactor grid
  let below : Numeral := ⟨point / unit, grid⟩
  let above : Numeral := ⟨point / unit + 1, grid⟩
  match v.admits below, v.admits above with
  | true, false => some below
  | false, true => some above
  | false, false => none
  | true, true =>
    match compare (2 * (point % unit)) unit with
    | .lt => some below
    | .gt => some above
    | .eq =>
      match tie with
      | .up => some above
      | .toEven => if below.digits % 2 = 0 then some below else some above

/-- The value itself, all its digits written. -/
def allDigits (v : Magnitude) : Numeral :=
  ⟨v.mantissa * Nat.pow 2 v.exponent.toNat * Nat.pow 5 (-v.exponent).toNat,
    -((-v.exponent).toNat : Int)⟩

end Magnitude

/-- The same number with trailing zeros of the digits moved to the exponent; at most `fuel` of
them. -/
def Numeral.strip : (fuel : Nat) → Numeral → Numeral
  | 0, d => d
  | fuel + 1, d =>
    if d.digits ≠ 0 ∧ d.digits % 10 = 0 then
      Numeral.strip fuel ⟨d.digits / 10, d.exponent + 1⟩
    else d

/-- The shortest decimal that reads back as `v`. Seventeen digits are known to be enough; a value
for which they were not would be written in full. -/
def Magnitude.shortest (v : Magnitude) (tie : Tie) : Numeral :=
  if v.mantissa = 0 then ⟨0, 0⟩
  else
    let scale := v.decimalScale
    let found := (List.range 17).findSome? fun n : Nat => v.onGrid tie (scale - 1 - n)
    let d := found.getD v.allDigits
    d.strip (Nat.toDigits 10 d.digits).length

end MixedInteger.Decimal
