/-!
# The numbers of a model

Models, tableaus, cuts and searches are written over any type with the operations of `Scalar`.
The class asks for no law, because the arithmetic that programs run on rounds; a statement that
needs exact arithmetic names the exact scalars, and one that does not holds of every instance.

* `Scalar`: the operations;
* `Scalar.sum`: a sum taken from left to right;
* `Scalar.signedText`: the text of a number with its sign always shown.
-/

namespace MixedInteger

/-- Numbers with infinities and possibly undefined values. Comparisons with an undefined value
fail, and `==` is the comparison of values, not of representations. -/
class Scalar (α : Type) extends
    Zero α, One α, Add α, Sub α, Mul α, Div α, Neg α, LT α, LE α, BEq α, OfScientific α where
  decLt : (a b : α) → Decidable (a < b)
  decLe : (a b : α) → Decidable (a ≤ b)
  /-- The sum of no numbers. -/
  emptySum : α
  posInf : α
  negInf : α
  isNaN : α → Bool
  isFinite : α → Bool
  abs : α → α
  floor : α → α
  ceil : α → α
  /-- The nearest integer; a half goes away from zero. -/
  round : α → α
  /-- The larger number. An undefined one is passed over, and of two equal ones the second is
  taken. -/
  larger : α → α → α
  /-- The smaller number, with the same conventions. -/
  smaller : α → α → α
  ofNat : Nat → α
  /-- The integral part as a count, cut off below zero and above what a word holds. -/
  toCount : α → Nat
  /-- The number as it stands in messages. -/
  text : α → String
  /-- The number as it stands in a JSON document. -/
  json : α → String

namespace Scalar

variable {α : Type} [Scalar α]

instance (a b : α) : Decidable (a < b) := Scalar.decLt a b

instance (a b : α) : Decidable (a ≤ b) := Scalar.decLe a b

/-- The sum of a list, taken from left to right. -/
def sum (xs : List α) : α := xs.foldl (· + ·) emptySum

@[simp] theorem sum_nil : sum ([] : List α) = emptySum := rfl

@[simp] theorem sum_concat (xs : List α) (x : α) : sum (xs ++ [x]) = sum xs + x := by
  simp [sum]

/-- The text of a number with a plus sign where it has no minus sign. Undefined values have none. -/
def signedText (x : α) : String :=
  let t := text x
  if isNaN x || t.startsWith "-" then t else "+" ++ t

end Scalar

end MixedInteger
