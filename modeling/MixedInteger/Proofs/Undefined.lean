import Mathlib
import MixedInteger.Proofs.Exact
import MixedInteger.Relaxation.Classification
import MixedInteger.Scalar.Binary64

/-!
# Undefined values

Arithmetic that rounds obeys few laws, but it is clear where an undefined value can come from and
what becomes of it. No comparison holds of one, a difference with one is undefined, and rounding to
an integer makes none.

* `Scalar.Definite`: these laws, with instances for exact arithmetic and for double precision;
* `isNaN_of_isFractional`: a value that is seen to be fractional is defined.
-/

namespace MixedInteger

open Scalar

/-- How undefined values arise and spread. -/
class Scalar.Definite (α : Type) [Scalar α] : Prop where
  zero : isNaN (0 : α) = false
  one : isNaN (1 : α) = false
  of_lt : ∀ {a b : α}, a < b → isNaN a = false ∧ isNaN b = false
  abs : ∀ {a : α}, isNaN (abs a) = false → isNaN a = false
  sub : ∀ {a b : α}, isNaN (a - b) = false → isNaN a = false
  floor : ∀ {a : α}, isNaN a = false → isNaN (floor a) = false
  ceil : ∀ {a : α}, isNaN a = false → isNaN (ceil a) = false
  larger : ∀ {a b : α}, isNaN a = false → isNaN b = false → isNaN (larger a b) = false
  smaller : ∀ {a b : α}, isNaN a = false → isNaN b = false → isNaN (smaller a b) = false

/-- An undefined value is not seen to be fractional. -/
theorem isNaN_of_isFractional {α : Type} [Scalar α] [Definite α] {tol v : α}
    (h : isFractional tol v = true) : isNaN v = false :=
  Definite.sub (Definite.abs (Definite.of_lt (of_decide_eq_true h)).2)

/-- One of two defined numbers is defined, however it is chosen. -/
theorem isNaN_choice {α : Type} [Scalar α] {a b : α} (ha : isNaN a = false) (hb : isNaN b = false)
    (p q r : Prop) [Decidable p] [Decidable q] [Decidable r] :
    isNaN (if p then b else if q then a else if r then a else b) = false := by
  split
  · exact hb
  · split
    · exact ha
    · split
      · exact ha
      · exact hb

/-! ## Exact arithmetic -/

instance : Definite Exact where
  zero := rfl
  one := rfl
  of_lt h := Exact.isNaN_of_le (Exact.le_of_lt h)
  abs {a} h := by
    cases a with
    | undefined => exact h
    | negInf | fin | posInf => rfl
  sub {a b} h := by
    cases a with
    | undefined => exact h
    | negInf | fin | posInf => rfl
  floor {a} h := by
    cases a with
    | undefined => exact h
    | negInf | fin | posInf => rfl
  ceil {a} h := by
    cases a with
    | undefined => exact h
    | negInf | fin | posInf => rfl
  larger ha hb := isNaN_choice ha hb _ _ _
  smaller ha hb := isNaN_choice ha hb _ _ _

/-! ## Double precision -/

namespace Binary64

open Float.Model UnpackedFloat

theorem isNaN_unpack_components {sign : Sign} {e : BitVec Format.binary64.exponentBits}
    {m : BitVec Format.binary64.mantissaBitsWithoutImplicit} (h : e ≠ -1#_ ∨ m = 0#_) :
    (UnpackedFloat.unpack .binary64 (packComponents .binary64 sign e m)).isNaN = false := by
  simp only [UnpackedFloat.unpack, unpackExponent_packComponents, unpackMantissa_packComponents]
  split
  · rename_i he
    rw [if_pos (h.resolve_left (not_not.mpr he))]
    rfl
  · split
    · split <;> rfl
    · rfl

/-- Packing makes no number undefined. -/
theorem isNaN_pack (f : UnpackedFloat) : (Float.Model.pack f).isNaN = f.isNaN := by
  change (UnpackedFloat.unpack .binary64 (UnpackedFloat.pack .binary64 f)).isNaN = f.isNaN
  fun_cases UnpackedFloat.pack .binary64 f with
  | case1 => decide
  | case2 sign => exact isNaN_unpack_components (.inr rfl)
  | case3 sign => exact isNaN_unpack_components (.inr rfl)
  | case4 => exact isNaN_unpack_components (.inr rfl)
  | case5 sign m e hm bits biased hfits =>
    apply isNaN_unpack_components
    left
    intro hones
    have hbiased := congrArg BitVec.toNat hones
    simp [BitVec.neg_one_eq_allOnes] at hbiased hfits
    omega
  | case6 => exact isNaN_unpack_components (.inl (by decide))

theorem isNaN_abs (x : Float) : x.abs.isNaN = x.isNaN := by
  refine (isNaN_pack x.toModel.unpack.abs).trans ?_
  unfold Float.isNaN Float.Model.isNaN
  cases x.toModel.unpack <;> rfl

theorem isNaN_neg (x : Float) : (-x).isNaN = x.isNaN := by
  refine (isNaN_pack x.toModel.unpack.neg).trans ?_
  unfold Float.isNaN Float.Model.isNaN
  cases x.toModel.unpack <;> rfl

theorem isNaN_of_sub {x y : Float} (h : (x - y).isNaN = false) : x.isNaN = false := by
  have hsub := (isNaN_pack (x.toModel.unpack.sub .binary64 y.toModel.unpack)).symm.trans h
  unfold Float.isNaN Float.Model.isNaN
  cases hx : x.toModel.unpack with
  | notANumber =>
    rw [hx] at hsub
    cases hsub
  | infinity | zero | finite => rfl

theorem isNaN_of_lt {x y : Float} (h : x < y) : x.isNaN = false ∧ y.isNaN = false := by
  have hlt : x.toModel.unpack.lt y.toModel.unpack = true := of_decide_eq_true h
  unfold Float.isNaN Float.Model.isNaN
  cases hx : x.toModel.unpack with
  | notANumber =>
    rw [hx] at hlt
    cases hlt
  | infinity | zero | finite =>
    cases hy : y.toModel.unpack with
    | notANumber =>
      rw [hx, hy] at hlt
      cases hlt
    | infinity | zero | finite => exact ⟨rfl, rfl⟩

theorem isNaN_round (spec : Format) (sign : Sign) (m : Nat) (e : Int) :
    (UnpackedFloat.round spec sign m e).isNaN = false := by
  unfold UnpackedFloat.round roundWithAccuracy
  dsimp only
  split <;> rfl

/-- Rounding to the format makes no number undefined. -/
theorem isNaN_normalize (spec : Format) (m e : Int) (sign : Sign) :
    (UnpackedFloat.normalize spec m e sign).isNaN = false := by
  unfold UnpackedFloat.normalize
  split
  · exact isNaN_round _ _ _ _
  · rfl
  · exact isNaN_round _ _ _ _

theorem isNaN_toFloat (n : UInt64) : n.toFloat.isNaN = false :=
  (isNaN_pack _).trans (isNaN_normalize _ _ _ _)

/-- Rounding to an integer makes no number undefined. -/
theorem isNaN_roundMagnitude (away : Float → Float → Bool) {x : Float} (h : x.isNaN = false) :
    (roundMagnitude away x).isNaN = false := by
  unfold roundMagnitude
  dsimp only
  split
  · split
    · rw [isNaN_neg, isNaN_toFloat]
    · rw [isNaN_toFloat]
  · exact h

theorem isNaN_floor {x : Float} (h : x.isNaN = false) : (floor x).isNaN = false := by
  unfold floor
  exact isNaN_roundMagnitude _ h

theorem isNaN_ceil {x : Float} (h : x.isNaN = false) : (ceil x).isNaN = false := by
  unfold ceil
  exact isNaN_roundMagnitude _ h

end Binary64

instance : Definite Float where
  zero := by decide
  one := by decide
  of_lt h := Binary64.isNaN_of_lt h
  abs h := (Binary64.isNaN_abs _).symm.trans h
  sub h := Binary64.isNaN_of_sub h
  floor h := Binary64.isNaN_floor h
  ceil h := Binary64.isNaN_ceil h
  larger ha hb := isNaN_choice ha hb _ _ _
  smaller ha hb := isNaN_choice ha hb _ _ _

end MixedInteger
