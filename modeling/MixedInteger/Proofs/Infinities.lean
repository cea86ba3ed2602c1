import MixedInteger.Proofs.Undefined

/-!
# Infinite values

Whatever the arithmetic, its numbers lie between two infinities, and it is clear which results are
infinite: a difference is finite only between finite numbers, and what is infinite stays so when a
tolerance is added.

* `Scalar.Extended`: these laws, with instances for exact arithmetic and for double precision;
* `ProperRange`: a range that does not lie at infinity;
* `Resting.Suits`: where a variable with a given range can rest;
* `Binary64.isFinite_of_between`: what lies between finite numbers is finite.
-/

namespace MixedInteger

open Scalar

/-- How the infinities compare, and where they come from. -/
class Scalar.Extended (α : Type) [Scalar α] : Prop where
  zero_lt_posInf : (0 : α) < posInf
  negInf_lt_one : negInf < (1 : α)
  negInf_lt_posInf : (negInf : α) < posInf
  lt_posInf : ∀ {a : α}, isNaN a = false → (a == posInf) = false → a < posInf
  negInf_lt : ∀ {a : α}, isNaN a = false → (a == negInf) = false → negInf < a
  lower_cases : ∀ {a : α}, a < posInf → isFinite a = true ∨ (a == negInf) = true
  upper_cases : ∀ {a : α}, negInf < a → isFinite a = true ∨ (a == posInf) = true
  of_span : ∀ {a b : α}, isFinite (a - b) = true → isFinite a = true ∧ isFinite b = true
  not_below : ∀ {a tol x : α}, (a == negInf) = true → ¬ x < a - tol
  not_above : ∀ {a tol x : α}, (a == posInf) = true → ¬ a + tol < x
  larger_cases : ∀ a b : α, larger a b = a ∨ larger a b = b
  smaller_cases : ∀ a b : α, smaller a b = a ∨ smaller a b = b

/-- One of two numbers, however it is chosen. -/
theorem choice_cases {α : Type} (a b : α) (p q r : Prop) [Decidable p] [Decidable q]
    [Decidable r] :
    (if p then b else if q then a else if r then a else b) = a ∨
      (if p then b else if q then a else if r then a else b) = b := by
  split
  · exact .inr rfl
  · split
    · exact .inl rfl
    · split
      · exact .inl rfl
      · exact .inr rfl

/-! ## Ranges -/

section Ranges

variable {α : Type} [Scalar α]

/-- The range does not lie at infinity. -/
def ProperRange (range : α × α) : Prop := range.1 < posInf ∧ negInf < range.2

instance (range : α × α) : Decidable (ProperRange range) := inferInstanceAs (Decidable (_ ∧ _))

/-- A variable with this range can rest there: at an end that is finite, at both if they are equal,
and elsewhere only if it has no finite end. -/
def Resting.Suits (lower upper : α) : Resting → Prop
  | .atLower => isFinite lower = true
  | .atUpper => isFinite upper = true
  | .fixed => (lower == upper) = true
  | .free => (lower == negInf) = true ∧ (upper == posInf) = true

variable [Extended α] {lower upper : α}

/-- Where a variable rests first suits its range. -/
theorem ProperRange.initial (h : ProperRange (lower, upper)) :
    (Resting.initial lower upper).Suits lower upper := by
  unfold Resting.initial
  split
  · assumption
  · split
    · assumption
    · rename_i hlower
      split
      · assumption
      · rename_i hupper
        exact ⟨(Extended.lower_cases h.1).resolve_left hlower,
          (Extended.upper_cases h.2).resolve_left hupper⟩

/-- Only a finite lower end can be left behind below. -/
theorem ProperRange.isFinite_of_below (h : ProperRange (lower, upper)) {tol x : α}
    (hbelow : x < lower - tol) : isFinite lower = true :=
  (Extended.lower_cases h.1).resolve_right fun hinf => Extended.not_below hinf hbelow

theorem ProperRange.isFinite_of_above (h : ProperRange (lower, upper)) {tol x : α}
    (habove : upper + tol < x) : isFinite upper = true :=
  (Extended.upper_cases h.2).resolve_right fun hinf => Extended.not_above hinf habove

/-- The range of a binary column is proper if the one that it is given is. -/
theorem ProperRange.clampRange (h : ProperRange (lower, upper)) (k : Kind) :
    ProperRange (Model.clampRange k lower upper) := by
  cases k with
  | continuous | integer => exact h
  | binary =>
    constructor
    · rcases Extended.larger_cases lower 0 with heq | heq
      · exact (congrArg (· < posInf) heq).mpr h.1
      · exact (congrArg (· < posInf) heq).mpr Extended.zero_lt_posInf
    · rcases Extended.smaller_cases upper 1 with heq | heq
      · exact (congrArg (negInf < ·) heq).mpr h.2
      · exact (congrArg (negInf < ·) heq).mpr Extended.negInf_lt_one

/-- A range that passes the check is proper. -/
theorem properRange_of_checkRange {line : Line} (h : checkRange line lower upper = .ok ()) :
    ProperRange (lower, upper) := by
  unfold checkRange at h
  split at h
  · cases h
  · rename_i hdefined
    split at h
    · cases h
    · rename_i hends
      simp only [Bool.or_eq_true, not_or, Bool.not_eq_true] at hdefined hends
      exact ⟨Extended.lt_posInf hdefined.1 hends.1.1, Extended.negInf_lt hdefined.2 hends.1.2⟩

end Ranges

/-! ## Exact arithmetic -/

instance : Extended Exact where
  zero_lt_posInf := rfl
  negInf_lt_one := rfl
  negInf_lt_posInf := rfl
  lt_posInf {a} hdefined hend := by
    cases a with
    | undefined => cases hdefined
    | posInf => cases hend
    | negInf | fin => rfl
  negInf_lt {a} hdefined hend := by
    cases a with
    | undefined => cases hdefined
    | negInf => cases hend
    | fin | posInf => rfl
  lower_cases {a} h := by
    cases a with
    | undefined | posInf => cases h
    | negInf => exact .inr rfl
    | fin => exact .inl rfl
  upper_cases {a} h := by
    cases a with
    | undefined | negInf => cases h
    | posInf => exact .inr rfl
    | fin => exact .inl rfl
  of_span {a b} h := by
    change isFinite (Exact.add a (Exact.neg b)) = true at h
    cases a <;> cases b <;> first | exact ⟨rfl, rfl⟩ | cases h
  not_below {a tol x} hinf h := by
    change Exact.lt x (Exact.add a (Exact.neg tol)) = true at h
    cases a with
    | negInf => cases x <;> cases tol <;> cases h
    | undefined | fin | posInf => cases hinf
  not_above {a tol x} hinf h := by
    change Exact.lt (Exact.add a tol) x = true at h
    cases a with
    | posInf => cases x <;> cases tol <;> cases h
    | undefined | negInf | fin => cases hinf
  larger_cases _ _ := choice_cases _ _ _ _ _
  smaller_cases _ _ := choice_cases _ _ _ _ _

/-! ## Double precision -/

namespace Binary64

open Float.Model UnpackedFloat

theorem unpack_posInf : (posInf : Float).toModel.unpack = .infinity .positive := rfl

theorem unpack_negInf : (negInf : Float).toModel.unpack = .infinity .negative := rfl

theorem lt_iff {x y : Float} : x < y ↔ x.toModel.unpack.lt y.toModel.unpack = true :=
  ⟨of_decide_eq_true, decide_eq_true⟩

theorem beq_iff {x y : Float} : (x == y) = true ↔ x.toModel.unpack.beq y.toModel.unpack = true :=
  Iff.rfl

/-- Packing keeps infinities, and makes no number finite. -/
theorem unpack_pack_infinity (sign : Sign) :
    (Float.Model.pack (.infinity sign)).unpack = .infinity sign := by
  cases sign <;> rfl

theorem isFinite_of_pack {f : UnpackedFloat} (h : (Float.Model.pack f).isFinite = true) :
    f.isFinite = true := by
  cases f with
  | infinity sign =>
    unfold Float.Model.isFinite at h
    rw [unpack_pack_infinity] at h
    cases h
  | notANumber => cases h
  | zero | finite => rfl

/-- A number that is neither undefined nor one of the infinities is finite and between them. -/
theorem infinite_cases (x : Float) :
    (x.isNaN = true ∧ ¬ x < posInf ∧ ¬ negInf < x) ∨
    ((x == posInf) = true ∧ ¬ x < posInf ∧ negInf < x) ∨
    ((x == negInf) = true ∧ x < posInf ∧ ¬ negInf < x) ∨
    (x.isFinite = true ∧ x < posInf ∧ negInf < x) := by
  simp only [lt_iff, beq_iff, unpack_posInf, unpack_negInf]
  unfold Float.isNaN Float.Model.isNaN Float.isFinite Float.Model.isFinite
  cases x.toModel.unpack with
  | notANumber => exact .inl ⟨rfl, nofun, nofun⟩
  | infinity sign =>
    cases sign with
    | positive => exact .inr (.inl ⟨rfl, nofun, rfl⟩)
    | negative => exact .inr (.inr (.inl ⟨rfl, rfl, nofun⟩))
  | zero sign => exact .inr (.inr (.inr ⟨rfl, rfl, rfl⟩))
  | finite sign m e hm => exact .inr (.inr (.inr ⟨rfl, by cases sign <;> rfl, rfl⟩))

theorem beq_posInf {x : Float} (h : (x == posInf) = true) :
    x.toModel.unpack = .infinity .positive := by
  rw [beq_iff, unpack_posInf] at h
  cases hx : x.toModel.unpack with
  | notANumber => rw [hx] at h; cases h
  | infinity sign =>
    rw [hx] at h
    cases sign with
    | positive => rfl
    | negative => cases h
  | zero sign => rw [hx] at h; cases h
  | finite sign m e hm => rw [hx] at h; cases sign <;> cases h

theorem beq_negInf {x : Float} (h : (x == negInf) = true) :
    x.toModel.unpack = .infinity .negative := by
  rw [beq_iff, unpack_negInf] at h
  cases hx : x.toModel.unpack with
  | notANumber => rw [hx] at h; cases h
  | infinity sign =>
    rw [hx] at h
    cases sign with
    | positive => cases h
    | negative => rfl
  | zero sign => rw [hx] at h; cases h
  | finite sign m e hm => rw [hx] at h; cases sign <;> cases h

/-- No number lies below negative infinity, above positive infinity, or on a side of what is
undefined. -/
theorem not_lt_pack (x : Float) :
    ¬ x.toModel.unpack.lt (Float.Model.pack (.infinity .negative)).unpack = true ∧
    ¬ (Float.Model.pack (.infinity .positive)).unpack.lt x.toModel.unpack = true ∧
    ¬ x.toModel.unpack.lt (Float.Model.pack .notANumber).unpack = true ∧
    ¬ (Float.Model.pack .notANumber).unpack.lt x.toModel.unpack = true := by
  have hundefined : (Float.Model.pack .notANumber).unpack = .notANumber := rfl
  simp only [unpack_pack_infinity, hundefined]
  cases x.toModel.unpack with
  | notANumber => exact ⟨nofun, nofun, nofun, nofun⟩
  | infinity sign => cases sign <;> exact ⟨nofun, nofun, nofun, nofun⟩
  | zero sign => exact ⟨nofun, nofun, nofun, nofun⟩
  | finite sign m e hm => cases sign <;> exact ⟨nofun, nofun, nofun, nofun⟩

/-- What is infinite stays so under subtraction, or becomes undefined. -/
theorem sub_infinity (sign : Sign) (y : UnpackedFloat) :
    UnpackedFloat.sub .binary64 (.infinity sign) y = .infinity sign ∨
      UnpackedFloat.sub .binary64 (.infinity sign) y = .notANumber := by
  cases y with
  | notANumber => exact .inr rfl
  | infinity other => cases sign <;> cases other <;> first | exact .inl rfl | exact .inr rfl
  | zero | finite => exact .inl rfl

theorem add_infinity (sign : Sign) (y : UnpackedFloat) :
    UnpackedFloat.add .binary64 (.infinity sign) y = .infinity sign ∨
      UnpackedFloat.add .binary64 (.infinity sign) y = .notANumber := by
  cases y with
  | notANumber => exact .inr rfl
  | infinity other => cases sign <;> cases other <;> first | exact .inl rfl | exact .inr rfl
  | zero | finite => exact .inl rfl

theorem not_lt_sub {x y tol : Float} (hy : y.toModel.unpack = .infinity .negative) :
    ¬ x < y - tol := by
  obtain ⟨hinf, -, hundefined, -⟩ := not_lt_pack x
  rw [lt_iff]
  change ¬ x.toModel.unpack.lt (Float.Model.pack
    (UnpackedFloat.sub .binary64 y.toModel.unpack tol.toModel.unpack)).unpack = true
  rw [hy]
  rcases sub_infinity .negative tol.toModel.unpack with heq | heq
  · rw [heq]
    exact hinf
  · rw [heq]
    exact hundefined

theorem not_add_lt {x y tol : Float} (hy : y.toModel.unpack = .infinity .positive) :
    ¬ y + tol < x := by
  obtain ⟨-, hinf, -, hundefined⟩ := not_lt_pack x
  rw [lt_iff]
  change ¬ (Float.Model.pack (UnpackedFloat.add .binary64 y.toModel.unpack
    tol.toModel.unpack)).unpack.lt x.toModel.unpack = true
  rw [hy]
  rcases add_infinity .positive tol.toModel.unpack with heq | heq
  · rw [heq]
    exact hinf
  · rw [heq]
    exact hundefined

/-- A difference is finite only between finite numbers. -/
theorem isFinite_of_sub {x y : Float} (h : (x - y).isFinite = true) :
    x.isFinite = true ∧ y.isFinite = true := by
  have hsub : (UnpackedFloat.sub .binary64 x.toModel.unpack y.toModel.unpack).isFinite = true :=
    isFinite_of_pack h
  unfold Float.isFinite Float.Model.isFinite
  cases hx : x.toModel.unpack with
  | notANumber =>
    rw [hx] at hsub
    cases hsub
  | infinity sign =>
    rw [hx] at hsub
    rcases sub_infinity sign y.toModel.unpack with heq | heq
    · rw [heq] at hsub
      cases hsub
    · rw [heq] at hsub
      cases hsub
  | zero | finite =>
    cases hy : y.toModel.unpack with
    | notANumber | infinity =>
      rw [hx, hy] at hsub
      cases hsub
    | zero | finite => exact ⟨rfl, rfl⟩

theorem le_of_lt {x y : Float} (h : x < y) : x ≤ y := by
  have hcompare : x.toModel.unpack.compare y.toModel.unpack = some .lt :=
    eq_of_beq (lt_iff.1 h)
  refine decide_eq_true (?_ : (x.toModel.unpack.compare y.toModel.unpack).any _ = true)
  rw [hcompare]
  rfl

/-- What lies between zero and a finite number is finite. -/
theorem isFinite_of_between {x y : Float} (hlow : 0 ≤ x) (hhigh : x ≤ y)
    (hy : y.isFinite = true) : x.isFinite = true := by
  have hlow : (0 : Float).toModel.unpack.le x.toModel.unpack = true := of_decide_eq_true hlow
  have hhigh : x.toModel.unpack.le y.toModel.unpack = true := of_decide_eq_true hhigh
  have hzero : (0 : Float).toModel.unpack = .zero .positive := rfl
  unfold Float.isFinite Float.Model.isFinite at hy ⊢
  rw [hzero] at hlow
  cases hx : x.toModel.unpack with
  | zero | finite => rfl
  | notANumber =>
    rw [hx] at hlow
    cases hlow
  | infinity sign =>
    rw [hx] at hlow hhigh
    cases sign with
    | negative => cases hlow
    | positive =>
      cases hyy : y.toModel.unpack with
      | notANumber | infinity =>
        rw [hyy] at hy
        cases hy
      | zero sign =>
        rw [hyy] at hhigh
        cases hhigh
      | finite sign m e hm =>
        rw [hyy] at hhigh
        cases sign <;> cases hhigh

end Binary64

instance : Extended Float where
  zero_lt_posInf := by decide
  negInf_lt_one := by decide
  negInf_lt_posInf := by decide
  lt_posInf {a} hdefined hend := by
    rcases Binary64.infinite_cases a with ⟨hnan, -⟩ | ⟨heq, -⟩ | ⟨-, hlt, -⟩ | ⟨-, hlt, -⟩
    · cases hnan.symm.trans hdefined
    · cases heq.symm.trans hend
    · exact hlt
    · exact hlt
  negInf_lt {a} hdefined hend := by
    rcases Binary64.infinite_cases a with ⟨hnan, -⟩ | ⟨-, -, hlt⟩ | ⟨heq, -⟩ | ⟨-, -, hlt⟩
    · cases hnan.symm.trans hdefined
    · exact hlt
    · cases heq.symm.trans hend
    · exact hlt
  lower_cases {a} h := by
    rcases Binary64.infinite_cases a with ⟨-, hnot, -⟩ | ⟨-, hnot, -⟩ | ⟨heq, -⟩ | ⟨hfin, -⟩
    · exact absurd h hnot
    · exact absurd h hnot
    · exact .inr heq
    · exact .inl hfin
  upper_cases {a} h := by
    rcases Binary64.infinite_cases a with ⟨-, -, hnot⟩ | ⟨heq, -⟩ | ⟨-, -, hnot⟩ | ⟨hfin, -⟩
    · exact absurd h hnot
    · exact .inr heq
    · exact absurd h hnot
    · exact .inl hfin
  of_span h := Binary64.isFinite_of_sub h
  not_below hinf := Binary64.not_lt_sub (Binary64.beq_negInf hinf)
  not_above hinf := Binary64.not_add_lt (Binary64.beq_posInf hinf)
  larger_cases _ _ := choice_cases _ _ _ _ _
  smaller_cases _ _ := choice_cases _ _ _ _ _

end MixedInteger
