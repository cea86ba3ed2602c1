import Mathlib.Algebra.BigOperators.Group.List.Basic
import Mathlib.Algebra.Order.BigOperators.Group.List
import Mathlib.Algebra.Order.Floor.Ring
import Mathlib.Data.List.Induction
import Mathlib.Data.Rat.Floor
import Mathlib.Tactic.Linarith
import MixedInteger.Scalar.Exact

/-!
# Calculating with exact scalars

Finite exact scalars are rational numbers and calculate as these do. The lemmas here carry a
calculation over, one operation at a time, and say what is left of the order once the infinities
and the undefined value take part.

* `toRat`: the rational number that a finite scalar is;
* `IsInteger`: the value is an integer;
* `sum_fin`, `foldl_fin`: a sum of finite scalars is the sum of their numbers;
* `le_trans`, `le_antisymm`: comparisons chain, whatever is compared.
-/

namespace MixedInteger.Exact

/-- The rational number that a finite scalar is, zero for the others. -/
def toRat : Exact → ℚ
  | .fin q => q
  | _ => 0

/-- The scalar is an integer. -/
def IsInteger (x : Exact) : Prop := ∃ z : ℤ, x = .fin z

@[simp] theorem toRat_fin (q : ℚ) : (Exact.fin q).toRat = q := rfl

@[simp] theorem isFinite_fin (q : ℚ) : Scalar.isFinite (Exact.fin q) = true := rfl

theorem isFinite_iff {x : Exact} : Scalar.isFinite x = true ↔ ∃ q, x = .fin q := by
  cases x <;> simp [Scalar.isFinite, Exact.isFinite]

theorem eq_fin {x : Exact} (h : Scalar.isFinite x = true) : x = .fin x.toRat := by
  obtain ⟨q, rfl⟩ := isFinite_iff.mp h
  rfl

@[simp] theorem isInteger_fin {q : ℚ} : (Exact.fin q).IsInteger ↔ ∃ z : ℤ, q = z := by
  simp [IsInteger]

/-! ## Operations on finite scalars -/

@[simp] theorem zero_eq : (0 : Exact) = .fin 0 := rfl

@[simp] theorem one_eq : (1 : Exact) = .fin 1 := rfl

@[simp] theorem fin_add (p q : ℚ) : Exact.fin p + .fin q = .fin (p + q) := rfl

@[simp] theorem fin_mul (p q : ℚ) : Exact.fin p * .fin q = .fin (p * q) := rfl

@[simp] theorem neg_fin (q : ℚ) : -Exact.fin q = .fin (-q) := rfl

@[simp] theorem fin_sub (p q : ℚ) : Exact.fin p - .fin q = .fin (p - q) := by
  change Exact.fin (p + -q) = _
  rw [sub_eq_add_neg]

theorem fin_div {q : ℚ} (p : ℚ) (h : q ≠ 0) : Exact.fin p / .fin q = .fin (p / q) := by
  change Exact.div (.fin p) (.fin q) = _
  simp [Exact.div, h]

@[simp] theorem abs_fin (q : ℚ) : Scalar.abs (Exact.fin q) = .fin |q| := by
  change Exact.fin (if q < 0 then -q else q) = _
  split
  · rw [abs_of_neg ‹_›]
  · rw [abs_of_nonneg (not_lt.mp ‹_›)]

@[simp] theorem floor_fin (q : ℚ) : Scalar.floor (Exact.fin q) = .fin ⌊q⌋ := rfl

@[simp] theorem ceil_fin (q : ℚ) : Scalar.ceil (Exact.fin q) = .fin ⌈q⌉ := by
  change Exact.fin (q.ceil : ℚ) = _
  rw [Rat.ceil_eq_neg_floor_neg]
  congr 1

@[simp] theorem fin_le {p q : ℚ} : Exact.fin p ≤ .fin q ↔ p ≤ q := by
  change (decide (p < q) || decide (p = q)) = true ↔ _
  simp [le_iff_lt_or_eq]

@[simp] theorem fin_lt {p q : ℚ} : Exact.fin p < .fin q ↔ p < q := by
  change decide (p < q) = true ↔ _
  simp

@[simp] theorem fin_beq {p q : ℚ} : (Exact.fin p == .fin q) = decide (p = q) := rfl

/-- A scalar that compares equal to a finite one is that one. -/
theorem beq_fin_iff {x : Exact} {q : ℚ} : (x == .fin q) = true ↔ x = .fin q := by
  change Exact.eq x (.fin q) = true ↔ _
  cases x <;> simp [Exact.eq]

@[simp] theorem larger_fin (p q : ℚ) : Scalar.larger (Exact.fin p) (.fin q) = .fin (max p q) := by
  change (if decide (q < p) = true then Exact.fin p else .fin q) = _
  rcases lt_or_ge q p with h | h
  · simp [h, max_eq_left h.le]
  · simp [not_lt.mpr h, max_eq_right h]

@[simp] theorem smaller_fin (p q : ℚ) :
    Scalar.smaller (Exact.fin p) (.fin q) = .fin (min p q) := by
  change (if decide (p < q) = true then Exact.fin p else .fin q) = _
  rcases lt_or_ge p q with h | h
  · simp [h, min_eq_left h.le]
  · simp [not_lt.mpr h, min_eq_right h]

/-- A sum of finite scalars is the sum of their numbers. -/
theorem sum_fin {β : Type} (xs : List β) (f : β → ℚ) :
    Scalar.sum (xs.map fun b => Exact.fin (f b)) = .fin (xs.map f).sum := by
  induction xs using List.reverseRecOn with
  | nil => rfl
  | append_singleton xs b ih =>
    rw [List.map_append, List.map_singleton, Scalar.sum_concat, ih]
    simp

/-- Values that are finite one by one have a finite sum. -/
theorem sum_eq {β : Type} {xs : List β} {g : β → Exact} {f : β → ℚ}
    (h : ∀ b ∈ xs, g b = .fin (f b)) : Scalar.sum (xs.map g) = .fin (xs.map f).sum := by
  rw [List.map_congr_left h, sum_fin]

/-- A fold that adds a rational number for each element ends with their sum. -/
theorem foldl_fin {β : Type} {xs : List β} {step : Exact → β → Exact} {f : β → ℚ}
    (h : ∀ b ∈ xs, ∀ q : ℚ, step (.fin q) b = .fin (q + f b)) (q : ℚ) :
    xs.foldl step (.fin q) = .fin (q + (xs.map f).sum) := by
  induction xs generalizing q with
  | nil => simp
  | cons b rest ih =>
    obtain ⟨hb, hrest⟩ := List.forall_mem_cons.mp h
    rw [List.foldl_cons, hb q, ih hrest, List.map_cons, List.sum_cons, add_assoc]

/-! ## Order -/

theorem le_trans {x y z : Exact} (hxy : x ≤ y) (hyz : y ≤ z) : x ≤ z := by
  change (Exact.lt x y || Exact.eq x y) = true at hxy
  change (Exact.lt y z || Exact.eq y z) = true at hyz
  change (Exact.lt x z || Exact.eq x z) = true
  cases x <;> cases y <;> cases z <;> simp_all [Exact.lt, Exact.eq]
  grind

theorem le_antisymm {x y : Exact} (hxy : x ≤ y) (hyx : y ≤ x) : x = y := by
  change (Exact.lt x y || Exact.eq x y) = true at hxy
  change (Exact.lt y x || Exact.eq y x) = true at hyx
  cases x <;> cases y <;> simp_all [Exact.lt, Exact.eq]
  grind

theorem le_of_lt {x y : Exact} (h : x < y) : x ≤ y := by
  change Exact.lt x y = true at h
  change (Exact.lt x y || Exact.eq x y) = true
  rw [h]
  rfl

theorem le_refl {x : Exact} (h : Scalar.isNaN x = false) : x ≤ x := by
  change (Exact.lt x x || Exact.eq x x) = true
  cases x <;> simp_all [Exact.lt, Exact.eq, Scalar.isNaN, Exact.isNaN]

theorem not_lt_of_le {x y : Exact} (h : x ≤ y) : ¬ y < x := by
  change (Exact.lt x y || Exact.eq x y) = true at h
  change ¬ Exact.lt y x = true
  cases x <;> cases y <;> simp_all [Exact.lt, Exact.eq]
  grind

/-- Only scalars that are defined compare. -/
theorem isNaN_of_le {x y : Exact} (h : x ≤ y) :
    Scalar.isNaN x = false ∧ Scalar.isNaN y = false := by
  change (Exact.lt x y || Exact.eq x y) = true at h
  cases x <;> cases y <;> simp_all [Exact.lt, Exact.eq, Scalar.isNaN, Exact.isNaN]

/-- Scalars that are defined compare one way or the other. -/
theorem le_or_lt {x y : Exact} (hx : Scalar.isNaN x = false) (hy : Scalar.isNaN y = false) :
    x ≤ y ∨ y < x := by
  change (Exact.lt x y || Exact.eq x y) = true ∨ Exact.lt y x = true
  cases x <;> cases y <;> simp_all [Exact.lt, Exact.eq, Scalar.isNaN, Exact.isNaN]
  grind

theorem le_larger_left {x y : Exact} (h : x ≤ y) (z : Exact) : x ≤ Scalar.larger y z := by
  have hy := (isNaN_of_le h).2
  change x ≤ if Scalar.isNaN y then z else if Scalar.isNaN z then y else if z < y then y else z
  rw [hy]
  split
  · contradiction
  · split
    · exact h
    · rename_i hz
      split
      · exact h
      · rename_i hzy
        exact le_trans h ((le_or_lt hy (by simpa using hz)).resolve_right hzy)

theorem le_larger_right {x z : Exact} (h : x ≤ z) (y : Exact) : x ≤ Scalar.larger y z := by
  have hz := (isNaN_of_le h).2
  change x ≤ if Scalar.isNaN y then z else if Scalar.isNaN z then y else if z < y then y else z
  split
  · exact h
  · rw [hz]
    split
    · contradiction
    · split
      · rename_i hzy
        exact le_trans h (le_of_lt hzy)
      · exact h

theorem le_foldl_larger_of_le {x acc : Exact} (l : List Exact) (h : x ≤ acc) :
    x ≤ l.foldl Scalar.larger acc := by
  induction l generalizing acc with
  | nil => exact h
  | cons b rest ih => exact ih (le_larger_left h b)

/-- The largest of several scalars is at least each of them. -/
theorem le_foldl_larger {x b : Exact} {l : List Exact} (acc : Exact) (hb : b ∈ l) (h : x ≤ b) :
    x ≤ l.foldl Scalar.larger acc := by
  induction l generalizing acc with
  | nil => cases hb
  | cons c rest ih =>
    rcases List.mem_cons.mp hb with rfl | hb
    · exact le_foldl_larger_of_le rest (le_larger_right h acc)
    · exact ih _ hb

theorem larger_eq_left {x : Exact} {q : ℚ} (h : .fin q ≤ x) : Scalar.larger x (.fin q) = x := by
  cases x with
  | undefined => cases h
  | negInf => cases h
  | fin p => simpa using h
  | posInf => rfl

theorem smaller_eq_left {x : Exact} {q : ℚ} (h : x ≤ .fin q) : Scalar.smaller x (.fin q) = x := by
  cases x with
  | undefined => cases h
  | negInf => rfl
  | fin p => simpa using h
  | posInf => cases h

/-- What a finite scalar does not exceed is below it, unless it is undefined. -/
theorem le_of_not_lt {x : Exact} {q : ℚ} (hx : Scalar.isNaN x = false) (h : ¬ x < .fin q) :
    .fin q ≤ x := by
  change ¬ Exact.lt x (.fin q) = true at h
  change (Exact.lt (.fin q) x || Exact.eq (.fin q) x) = true
  cases x <;> simp_all [Exact.lt, Exact.eq, Scalar.isNaN, Exact.isNaN]
  exact lt_or_eq_of_le h

@[simp] theorem negInf_lt_fin (q : ℚ) : Exact.negInf < .fin q := rfl

@[simp] theorem negInf_le_fin (q : ℚ) : Exact.negInf ≤ .fin q := rfl

@[simp] theorem fin_le_posInf (q : ℚ) : Exact.fin q ≤ .posInf := rfl

@[simp] theorem not_fin_le_negInf (q : ℚ) : ¬ Exact.fin q ≤ .negInf := by
  change ¬ false = true
  simp

@[simp] theorem not_posInf_le_fin (q : ℚ) : ¬ Exact.posInf ≤ .fin q := by
  change ¬ false = true
  simp

@[simp] theorem not_fin_lt_negInf (q : ℚ) : ¬ Exact.fin q < .negInf := by
  change ¬ false = true
  simp

@[simp] theorem not_posInf_lt_fin (q : ℚ) : ¬ Exact.posInf < .fin q := by
  change ¬ false = true
  simp

/-- Subtracting nothing changes no scalar, also no infinite one. -/
@[simp] theorem sub_fin_zero (x : Exact) : x - .fin 0 = x := by
  change Exact.add x (.fin (-0)) = x
  cases x <;> simp [Exact.add]

@[simp] theorem add_fin_zero (x : Exact) : x + .fin 0 = x := by
  change Exact.add x (.fin 0) = x
  cases x <;> simp [Exact.add]

theorem posInf_mul_fin {q : ℚ} (h : 0 < q) : Exact.posInf * .fin q = .posInf := by
  change infinity (1 * q) = _
  simp [infinity, h]

/-! ## Integers -/

/-- An integer is its own nearest integer. -/
theorem roundHalf_intCast (z : ℤ) : roundHalf z = z := by
  have half (n : ℤ) : ⌊(n : ℚ) + 1 / 2⌋ = n := by
    rw [Int.floor_eq_iff]
    constructor <;> linarith
  unfold roundHalf
  split
  · have h := half (-z)
    push_cast at h
    change -((⌊-(z : ℚ) + 1 / 2⌋ : ℤ) : ℚ) = z
    rw [h]
    push_cast
    ring
  · change ((⌊(z : ℚ) + 1 / 2⌋ : ℤ) : ℚ) = z
    rw [half]

/-- Only integers are their own nearest integer. -/
theorem roundHalf_eq_self_iff {q : ℚ} : roundHalf q = q ↔ ∃ z : ℤ, q = z := by
  constructor
  · intro h
    unfold roundHalf at h
    split at h
    · exact ⟨-(-q + 1 / 2).floor, by push_cast; exact h.symm⟩
    · exact ⟨(q + 1 / 2).floor, h.symm⟩
  · rintro ⟨z, rfl⟩
    exact roundHalf_intCast z

@[simp] theorem round_fin (q : ℚ) : Scalar.round (Exact.fin q) = .fin (roundHalf q) := rfl

/-- Between the floor and the ceiling of a number there is no integer. -/
theorem le_floor_or_ceil_le (z : ℤ) (q : ℚ) : (z : ℚ) ≤ ⌊q⌋ ∨ (⌈q⌉ : ℚ) ≤ z := by
  rcases le_or_gt (z : ℚ) q with h | h
  · exact .inl (by exact_mod_cast Int.le_floor.mpr h)
  · exact .inr (by exact_mod_cast Int.ceil_le.mpr h.le)

end MixedInteger.Exact
