import Mathlib.Tactic.FieldSimp
import Mathlib.Tactic.Positivity
import MixedInteger.Cut.Gomory
import MixedInteger.Proofs.Exact

/-!
# Mixed-integer rounding

The inequality behind a cut, over the rational numbers. A basic value with fractional part `f₀`
becomes integral only if the resting variables move it down by `f₀` or up by `1 - f₀`, up to an
integer; `drift` is what such a movement counts, and it is subadditive, so the movements can be
rounded one variable at a time.

* `drift`: what a movement counts towards the cut;
* `le_drift`: a movement to an integer counts at least `f₀`;
* `priced_weight`: the factors of the generator are what single distances count.
-/

namespace MixedInteger.Gomory

open Exact hiding isFinite isNaN

theorem fractionalPart_fin (q : ℚ) : fractionalPart (Exact.fin q) = .fin (Int.fract q) := by
  simp [fractionalPart, Int.self_sub_floor]

/-- The price of moving up, relative to that of moving down. -/
def ratio (f₀ : ℚ) : ℚ := f₀ / (1 - f₀)

/-- What a movement by `r` counts: its size downwards, its size times the ratio upwards. -/
def drift (f₀ r : ℚ) : ℚ := max r (-(ratio f₀ * r))

theorem ratio_nonneg {f₀ : ℚ} (h₀ : 0 ≤ f₀) (h₁ : f₀ < 1) : 0 ≤ ratio f₀ :=
  div_nonneg h₀ (by linarith)

theorem fin_ratio {f₀ : ℚ} (h₁ : f₀ < 1) : Exact.fin f₀ / .fin (1 - f₀) = .fin (ratio f₀) :=
  fin_div f₀ (by linarith)

theorem drift_of_nonneg {f₀ r : ℚ} (h₀ : 0 ≤ f₀) (h₁ : f₀ < 1) (hr : 0 ≤ r) : drift f₀ r = r := by
  have := mul_nonneg (ratio_nonneg h₀ h₁) hr
  exact max_eq_left (by linarith)

theorem drift_of_nonpos {f₀ r : ℚ} (h₀ : 0 ≤ f₀) (h₁ : f₀ < 1) (hr : r ≤ 0) :
    drift f₀ r = ratio f₀ * -r := by
  have := mul_nonneg (ratio_nonneg h₀ h₁) (neg_nonneg.mpr hr)
  rw [mul_neg] at *
  exact max_eq_right (by linarith)

/-- Two movements together count no more than one after the other. -/
theorem drift_add_le (f₀ r s : ℚ) : drift f₀ (r + s) ≤ drift f₀ r + drift f₀ s := by
  refine max_le ?_ ?_
  · exact add_le_add (le_max_left _ _) (le_max_left _ _)
  · have hr := le_max_right r (-(ratio f₀ * r))
    have hs := le_max_right s (-(ratio f₀ * s))
    rw [mul_add]
    unfold drift
    linarith

theorem drift_le_abs {f₀ : ℚ} (h₀ : 0 ≤ f₀) (h₁ : f₀ < 1) (r : ℚ) :
    drift f₀ r ≤ max 1 (ratio f₀) * |r| := by
  rcases le_total 0 r with hr | hr
  · rw [drift_of_nonneg h₀ h₁ hr, abs_of_nonneg hr]
    exact le_mul_of_one_le_left hr (le_max_left _ _)
  · rw [drift_of_nonpos h₀ h₁ hr, abs_of_nonpos hr]
    exact mul_le_mul_of_nonneg_right (le_max_right _ _) (neg_nonneg.mpr hr)

/-- A movement that takes a fractional part away counts at least that fractional part: it is `f₀`
or more downwards, or at least `1 - f₀` upwards. -/
theorem le_drift {f₀ r : ℚ} (h₀ : 0 ≤ f₀) (h₁ : f₀ < 1) {z : ℤ} (hz : f₀ - r = z) :
    f₀ ≤ drift f₀ r := by
  rcases le_or_gt z 0 with hz₀ | hz₀
  · have hz' : (z : ℚ) ≤ 0 := by exact_mod_cast hz₀
    exact le_max_of_le_left (by linarith)
  · have hz' : (1 : ℚ) ≤ z := by exact_mod_cast hz₀
    have hpos : 0 < 1 - f₀ := by linarith
    have hprice : ratio f₀ * (1 - f₀) = f₀ := div_mul_cancel₀ f₀ hpos.ne'
    have hup : ratio f₀ * (1 - f₀) ≤ ratio f₀ * -r :=
      mul_le_mul_of_nonneg_left (by linarith) (ratio_nonneg h₀ h₁)
    refine le_max_of_le_right ?_
    rw [mul_neg] at hup
    linarith

/-! ## Single distances -/

/-- A factor prices the distance `d` with coefficient `alpha` if, up to an integer, it says what the
movement `alpha d` counts; without a factor the movement is an integer up to the tolerance. -/
def Priced (f₀ z alpha d : ℚ) : Option Exact → Prop
  | some w => ∃ (phi : ℚ) (k : ℤ), w = .fin phi ∧ drift f₀ (alpha * d - k) = phi * d
  | none => ∃ k : ℤ, |alpha * d - k| ≤ z * d

/-- An integral distance may be rounded: the integral part of its coefficient, or the next integer,
moves the basic value by an integer and counts nothing. What is left counts the factor of the
generator, or it is within the tolerance. -/
theorem priced_integral {f₀ z : ℚ} (h₀ : 0 ≤ f₀) (h₁ : f₀ < 1) (alpha : ℚ) {d : ℤ} (hd : 0 ≤ d) :
    Priced f₀ z alpha d (integralWeight? (Exact.fin z) (.fin f₀) (.fin alpha)) := by
  have hd' : (0 : ℚ) ≤ d := by exact_mod_cast hd
  have hf₀ := Int.fract_nonneg alpha
  have hf₁ := Int.fract_lt_one alpha
  -- Rounding down leaves `f d`, rounding up leaves `-(1 - f) d`.
  have down : alpha * d - (⌊alpha⌋ * d : ℤ) = Int.fract alpha * d := by
    push_cast
    rw [← Int.self_sub_floor]
    ring
  have up : alpha * d - ((⌊alpha⌋ + 1) * d : ℤ) = -((1 - Int.fract alpha) * d) := by
    push_cast
    rw [← Int.self_sub_floor]
    ring
  have hup : 0 ≤ (1 - Int.fract alpha) * d := mul_nonneg (by linarith) hd'
  unfold integralWeight?
  simp only [fractionalPart_fin, one_eq, fin_sub, fin_lt, fin_le, gt_iff_lt]
  by_cases hsmall : Int.fract alpha < z ∨ 1 - z < Int.fract alpha
  · simp only [hsmall, ↓reduceIte]
    rcases hsmall with h | h
    · refine ⟨⌊alpha⌋ * d, ?_⟩
      rw [down, abs_of_nonneg (mul_nonneg hf₀ hd')]
      exact mul_le_mul_of_nonneg_right h.le hd'
    · refine ⟨(⌊alpha⌋ + 1) * d, ?_⟩
      rw [up, abs_neg, abs_of_nonneg hup]
      exact mul_le_mul_of_nonneg_right (by linarith) hd'
  · simp only [hsmall, ↓reduceIte]
    by_cases hle : Int.fract alpha ≤ f₀
    · simp only [hle, ↓reduceIte]
      refine ⟨Int.fract alpha, ⌊alpha⌋ * d, rfl, ?_⟩
      rw [down, drift_of_nonneg h₀ h₁ (mul_nonneg hf₀ hd')]
    · simp only [hle, ↓reduceIte]
      refine ⟨ratio f₀ * (1 - Int.fract alpha), (⌊alpha⌋ + 1) * d, ?_, ?_⟩
      · rw [fin_ratio h₁, fin_mul]
      · rw [up, drift_of_nonpos h₀ h₁ (by linarith)]
        ring

/-- The factor of a distance that need not be integral. -/
theorem priced_continuous {f₀ : ℚ} (h₀ : 0 ≤ f₀) (h₁ : f₀ < 1) (z alpha : ℚ) {d : ℚ}
    (hd : 0 ≤ d) :
    Priced f₀ z alpha d (some (continuousWeight (Exact.fin f₀) (.fin alpha))) := by
  unfold continuousWeight
  rcases le_or_gt 0 alpha with ha | ha
  · refine ⟨alpha, 0, by simp [ha], ?_⟩
    rw [Int.cast_zero, sub_zero]
    exact drift_of_nonneg h₀ h₁ (mul_nonneg ha hd)
  · refine ⟨ratio f₀ * -alpha, 0, by simp [not_le.mpr ha, fin_ratio h₁], ?_⟩
    rw [Int.cast_zero, sub_zero,
      drift_of_nonpos h₀ h₁ (mul_nonpos_of_nonpos_of_nonneg ha.le hd)]
    ring

/-- The factor of a distance `d` from the bound `b`. The distance of an integral variable from an
integral bound is integral. -/
theorem priced_weight {f₀ z : ℚ} (h₀ : 0 ≤ f₀) (h₁ : f₀ < 1) (kind : Kind) (alpha b : ℚ) {d : ℚ}
    (hd : 0 ≤ d) (hint : kind.isIntegral = true → (∃ k : ℤ, b = k) → ∃ k : ℤ, d = k) :
    Priced f₀ z alpha d (weight? (Exact.fin z) (.fin f₀) kind (.fin alpha) (.fin b)) := by
  unfold weight?
  split
  · rename_i hcase
    simp only [round_fin, fin_beq, Bool.and_eq_true, decide_eq_true_eq] at hcase
    obtain ⟨k, rfl⟩ := hint hcase.1 (roundHalf_eq_self_iff.mp hcase.2.symm)
    exact priced_integral h₀ h₁ alpha (by exact_mod_cast hd)
  · exact priced_continuous h₀ h₁ z alpha hd

end MixedInteger.Gomory
