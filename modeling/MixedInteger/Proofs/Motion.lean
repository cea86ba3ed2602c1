import Mathlib.Algebra.Order.Field.Basic
import Mathlib.Tactic.NormNum
import MixedInteger.Proofs.SimplexRun

/-!
# Values that move in their ranges

A step of the simplex method moves every variable at some speed until one of them comes to the end
of its range. This module is about one such value: where it stops, when, and what its movement does
to its distance from the range.

* `stop?`, `travelTime`: the end that stops a value, and how long it takes to get there;
* `IsStuck`: the value is stopped at once;
* `sameSide_of_le`: until it is stopped, a value does not cross the ends of its range;
* `shortfall_sameSide`: meanwhile its distance from the range is linear.
-/

namespace MixedInteger

open Exact hiding isFinite isNaN
open Scalar (isFinite isNaN)

section Motion

variable {range : Exact × Exact} {x w θ : ℚ} {leave : Resting}

/-- The range is not empty and does not lie at infinity. -/
structure IsInterval (range : Exact × Exact) : Prop where
  proper : IsProper range
  ordered : range.1 ≤ range.2

theorem IsProper.lower_cases (h : IsProper range) : range.1 = .negInf ∨ ∃ l, range.1 = .fin l := by
  by_cases hfin : isFinite range.1 = true
  · exact .inr (isFinite_iff.mp hfin)
  · exact .inl (eq_negInf_of_lt h.1 hfin)

theorem IsProper.upper_cases (h : IsProper range) : range.2 = .posInf ∨ ∃ u, range.2 = .fin u := by
  by_cases hfin : isFinite range.2 = true
  · exact .inr (isFinite_iff.mp hfin)
  · exact .inl (eq_posInf_of_lt h.2 hfin)

/-- Where a value that moves at the given speed comes to rest: at the end of its range that it moves
towards, or at the near end if it comes back from outside. Nothing stops it on the way out. -/
def stop? (range : Exact × Exact) (x w : ℚ) : Option Resting :=
  if w = 0 then none
  else if .fin x < range.1 then if 0 < w then some .atLower else none
  else if range.2 < .fin x then if w < 0 then some .atUpper else none
  else if 0 < w then if isFinite range.2 then some .atUpper else none
  else if isFinite range.1 then some .atLower else none

/-- How long it takes to come to rest. -/
def travelTime (range : Exact × Exact) (x w : ℚ) (leave : Resting) : ℚ :=
  ((leave.value range.1 range.2).toRat - x) / w

/-- The value is pressed against the end of its range that it moves towards. -/
def IsStuck (range : Exact × Exact) (x w : ℚ) : Prop :=
  (0 < w ∧ range.2 = .fin x) ∨ (w < 0 ∧ range.1 = .fin x)

/-- `x'` is on the side of the range on which `x` is, the ends included. -/
structure SameSide (range : Exact × Exact) (x x' : ℚ) : Prop where
  below : .fin x < range.1 → .fin x' ≤ range.1
  above : range.2 < .fin x → range.2 ≤ .fin x'
  inside : range.1 ≤ .fin x → .fin x ≤ range.2 → range.1 ≤ .fin x' ∧ .fin x' ≤ range.2

theorem stop?_cases (h : IsProper range) (hstop : stop? range x w = some leave) :
    (0 < w ∧ leave = .atLower ∧ ∃ l, range.1 = .fin l ∧ x < l) ∨
    (w < 0 ∧ leave = .atUpper ∧ ∃ u, range.2 = .fin u ∧ u < x) ∨
    (0 < w ∧ leave = .atUpper ∧ ∃ u, range.2 = .fin u ∧ x ≤ u) ∨
    (w < 0 ∧ leave = .atLower ∧ ∃ l, range.1 = .fin l ∧ l ≤ x) := by
  unfold stop? at hstop
  split at hstop
  · cases hstop
  · rename_i hw
    split at hstop
    · rename_i hbelow
      split at hstop
      · cases hstop
        rcases h.lower_cases with hl | ⟨l, hl⟩
        · rw [hl] at hbelow
          exact absurd hbelow (not_fin_lt_negInf x)
        · rw [hl, fin_lt] at hbelow
          exact .inl ⟨‹_›, rfl, l, hl, hbelow⟩
      · cases hstop
    · rename_i hbelow
      split at hstop
      · rename_i habove
        split at hstop
        · cases hstop
          rcases h.upper_cases with hu | ⟨u, hu⟩
          · rw [hu] at habove
            exact absurd habove (not_posInf_lt_fin x)
          · rw [hu, fin_lt] at habove
            exact .inr (.inl ⟨‹_›, rfl, u, hu, habove⟩)
        · cases hstop
      · rename_i habove
        split at hstop
        · split at hstop
          · cases hstop
            obtain ⟨u, hu⟩ := isFinite_iff.mp ‹_›
            rw [hu, fin_lt, not_lt] at habove
            exact .inr (.inr (.inl ⟨‹_›, rfl, u, hu, habove⟩))
          · cases hstop
        · rename_i hup
          split at hstop
          · cases hstop
            obtain ⟨l, hl⟩ := isFinite_iff.mp ‹_›
            rw [hl, fin_lt, not_lt] at hbelow
            exact .inr (.inr (.inr ⟨lt_of_le_of_ne (not_lt.mp hup) hw, rfl, l, hl, hbelow⟩))
          · cases hstop

/-- A value that is stopped gets there after a time that is not negative. -/
theorem travelTime_reaches (h : IsProper range) (hstop : stop? range x w = some leave) :
    0 ≤ travelTime range x w leave ∧
      leave.value range.1 range.2 = .fin (x + travelTime range x w leave * w) := by
  have arrive (e : ℚ) (hw : w ≠ 0) : x + (e - x) / w * w = e := by
    rw [div_mul_cancel₀ _ hw]
    ring
  unfold travelTime
  rcases stop?_cases h hstop with
    ⟨hw, rfl, e, he, hx⟩ | ⟨hw, rfl, e, he, hx⟩ | ⟨hw, rfl, e, he, hx⟩ | ⟨hw, rfl, e, he, hx⟩
  · rw [Resting.value, he, toRat_fin, arrive e hw.ne']
    exact ⟨div_nonneg (by linarith) hw.le, rfl⟩
  · rw [Resting.value, he, toRat_fin, arrive e hw.ne]
    exact ⟨div_nonneg_of_nonpos (by linarith) hw.le, rfl⟩
  · rw [Resting.value, he, toRat_fin, arrive e hw.ne']
    exact ⟨div_nonneg (by linarith) hw.le, rfl⟩
  · rw [Resting.value, he, toRat_fin, arrive e hw.ne]
    exact ⟨div_nonneg_of_nonpos (by linarith) hw.le, rfl⟩

/-- A value that is stopped at once is stuck. -/
theorem isStuck_of_travelTime (h : IsProper range) (hstop : stop? range x w = some leave)
    (hzero : travelTime range x w leave = 0) : IsStuck range x w := by
  have hvalue := (travelTime_reaches h hstop).2
  rw [hzero, zero_mul, add_zero] at hvalue
  rcases stop?_cases h hstop with
    ⟨hw, rfl, e, he, hx⟩ | ⟨hw, rfl, e, he, hx⟩ | ⟨hw, rfl, e, he, hx⟩ | ⟨hw, rfl, e, he, hx⟩
  · rw [Resting.value, he, Exact.fin.injEq] at hvalue
    exact absurd hvalue hx.ne'
  · rw [Resting.value, he, Exact.fin.injEq] at hvalue
    exact absurd hvalue hx.ne
  · exact .inl ⟨hw, hvalue⟩
  · exact .inr ⟨hw, hvalue⟩

/-- A value below its range that grows comes back to it. -/
theorem stop?_below (hbelow : .fin x < range.1) (hw : 0 < w) :
    stop? range x w = some .atLower := by
  rw [stop?, if_neg hw.ne', if_pos hbelow, if_pos hw]

/-- A value above its range that shrinks comes back to it. -/
theorem stop?_above (h : IsInterval range) (habove : range.2 < .fin x) (hw : w < 0) :
    stop? range x w = some .atUpper := by
  have hbelow : ¬ .fin x < range.1 := by
    intro hbelow
    exact not_lt_of_le (Exact.le_trans h.ordered (le_of_lt habove)) hbelow
  rw [stop?, if_neg hw.ne, if_neg hbelow, if_pos habove, if_pos hw]

/-- A value in its range that grows meets the upper end. -/
theorem stop?_up (hlow : range.1 ≤ .fin x) (hup : .fin x ≤ range.2) (hw : 0 < w)
    (hfin : isFinite range.2 = true) : stop? range x w = some .atUpper := by
  rw [stop?, if_neg hw.ne', if_neg (not_lt_of_le hlow), if_neg (not_lt_of_le hup), if_pos hw,
    if_pos hfin]

/-- A value in its range that shrinks meets the lower end. -/
theorem stop?_down (hlow : range.1 ≤ .fin x) (hup : .fin x ≤ range.2) (hw : w < 0)
    (hfin : isFinite range.1 = true) : stop? range x w = some .atLower := by
  rw [stop?, if_neg hw.ne, if_neg (not_lt_of_le hlow), if_neg (not_lt_of_le hup),
    if_neg (not_lt.mpr hw.le), if_pos hfin]

/-- A value that is stuck is stopped at once. -/
theorem IsStuck.stop? (h : IsInterval range) (hstuck : IsStuck range x w) :
    ∃ leave, stop? range x w = some leave ∧ travelTime range x w leave = 0 := by
  have hle := h.ordered
  rcases hstuck with ⟨hw, hu⟩ | ⟨hw, hl⟩
  · refine ⟨.atUpper, stop?_up ?_ ?_ hw (by rw [hu]; rfl),
      by simp [travelTime, Resting.value, hu]⟩
    · rwa [hu] at hle
    · rw [hu, fin_le]
  · refine ⟨.atLower, stop?_down ?_ ?_ hw (by rw [hl]; rfl),
      by simp [travelTime, Resting.value, hl]⟩
    · rw [hl, fin_le]
    · rwa [hl] at hle

/-- A value that moves no longer than until it is stopped stays on its side. -/
theorem sameSide_of_le (h : IsInterval range) (hθ : 0 ≤ θ)
    (hle : ∀ leave, stop? range x w = some leave → θ ≤ travelTime range x w leave) :
    SameSide range x (x + θ * w) := by
  have shrink (hw : w ≤ 0) : x + θ * w ≤ x := by
    have := mul_nonpos_of_nonneg_of_nonpos hθ hw
    linarith
  have grow (hw : 0 ≤ w) : x ≤ x + θ * w := by
    have := mul_nonneg hθ hw
    linarith
  have before {e : ℚ} (hw : 0 < w) (ht : θ ≤ (e - x) / w) : x + θ * w ≤ e := by
    have := (le_div_iff₀ hw).mp ht
    linarith
  have behind {e : ℚ} (hw : w < 0) (ht : θ ≤ (e - x) / w) : e ≤ x + θ * w := by
    have := (le_div_iff_of_neg hw).mp ht
    linarith
  constructor
  case below =>
    intro hbelow
    rcases h.proper.lower_cases with hl | ⟨l, hl⟩
    · rw [hl] at hbelow
      exact absurd hbelow (not_fin_lt_negInf x)
    · rw [hl, fin_le]
      rcases lt_or_ge 0 w with hw | hw
      · apply before hw
        simpa [travelTime, Resting.value, hl] using hle _ (stop?_below hbelow hw)
      · rw [hl, fin_lt] at hbelow
        exact (shrink hw).trans hbelow.le
  case above =>
    intro habove
    rcases h.proper.upper_cases with hu | ⟨u, hu⟩
    · rw [hu] at habove
      exact absurd habove (not_posInf_lt_fin x)
    · rw [hu, fin_le]
      rcases lt_or_ge w 0 with hw | hw
      · apply behind hw
        simpa [travelTime, Resting.value, hu] using hle _ (stop?_above h habove hw)
      · rw [hu, fin_lt] at habove
        exact habove.le.trans (grow hw)
  case inside =>
    intro hlow hup
    rcases lt_trichotomy w 0 with hw | rfl | hw
    · refine ⟨?_, Exact.le_trans (fin_le.mpr (shrink hw.le)) hup⟩
      rcases h.proper.lower_cases with hl | ⟨l, hl⟩
      · rw [hl]
        exact negInf_le_fin _
      · rw [hl, fin_le]
        apply behind hw
        simpa [travelTime, Resting.value, hl] using
          hle _ (stop?_down hlow hup hw (by rw [hl]; rfl))
    · simpa using ⟨hlow, hup⟩
    · refine ⟨Exact.le_trans hlow (fin_le.mpr (grow hw.le)), ?_⟩
      rcases h.proper.upper_cases with hu | ⟨u, hu⟩
      · rw [hu]
        exact fin_le_posInf _
      · rw [hu, fin_le]
        apply before hw
        simpa [travelTime, Resting.value, hu] using
          hle _ (stop?_up hlow hup hw (by rw [hu]; rfl))

/-! ## Distance from a range -/

/-- How far a value is outside its range. -/
def shortfall (range : Exact × Exact) (x : ℚ) : ℚ :=
  if .fin x < range.1 then range.1.toRat - x
  else if range.2 < .fin x then x - range.2.toRat
  else 0

/-- The direction back into the range, zero inside. -/
def pull (range : Exact × Exact) (x : ℚ) : ℚ :=
  if .fin x < range.1 then 1 else if range.2 < .fin x then -1 else 0

theorem pull_inside (hlow : range.1 ≤ .fin x) (hup : .fin x ≤ range.2) : pull range x = 0 := by
  rw [pull, if_neg (not_lt_of_le hlow), if_neg (not_lt_of_le hup)]

theorem inside_of_pull (h : IsProper range) (hpull : pull range x = 0) :
    range.1 ≤ .fin x ∧ .fin x ≤ range.2 := by
  unfold pull at hpull
  split at hpull
  · norm_num at hpull
  · rename_i hbelow
    split at hpull
    · norm_num at hpull
    · rename_i habove
      constructor
      · rcases h.lower_cases with hl | ⟨l, hl⟩
        · rw [hl]
          exact negInf_le_fin _
        · rw [hl, fin_lt, not_lt] at hbelow
          rwa [hl, fin_le]
      · rcases h.upper_cases with hu | ⟨u, hu⟩
        · rw [hu]
          exact fin_le_posInf _
        · rw [hu, fin_lt, not_lt] at habove
          rwa [hu, fin_le]

theorem shortfall_inside (hlow : range.1 ≤ .fin x) (hup : .fin x ≤ range.2) :
    shortfall range x = 0 := by
  rw [shortfall, if_neg (not_lt_of_le hlow), if_neg (not_lt_of_le hup)]

/-- The distance is the larger excess over the two ends, if one is positive. -/
theorem larger_eq_shortfall (h : IsInterval range) (x : ℚ) :
    Scalar.larger (Scalar.larger (range.1 - .fin x) (.fin x - range.2)) 0
      = .fin (shortfall range x) := by
  have positive (y : ℚ) : max y 0 = if 0 < y then y else 0 := by
    split
    · exact max_eq_left (le_of_lt ‹_›)
    · exact max_eq_right (not_lt.mp ‹_›)
  rcases h.proper.lower_cases with hl | ⟨l, hl⟩
  · rcases h.proper.upper_cases with hu | ⟨u, hu⟩
    · unfold shortfall
      rw [hl, hu]
      rfl
    · have hnegInf : Scalar.larger (Exact.negInf - .fin x) (.fin (x - u)) = .fin (x - u) := rfl
      simp [shortfall, hl, hu, hnegInf, positive]
  · rcases h.proper.upper_cases with hu | ⟨u, hu⟩
    · have hposInf : Scalar.larger (.fin (l - x)) (.fin x - Exact.posInf) = .fin (l - x) := rfl
      simp [shortfall, hl, hu, hposInf, positive]
    · have hle := h.ordered
      rw [hl, hu, fin_le] at hle
      simp only [shortfall, hl, hu, fin_lt, fin_sub, zero_eq, larger_fin, toRat_fin,
        Exact.fin.injEq]
      split
      · have hmax : max (l - x) (x - u) = l - x := max_eq_left (by linarith)
        rw [hmax]
        exact max_eq_left (by linarith)
      · split
        · have hmax : max (l - x) (x - u) = x - u := max_eq_right (by linarith)
          rw [hmax]
          exact max_eq_left (by linarith)
        · exact max_eq_right (max_le (by linarith) (by linarith))

/-- On one side of the range the distance is linear. -/
theorem shortfall_sameSide (h : IsInterval range) {x' : ℚ} (hside : SameSide range x x') :
    shortfall range x' = shortfall range x - pull range x * (x' - x) := by
  by_cases hbelow : .fin x < range.1
  · have hx' := hside.below hbelow
    rcases h.proper.lower_cases with hl | ⟨l, hl⟩
    · rw [hl] at hbelow
      exact absurd hbelow (not_fin_lt_negInf x)
    · rw [shortfall, shortfall, pull, if_pos hbelow, if_pos hbelow]
      rw [hl, fin_le] at hx'
      rcases hx'.lt_or_eq with hlt | rfl
      · rw [if_pos (by rwa [hl, fin_lt])]
        ring
      · rw [if_neg (by simp [hl]), if_neg (not_lt_of_le (hl ▸ h.ordered)), hl, toRat_fin]
        ring
  · by_cases habove : range.2 < .fin x
    · have hx' := hside.above habove
      rcases h.proper.upper_cases with hu | ⟨u, hu⟩
      · rw [hu] at habove
        exact absurd habove (not_posInf_lt_fin x)
      · have hnot : ¬ .fin x' < range.1 := not_lt_of_le (Exact.le_trans h.ordered hx')
        rw [shortfall, shortfall, pull, if_neg hbelow, if_neg hbelow, if_pos habove, if_pos habove,
          if_neg hnot]
        rw [hu, fin_le] at hx'
        rcases hx'.lt_or_eq with hlt | rfl
        · rw [if_pos (by rwa [hu, fin_lt])]
          ring
        · rw [if_neg (by simp [hu]), hu, toRat_fin]
          ring
    · have hpull : pull range x = 0 := by rw [pull, if_neg hbelow, if_neg habove]
      obtain ⟨hlow, hup⟩ := inside_of_pull h.proper hpull
      obtain ⟨hlow', hup'⟩ := hside.inside hlow hup
      rw [hpull, shortfall_inside hlow' hup', shortfall_inside hlow hup]
      ring

end Motion

end MixedInteger
