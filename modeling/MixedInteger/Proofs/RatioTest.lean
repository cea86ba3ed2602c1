import MixedInteger.Proofs.BlockingRow
import MixedInteger.Proofs.Motion
import MixedInteger.Proofs.SimplexOptimality

/-!
# The ratio test

A resting variable that moves takes the basic variables with it, each at its own speed. Without
tolerances the ratio test finds the one that is stopped first and, of several, the one of smallest
index.

* `Tableau.velocity`: the speeds of all variables while one of them moves;
* `Tableau.along`: where they are after some time;
* `Tableau.candidate_eq`: a row is a candidate if its basic variable is stopped;
* `Tableau.ratioTest_cases`: the row found comes before every other candidate.
-/

namespace MixedInteger

open Exact hiding isFinite isNaN
open Scalar (isFinite isNaN)

/-- Nothing is tolerated and nothing is dropped. -/
structure SimplexSettings.IsStrict (s : SimplexSettings Exact) : Prop where
  tolFeas : s.tolFeas = 0
  tolPivot : s.tolPivot = 0
  tolCost : s.tolCost = 0
  dropTol : s.dropTol = 0

namespace Heading

/-- The direction as a factor. -/
def sign : Heading → ℚ
  | .up => 1
  | .down => -1

theorem orient_fin (dir : Heading) (q : ℚ) : dir.orient (Exact.fin q) = .fin (dir.sign * q) := by
  cases dir <;> simp [orient, sign]

theorem sign_ne_zero (dir : Heading) : dir.sign ≠ 0 := by
  cases dir <;> norm_num [sign]

end Heading

namespace Tableau

/-! ## Directions -/

section Velocity

variable {m n : Nat} {t : Tableau Exact m n} {q k : Fin (m + n)} {dir : Heading} {rest : Resting}

/-- How fast variable `k` moves while `q` moves at unit speed and the basic variables follow. -/
def velocity (t : Tableau Exact m n) (q : Fin (m + n)) (dir : Heading) (k : Fin (m + n)) : ℚ :=
  match t.place.get k with
  | .basic r => -(dir.sign * t.rat r q)
  | .nonbasic _ => if k = q then dir.sign else 0

theorem velocity_basic {r : Fin m} (hk : t.place.get k = .basic r) :
    t.velocity q dir k = -(dir.sign * t.rat r q) := by
  rw [velocity, hk]

theorem velocity_resting (hk : t.place.get k = .nonbasic rest) :
    t.velocity q dir k = if k = q then dir.sign else 0 := by
  rw [velocity, hk]

/-- Of the resting variables only `q` moves. -/
theorem restingSum_velocity (hq : t.place.get q = .nonbasic rest) (g : Fin (m + n) → ℚ) :
    (t.restingSum fun k => g k * t.velocity q dir k) = g q * dir.sign := by
  have hterm (k : Fin (m + n)) :
      (if (t.place.get k).isBasic then 0 else g k * t.velocity q dir k)
        = if k = q then g q * dir.sign else 0 := by
    by_cases hkq : k = q
    · subst hkq
      simp [hq, Place.isBasic, velocity_resting hq]
    · cases hk : t.place.get k with
      | basic r => simp [hkq, Place.isBasic]
      | nonbasic rest' => simp [hkq, velocity_resting hk]
  unfold restingSum
  rw [Finset.sum_congr rfl fun k _ => hterm k]
  simp

theorem solves_velocity (ht : t.Canonical) (hq : t.place.get q = .nonbasic rest) (dir : Heading) :
    t.Solves (t.velocity q dir) := by
  rw [solves_iff ht]
  intro r
  rw [restingSum_velocity hq, velocity_basic (ht.place_head r), mul_comm]

/-- How fast a cost grows in a direction. -/
theorem sum_velocity (ht : t.Canonical) (hq : t.place.get q = .nonbasic rest)
    (c : Fin (m + n) → ℚ) : ∑ k, c k * t.velocity q dir k = t.reduced c q * dir.sign := by
  rw [sum_cost ht (solves_velocity ht hq dir), restingSum_velocity hq]

theorem Solves.add_mul {z w : Fin (m + n) → ℚ} (hz : t.Solves z) (hw : t.Solves w) (θ : ℚ) :
    t.Solves fun k => z k + θ * w k := by
  intro r
  have hsum : ∑ k, t.rat r k * (z k + θ * w k)
      = ∑ k, t.rat r k * z k + θ * ∑ k, t.rat r k * w k := by
    rw [Finset.mul_sum, ← Finset.sum_add_distrib]
    exact Finset.sum_congr rfl fun k _ => by ring
  rw [hsum, hz r, hw r, mul_zero, add_zero]

/-- The point after `q` has moved for the time `θ`. -/
def along (t : Tableau Exact m n) (q : Fin (m + n)) (dir : Heading) (θ : ℚ) (k : Fin (m + n)) : ℚ :=
  t.point k + θ * t.velocity q dir k

/-- A cost grows in proportion to the time. -/
theorem sum_along (ht : t.Canonical) (hq : t.place.get q = .nonbasic rest)
    (c : Fin (m + n) → ℚ) (θ : ℚ) :
    ∑ k, c k * t.along q dir θ k
      = ∑ k, c k * t.point k + θ * (t.reduced c q * dir.sign) := by
  rw [← sum_velocity ht hq, Finset.mul_sum, ← Finset.sum_add_distrib]
  refine Finset.sum_congr rfl fun k _ => ?_
  unfold along
  ring

end Velocity

variable {model : Model Exact} {t : Tableau Exact model.numRows model.numCols}

theorem solves_along (ht : t.Sound) {q : Fin (model.numRows + model.numCols)} {rest : Resting}
    (hq : t.place.get q = .nonbasic rest) (dir : Heading) (θ : ℚ) :
    (slackBasis model).Solves (t.along q dir θ) :=
  (ht.solves _).mp ((solves_point ht.canonical ht.restsFinite).add_mul
    (solves_velocity ht.canonical hq dir) θ)

/-- A solution that agrees with the point of a tableau where variables rest is that point. -/
theorem eq_point (ht : t.Sound) {z : Fin (model.numRows + model.numCols) → ℚ}
    (hz : (slackBasis model).Solves z)
    (hrest : ∀ k rest, t.place.get k = .nonbasic rest → z k = t.point k) : z = t.point := by
  have hpoint := (solves_iff ht.canonical).mp (solves_point ht.canonical ht.restsFinite)
  have hz' := (solves_iff ht.canonical).mp ((ht.solves z).mpr hz)
  funext k
  cases hk : t.place.get k with
  | nonbasic rest => exact hrest k rest hk
  | basic r =>
    rw [← ht.canonical.head_place k r hk, hz' r, hpoint r]
    congr 1
    apply restingSum_congr
    intro j hj
    cases hplace : t.place.get j with
    | basic r' =>
      rw [hplace] at hj
      cases hj
    | nonbasic rest => rw [hrest j rest hplace]

/-! ## The ratio test -/

/-- No range of the model is empty or lies at infinity. -/
def HasIntervals (model : Model Exact) : Prop :=
  ∀ k : Fin (model.numRows + model.numCols), IsInterval (model.varRange k)

section Candidate

variable {s : SimplexSettings Exact} {q : Fin (model.numRows + model.numCols)} {dir : Heading}

theorem orient_rate (ht : t.Canonical) (r : Fin model.numRows) :
    dir.orient (t.rate r q) = .fin (t.velocity q dir (t.head.get r)) := by
  rw [rate, coef_eq ht, neg_fin, Heading.orient_fin, velocity_basic (ht.place_head r), mul_neg]

/-- A row is a candidate if its basic variable is stopped, with the time that takes as ratio. -/
theorem candidate_eq (hs : s.IsStrict) (hint : HasIntervals model) (ht : t.Sound)
    (q : Fin (model.numRows + model.numCols)) (dir : Heading) (r : Fin model.numRows) :
    t.candidate s t.values q dir r =
      (stop? (model.varRange (t.head.get r)) (t.point (t.head.get r))
        (t.velocity q dir (t.head.get r))).map fun leave =>
          ⟨r, .fin (travelTime (model.varRange (t.head.get r)) (t.point (t.head.get r))
            (t.velocity q dir (t.head.get r)) leave), leave⟩ := by
  have h := hint (t.head.get r)
  unfold candidate
  dsimp only
  rw [orient_rate ht.canonical, ht.values_eq, ht.lower, ht.upper, hs.tolFeas, hs.tolPivot]
  simp only [isBelow, isAbove, ht.values_eq, ht.lower, ht.upper, zero_eq, sub_fin_zero,
    add_fin_zero, abs_fin, fin_le, abs_nonpos_iff, gt_iff_lt, fin_lt, decide_eq_true_eq]
  generalize t.velocity q dir (t.head.get r) = w
  generalize t.point (t.head.get r) = x
  generalize model.varRange (t.head.get r) = range at h
  have turn (e : ℚ) : (x - e) / -w = (e - x) / w := by
    rw [div_neg, ← neg_div, neg_sub]
  unfold stop? travelTime
  by_cases hw : w = 0
  · rw [if_pos hw, if_pos hw]
    rfl
  rw [if_neg hw, if_neg hw]
  have hw' : -w ≠ 0 := neg_ne_zero.mpr hw
  by_cases hbelow : .fin x < range.1
  · rw [if_pos hbelow, if_pos hbelow]
    rcases h.proper.lower_cases with hl | ⟨l, hl⟩
    · rw [hl] at hbelow
      exact absurd hbelow (not_fin_lt_negInf x)
    · split
      · simp [hl, Resting.value, fin_div _ hw]
      · rfl
  rw [if_neg hbelow, if_neg hbelow]
  by_cases habove : range.2 < .fin x
  · rw [if_pos habove, if_pos habove]
    rcases h.proper.upper_cases with hu | ⟨u, hu⟩
    · rw [hu] at habove
      exact absurd habove (not_posInf_lt_fin x)
    · split
      · simp [hu, Resting.value, fin_div _ hw', turn]
      · rfl
  rw [if_neg habove, if_neg habove]
  by_cases hup : 0 < w
  · rw [if_pos hup, if_pos hup]
    split
    · obtain ⟨u, hu⟩ := isFinite_iff.mp ‹_›
      have hle : 0 ≤ (u - x) / w := by
        rw [hu, fin_lt, not_lt] at habove
        exact div_nonneg (by linarith) hup.le
      simp [hu, Resting.value, fin_div _ hw, hle]
    · rfl
  · rw [if_neg hup, if_neg hup]
    split
    · obtain ⟨l, hl⟩ := isFinite_iff.mp ‹_›
      have hle : 0 ≤ (l - x) / w := by
        rw [hl, fin_lt, not_lt] at hbelow
        exact div_nonneg_of_nonpos (by linarith) (not_lt.mp hup)
      simp [hl, Resting.value, fin_div _ hw', turn, hle]
    · rfl

/-- Block `b` comes before `c`, or at the same time and with a variable of no larger index. -/
def Precedes (t : Tableau Exact model.numRows model.numCols) (b c : Block Exact model.numRows) :
    Prop :=
  ∃ β γ : ℚ, b.ratio = .fin β ∧ c.ratio = .fin γ ∧
    (β < γ ∨ β = γ ∧ t.head.get b.row ≤ t.head.get c.row)

theorem Precedes.ratio_le {b c : Block Exact model.numRows} (h : t.Precedes b c) {β : ℚ}
    (hb : b.ratio = .fin β) : ∃ γ : ℚ, c.ratio = .fin γ ∧ β ≤ γ := by
  obtain ⟨β', γ, hb', hc, hle⟩ := h
  obtain rfl : β = β' := Exact.fin.inj (hb.symm.trans hb')
  refine ⟨γ, hc, ?_⟩
  rcases hle with hlt | ⟨heq, -⟩
  · exact hlt.le
  · exact heq.le

/-- Among finite ratios, what comes after no other candidate precedes it. -/
theorem NotAfter.precedes {b c : Block Exact model.numRows} {β γ : ℚ} (h : t.NotAfter b c)
    (hb : b.ratio = .fin β) (hc : c.ratio = .fin γ) : t.Precedes b c := by
  obtain ⟨hle, hhead⟩ := h
  rw [hb, hc, fin_le] at hle
  rw [hb, hc, fin_le] at hhead
  refine ⟨β, γ, hb, hc, ?_⟩
  rcases hle.lt_or_eq with hlt | heq
  · exact .inl hlt
  · exact .inr ⟨heq, hhead heq.ge⟩

theorem candidate_ratio (hs : s.IsStrict) (hint : HasIntervals model) (ht : t.Sound)
    {r : Fin model.numRows} {b : Block Exact model.numRows}
    (hb : t.candidate s t.values q dir r = some b) : ∃ β : ℚ, b.ratio = .fin β := by
  rw [candidate_eq hs hint ht] at hb
  obtain ⟨leave, -, rfl⟩ := Option.map_eq_some_iff.mp hb
  exact ⟨_, rfl⟩

/-- The ratio test finds the first candidate, if there is one. -/
theorem ratioTest_cases (hs : s.IsStrict) (hint : HasIntervals model) (ht : t.Sound)
    (q : Fin (model.numRows + model.numCols)) (dir : Heading) :
    (t.ratioTest s t.values q dir = none ∧ ∀ r, t.candidate s t.values q dir r = none) ∨
    ∃ b, t.ratioTest s t.values q dir = some b ∧
      ∀ r c, t.candidate s t.values q dir r = some c → t.Precedes b c := by
  have hnonneg (c : Block Exact model.numRows) (hc : c ∈ t.candidates s t.values q dir) :
      0 ≤ c.ratio := by
    refine candidate_nonneg hs.tolFeas le_rfl (ht.canonical.finite _ _) ?_ (candidate_row hc)
    rw [ht.values_eq]
    rfl
  cases hb : t.ratioTest s t.values q dir with
  | none => exact .inl ⟨rfl, ratioTest_eq_none.mp hb⟩
  | some b =>
    refine .inr ⟨b, rfl, fun r c hc => ?_⟩
    obtain ⟨r', hr'⟩ := ratioTest_eq_some hb
    obtain ⟨β, hβ⟩ := candidate_ratio hs hint ht hr'
    obtain ⟨γ, hγ⟩ := candidate_ratio hs hint ht hc
    exact (ratioTest_notAfter hs.tolFeas hnonneg hb c (mem_candidates.mpr ⟨r, hc⟩)).precedes hβ hγ

end Candidate

end Tableau

end MixedInteger
