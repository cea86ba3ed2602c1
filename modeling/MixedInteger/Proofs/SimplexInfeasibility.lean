import MixedInteger.Proofs.SimplexOptimality

/-!
# Infeasible solves

A solve that ends as infeasible in phase one has a certificate like that of an optimal one. Its cost
adds up the variables that lie outside their ranges, each towards its range. An admitted point has
all of them back, so its cost is better by more than the tolerance; and no point is better by more
than what the resting variables can gain. Which variables are outside may have changed from step to
step: the argument is about those that are left at the end.

* `Tableau.repair_gain`: what bringing one variable back into its range gains;
* `Tableau.tolerance_lt_gain`: what an admitted point gains;
* `Simplex.solve_infeasible_certificate`: the same about a solve.
-/

namespace MixedInteger

open Exact hiding isFinite isNaN
open Scalar (isFinite isNaN)

namespace Tableau

section Certificate

variable {model : Model Exact} {t : Tableau Exact model.numRows model.numCols}

/-- The cost of phase one at the point of the tableau, as rational numbers. -/
def repairAt (t : Tableau Exact model.numRows model.numCols) (tol : Exact)
    (k : Fin (model.numRows + model.numCols)) : ℚ :=
  ((t.repairCost tol t.values).get k).toRat

theorem repairCost_get (t : Tableau Exact model.numRows model.numCols) (tol : Exact)
    (k : Fin (model.numRows + model.numCols)) :
    (t.repairCost tol t.values).get k = if !(t.place.get k).isBasic then 0
      else if t.isBelow tol t.values k then 1
      else if t.isAbove tol t.values k then -1
      else 0 := by
  unfold repairCost
  rw [get_ofFn]

theorem repairCost_eq (t : Tableau Exact model.numRows model.numCols) (tol : Exact)
    (k : Fin (model.numRows + model.numCols)) :
    (t.repairCost tol t.values).get k = .fin (t.repairAt tol k) := by
  apply eq_fin
  rw [repairCost_get]
  repeat' split
  all_goals rfl

/-- A variable below its range has to grow by more than the tolerance to be in it. -/
theorem lt_of_isBelow (ht : t.Sound) {f : ℚ} {k : Fin (model.numRows + model.numCols)}
    (hbelow : t.isBelow (.fin f) t.values k = true) {v : ℚ}
    (hv : (model.varRange k).1 ≤ .fin v) : f < v - t.point k := by
  rw [isBelow, decide_eq_true_eq, ht.values_eq, ht.lower] at hbelow
  cases hlow : (model.varRange k).1 with
  | undefined => rw [hlow] at hv; cases hv
  | negInf => rw [hlow] at hbelow; cases hbelow
  | posInf => rw [hlow] at hv; cases hv
  | fin l =>
    rw [hlow, fin_sub, fin_lt] at hbelow
    rw [hlow, fin_le] at hv
    linarith

/-- A variable above its range has to shrink by more than the tolerance. -/
theorem lt_of_isAbove (ht : t.Sound) {f : ℚ} {k : Fin (model.numRows + model.numCols)}
    (habove : t.isAbove (.fin f) t.values k = true) {v : ℚ}
    (hv : .fin v ≤ (model.varRange k).2) : f < t.point k - v := by
  rw [isAbove, decide_eq_true_eq, ht.values_eq, ht.upper] at habove
  cases hup : (model.varRange k).2 with
  | undefined => rw [hup] at hv; cases hv
  | posInf => rw [hup] at habove; cases habove
  | negInf => rw [hup] at hv; cases hv
  | fin u =>
    rw [hup, fin_add, gt_iff_lt, fin_lt] at habove
    rw [hup, fin_le] at hv
    linarith

/-- Bringing a variable into its range costs nothing, and gains more than the tolerance if it is a
basic variable outside its range. -/
theorem repair_gain (ht : t.Sound) {f : ℚ} (hf : 0 ≤ f)
    {k : Fin (model.numRows + model.numCols)} {v : ℚ} (hlower : (model.varRange k).1 ≤ .fin v)
    (hupper : .fin v ≤ (model.varRange k).2) :
    0 ≤ t.repairAt (.fin f) k * (v - t.point k) ∧
    ((t.place.get k).isBasic = true →
      (t.isBelow (.fin f) t.values k || t.isAbove (.fin f) t.values k) = true →
      f < t.repairAt (.fin f) k * (v - t.point k)) := by
  unfold repairAt
  rw [repairCost_get]
  cases hbasic : (t.place.get k).isBasic with
  | false => simp
  | true =>
    cases hbelow : t.isBelow (.fin f) t.values k with
    | true =>
      have hgain := lt_of_isBelow ht hbelow hlower
      simp only [Bool.not_true, Bool.false_eq_true, ↓reduceIte, one_eq, toRat_fin, one_mul,
        Bool.true_or, forall_const]
      exact ⟨by linarith, hgain⟩
    | false =>
      cases habove : t.isAbove (.fin f) t.values k with
      | true =>
        have hgain := lt_of_isAbove ht habove hupper
        simp only [Bool.not_true, Bool.false_eq_true, ↓reduceIte, one_eq, neg_fin, toRat_fin,
          neg_mul, one_mul, neg_sub, Bool.or_true, forall_const]
        exact ⟨by linarith, hgain⟩
      | false => simp

/-- In phase one every solution within the ranges is better by more than the tolerance. -/
theorem tolerance_lt_gain (ht : t.Sound) {f : ℚ} (hf : 0 ≤ f)
    (hphase : t.inPhaseOne (.fin f) t.values = true)
    {z : Fin (model.numRows + model.numCols) → ℚ}
    (hrange : ∀ k : Fin (model.numRows + model.numCols),
      (model.varRange k).1 ≤ .fin (z k) ∧ .fin (z k) ≤ (model.varRange k).2) :
    f < ∑ k, t.repairAt (.fin f) k * (z k - t.point k) := by
  obtain ⟨r, -, hr⟩ := List.any_eq_true.mp hphase
  have hbasic : (t.place.get (t.head.get r)).isBasic = true := by
    rw [ht.canonical.place_head]
    rfl
  have hgain (k : Fin (model.numRows + model.numCols)) :=
    repair_gain ht hf (hrange k).1 (hrange k).2
  have hone := (hgain (t.head.get r)).2 hbasic hr
  have hall := Finset.single_le_sum (fun k _ => (hgain k).1) (Finset.mem_univ (t.head.get r))
  exact lt_of_lt_of_le hone hall

/-- Phase one is not entered with an infinite tolerance. -/
theorem tolerance_finite (ht : t.Sound) {tol : Exact} (htol : 0 ≤ tol)
    (hproper : ∀ k < model.numRows + model.numCols, IsProper (model.varRange k))
    (hphase : t.inPhaseOne tol t.values = true) : ∃ f : ℚ, 0 ≤ f ∧ tol = .fin f := by
  rcases tolerance_cases htol with rfl | hfin
  · obtain ⟨r, -, hr⟩ := List.any_eq_true.mp hphase
    have hk := hproper (t.head.get r) (t.head.get r).isLt
    simp only [isBelow, isAbove, ht.values_eq, ht.lower, ht.upper, sub_posInf_of_lt hk.1,
      add_posInf_of_lt hk.2, Bool.or_eq_true, decide_eq_true_eq] at hr
    rcases hr with hr | hr <;> cases hr
  · exact hfin

/-- Where no variable can enter in phase one, a solution within the ranges is far away in the
resting variables. -/
theorem tolerance_lt_distance (ht : t.Sound) {f e : ℚ} (hf : 0 ≤ f)
    (hphase : t.inPhaseOne (.fin f) t.values = true)
    (henter : t.entering (.fin e) (t.repairCost (.fin f) t.values) = none)
    {z : Fin (model.numRows + model.numCols) → ℚ} (hz : (slackBasis model).Solves z)
    (hrange : ∀ k : Fin (model.numRows + model.numCols),
      (model.varRange k).1 ≤ .fin (z k) ∧ .fin (z k) ≤ (model.varRange k).2) :
    f < e * t.restingSum fun k => |z k - t.point k| := by
  have hgain := tolerance_lt_gain ht hf hphase hrange
  have hle := cost_le ht (repairCost_eq t (.fin f)) henter hz hrange
  simp only [mul_sub, Finset.sum_sub_distrib] at hgain
  linarith

/-- A solution within the ranges is not where the resting variables rest. -/
theorem distance_pos (ht : t.Sound) {f : ℚ} (hf : 0 ≤ f)
    (hphase : t.inPhaseOne (.fin f) t.values = true)
    {z : Fin (model.numRows + model.numCols) → ℚ} (hz : (slackBasis model).Solves z)
    (hrange : ∀ k : Fin (model.numRows + model.numCols),
      (model.varRange k).1 ≤ .fin (z k) ∧ .fin (z k) ≤ (model.varRange k).2) :
    0 < t.restingSum fun k => |z k - t.point k| := by
  have hterm (k : Fin (model.numRows + model.numCols)) :
      0 ≤ if (t.place.get k).isBasic then 0 else |z k - t.point k| := by
    split
    · exact le_rfl
    · exact abs_nonneg _
  refine lt_of_le_of_ne (Finset.sum_nonneg fun k _ => hterm k) fun hzero => ?_
  have hrests (k : Fin (model.numRows + model.numCols))
      (hk : ¬ (t.place.get k).isBasic = true) : z k = t.point k := by
    have hsum := (Finset.sum_eq_zero_iff_of_nonneg fun k _ => hterm k).mp hzero.symm k
      (Finset.mem_univ k)
    rw [if_neg hk] at hsum
    exact sub_eq_zero.mp (abs_eq_zero.mp hsum)
  -- The cost depends on the resting variables alone, so there is nothing to gain.
  have hpoint := solves_point ht.canonical ht.restsFinite
  have hgain := tolerance_lt_gain ht hf hphase hrange
  simp only [mul_sub, Finset.sum_sub_distrib] at hgain
  rw [sum_cost ht.canonical ((ht.solves z).mpr hz), sum_cost ht.canonical hpoint] at hgain
  have hsame : t.restingSum (fun k => t.reduced (t.repairAt (.fin f)) k * z k)
      = t.restingSum fun k => t.reduced (t.repairAt (.fin f)) k * t.point k :=
    restingSum_congr fun k hk => by rw [hrests k (by simp [hk])]
  linarith

end Certificate

end Tableau

namespace Simplex

variable {s : Simplex Exact}

/-- A solve that ends as infeasible has found an empty range, or its last tableau has stopped in
phase one. -/
theorem run_infeasible (hinf : s.solve.status = .infeasible) :
    (Tableau.slackBasis s.model).hasEmptyRange s.settings.tolFeas = true ∨
    s.run.tableau.inPhaseOne s.settings.tolFeas s.run.tableau.values = true ∧
      s.run.tableau.entering s.settings.tolCost
        (s.run.tableau.repairCost s.settings.tolFeas s.run.tableau.values) = none := by
  change s.run.status = .infeasible at hinf
  rcases run_cases s with ⟨hrange, -⟩ | ⟨-, hrun⟩
  · exact .inl hrange
  · obtain ⟨left, hstop⟩ := Tableau.iterate_stops (Tableau.slackBasis s.model) s.settings
      s.model.objective s.settings.maxPivots 0
    rw [← hrun, hinf] at hstop
    obtain ⟨henter, hphase⟩ := hstop
    rw [Tableau.cost, hphase] at henter
    exact .inr ⟨hphase, henter⟩

/-- A tolerance only widens a range. -/
theorem le_add_tolerance {upper tol : Exact} {v : ℚ} (htol : 0 ≤ tol) (hv : .fin v ≤ upper) :
    .fin v ≤ upper + tol := by
  cases upper with
  | undefined => cases hv
  | negInf => cases hv
  | posInf => rcases tolerance_cases htol with rfl | ⟨f, -, rfl⟩ <;> rfl
  | fin u =>
    rcases tolerance_cases htol with rfl | ⟨f, hf, rfl⟩
    · rfl
    · rw [fin_le] at hv
      rw [fin_add, fin_le]
      linarith

/-- A model with an empty range admits no point. -/
theorem not_admits_of_hasEmptyRange {m : Model Exact} (wf : m.WellFormed) {tol : Exact}
    (htol : 0 ≤ tol) (hrange : (Tableau.slackBasis m).hasEmptyRange tol = true)
    (y : Point Exact) : ¬ m.Admits y := by
  intro hy
  obtain ⟨k, -, hk⟩ := List.any_eq_true.mp hrange
  simp only [Tableau.slackBasis, Tableau.get_ofFn, decide_eq_true_eq, gt_iff_lt] at hk
  obtain ⟨hlower, hupper⟩ := hy.spread_mem wf k
  exact not_lt_of_le (Exact.le_trans hlower (le_add_tolerance htol hupper)) hk

/-- The certificate of an infeasible solve. A point that the model admits would have to be so far
from where the resting variables rest that the tolerance for costs makes up for the one for ranges.
Without a tolerance for costs there is none. -/
theorem solve_infeasible_certificate (s : Simplex Exact) (built : s.model.Built)
    (hcols : ∀ j < s.model.numCols, IsProper (s.model.colRange j))
    (hdrop : s.settings.dropTol = 0) (hfeas : 0 ≤ s.settings.tolFeas)
    (hpivot : 0 ≤ s.settings.tolPivot) (hcost : 0 ≤ s.settings.tolCost)
    (hinf : s.solve.status = .infeasible) :
    (∀ y, s.model.Admits y →
      s.settings.tolFeas < s.settings.tolCost * s.solve.distance y) ∧
    (s.settings.tolCost = 0 → ¬ ∃ y, s.model.Admits y) := by
  have wf := built.wellFormed
  have hproper := isProper_varRange wf hcols
  have hsound := sound_run s wf hproper hdrop hpivot
  have hfar (y : Point Exact) (hy : s.model.Admits y) :
      s.settings.tolFeas < s.settings.tolCost * s.solve.distance y := by
    rcases run_infeasible hinf with hrange | ⟨hphase, henter⟩
    · exact absurd hy (not_admits_of_hasEmptyRange wf hfeas hrange y)
    · obtain ⟨f, hf, htol⟩ := Tableau.tolerance_finite hsound hfeas hproper hphase
      have hsolves := Model.solves_spread wf hy.rational
      have hin := hy.spread_mem wf
      rw [htol] at hphase henter ⊢
      rw [distance_eq hsound wf hy.rational]
      rcases tolerance_cases hcost with hinfinite | ⟨e, -, hfinite⟩
      · have hpos := Tableau.distance_pos hsound hf hphase hsolves hin
        rw [hinfinite, posInf_mul_fin hpos]
        rfl
      · rw [hfinite] at henter ⊢
        rw [fin_mul, fin_lt]
        exact Tableau.tolerance_lt_distance hsound hf hphase henter hsolves hin
  refine ⟨hfar, ?_⟩
  rintro hzero ⟨y, hy⟩
  have hlt := hfar y hy
  rw [hzero, distance_eq hsound wf hy.rational, zero_eq, fin_mul, zero_mul] at hlt
  exact not_lt_of_le hfeas hlt

/-- The largest `x₀ + x₁` with `x₀ + x₁ ≤ 1` and `x₀ - x₁ ≥ 2`. The tolerance for ranges is larger
than `1/2`, that for costs zero. -/
def conflicting : Simplex Exact := .new
  { objective := #[1, 1]
    matrix := ⟨2, 2, .byRow, #[[(0, 1), (1, 1)], [(0, 1), (1, .fin (-1))]]⟩
    rowLower := #[.negInf, .fin 2]
    rowUpper := #[1, .posInf]
    colLower := #[0, 0]
    colUpper := #[.posInf, .posInf]
    kinds := #[.continuous, .continuous] } { strict with tolFeas := .fin (3 / 4) }

theorem built_conflicting : conflicting.model.Built :=
  .ofRows #[1, 1] #[.continuous, .continuous]
    [([(0, 1), (1, 1)], .negInf, 1), ([(0, 1), (1, .fin (-1))], .fin 2, .posInf)] (by cbv)

/-- One step brings `x₀` to 1: the second row is still short of its range, and nothing helps. -/
theorem solve_infeasible_certificate_conflicting : conflicting.solve.status = .infeasible ∧
    conflicting.solve.pivots = 1 ∧ conflicting.solve.columnValue 0 = 1 ∧
    ¬ ∃ y, conflicting.model.Admits y := by
  have hinf : conflicting.solve.status = .infeasible := by decide +kernel
  have hcert := solve_infeasible_certificate conflicting built_conflicting (by decide) rfl
    (by decide +kernel) (by decide) (by decide) hinf
  exact ⟨hinf, by decide +kernel, by decide +kernel, hcert.2 rfl⟩

end Simplex

end MixedInteger
