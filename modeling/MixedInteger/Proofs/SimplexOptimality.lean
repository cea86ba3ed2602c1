import Mathlib
import MixedInteger.Proofs.ExactOracle
import MixedInteger.Proofs.SimplexRun

/-!
# Optimal solves

A solve that ends as optimal has its certificate in the last tableau: no resting variable can move
in a direction that improves the objective by more than the tolerance. Since the objective depends
on the resting variables alone, no point is better than the one found by more than the tolerance
times its distance in these variables.

* `Tableau.within_tolerance`: at the end every variable is in its range, up to the tolerance;
* `Tableau.reduced_mul_le`: what moving one resting variable can gain;
* `Tableau.cost_le`: what a whole solution can gain;
* `Simplex.solve_certificate`: the same about a solve.
-/

namespace MixedInteger

open Exact hiding isFinite isNaN
open Scalar (isFinite isNaN)

/-! ## Ranges with a tolerance -/

section Tolerance

variable {lower upper tol : Exact} {v : ℚ}

theorem tolerance_cases (htol : 0 ≤ tol) : tol = .posInf ∨ ∃ f : ℚ, 0 ≤ f ∧ tol = .fin f := by
  cases tol with
  | undefined => cases htol
  | negInf => cases htol
  | posInf => exact .inl rfl
  | fin f => exact .inr ⟨f, fin_le.mp htol, rfl⟩

theorem sub_posInf_of_lt (h : lower < .posInf) : lower - .posInf = .negInf := by
  cases lower with
  | undefined => cases h
  | posInf => cases h
  | negInf => rfl
  | fin q => rfl

theorem add_posInf_of_lt (h : .negInf < upper) : upper + .posInf = .posInf := by
  cases upper with
  | undefined => cases h
  | negInf => cases h
  | posInf => rfl
  | fin q => rfl

/-- A value that is not below a range, up to the tolerance, is above its lower end up to the
tolerance. -/
theorem sub_le_of_not_lt (htol : 0 ≤ tol) (h : lower < .posInf) (hnot : ¬ .fin v < lower - tol) :
    lower - tol ≤ .fin v := by
  rcases tolerance_cases htol with rfl | ⟨f, -, rfl⟩
  · rw [sub_posInf_of_lt h]
    exact negInf_le_fin v
  · cases lower with
    | undefined => cases h
    | posInf => cases h
    | negInf => exact negInf_le_fin v
    | fin q => simpa using hnot

theorem le_add_of_not_lt (htol : 0 ≤ tol) (h : .negInf < upper) (hnot : ¬ upper + tol < .fin v) :
    .fin v ≤ upper + tol := by
  rcases tolerance_cases htol with rfl | ⟨f, -, rfl⟩
  · rw [add_posInf_of_lt h]
    exact fin_le_posInf v
  · cases upper with
    | undefined => cases h
    | negInf => cases h
    | posInf => exact fin_le_posInf v
    | fin q => simpa using hnot

/-- A variable that can rest somewhere lies in its range up to the tolerance, unless the range is
empty by more than that. -/
theorem Resting.Fits.within {rest : Resting} (h : rest.Fits lower upper)
    (hproper : IsProper (lower, upper)) (htol : 0 ≤ tol) (hrange : ¬ upper + tol < lower)
    (hv : rest.value lower upper = .fin v) : lower - tol ≤ .fin v ∧ .fin v ≤ upper + tol := by
  rcases tolerance_cases htol with rfl | ⟨f, hf, rfl⟩
  · rw [sub_posInf_of_lt hproper.1, add_posInf_of_lt hproper.2]
    exact ⟨negInf_le_fin v, fin_le_posInf v⟩
  · cases rest with
    | atLower =>
      obtain rfl : lower = .fin v := hv
      exact ⟨by simpa using hf, le_add_of_not_lt htol hproper.2 hrange⟩
    | atUpper =>
      obtain rfl : upper = .fin v := hv
      refine ⟨sub_le_of_not_lt htol hproper.1 ?_, by simpa using hf⟩
      cases lower with
      | undefined => cases hproper.1
      | posInf => cases hproper.1
      | negInf => exact Bool.false_ne_true
      | fin l =>
        simp only [fin_add, fin_sub, fin_lt] at hrange ⊢
        linarith
    | fixed =>
      obtain rfl : lower = .fin v := hv
      obtain rfl : .fin v = upper := h.2
      simpa using hf
    | free =>
      obtain ⟨rfl, rfl⟩ := h
      exact ⟨negInf_le_fin v, fin_le_posInf v⟩

end Tolerance

namespace Tableau

section Certificate

variable {model : Model Exact} {t : Tableau Exact model.numRows model.numCols}

/-- Where a run ends as optimal, every variable lies in its range up to the tolerance. -/
theorem within_tolerance (ht : t.Sound) {tol : Exact} (htol : 0 ≤ tol)
    (hproper : ∀ k < model.numRows + model.numCols, IsProper (model.varRange k))
    (hrange : (slackBasis model).hasEmptyRange tol = false)
    (hphase : t.inPhaseOne tol t.values = false) (k : Fin (model.numRows + model.numCols)) :
    (model.varRange k).1 - tol ≤ .fin (t.point k) ∧
      .fin (t.point k) ≤ (model.varRange k).2 + tol := by
  have hk := hproper k k.isLt
  cases hplace : t.place.get k with
  | nonbasic rest =>
    have hempty : ¬ (model.varRange k).2 + tol < (model.varRange k).1 := by
      have := List.any_eq_false.mp hrange k (List.mem_finRange k)
      simpa [slackBasis, get_ofFn] using this
    have hvalue := point_resting t hplace
    rw [ht.values_eq, ht.lower, ht.upper] at hvalue
    have hfits := ht.fits k rest hplace
    rw [ht.lower, ht.upper] at hfits
    exact hfits.within hk htol hempty hvalue.symm
  | basic r =>
    have hhead := ht.canonical.head_place k r hplace
    have hnot := List.any_eq_false.mp hphase r (List.mem_finRange r)
    rw [hhead] at hnot
    simp only [isBelow, isAbove, ht.values_eq, ht.lower, ht.upper, Bool.or_eq_true,
      decide_eq_true_eq, not_or, gt_iff_lt] at hnot
    exact ⟨sub_le_of_not_lt htol hk.1 hnot.1, le_add_of_not_lt htol hk.2 hnot.2⟩

theorem reducedCost_eq (ht : t.Canonical)
    {cost : Vector Exact (model.numRows + model.numCols)}
    {c : Fin (model.numRows + model.numCols) → ℚ} (hcost : ∀ k, cost.get k = .fin (c k))
    (k : Fin (model.numRows + model.numCols)) :
    t.reducedCost cost k = .fin (t.reduced c k) := by
  unfold reducedCost
  rw [hcost k, foldl_fin (f := fun r => -(c (t.head.get r) * t.rat r k))]
  · rw [← Fin.sum_univ_def, Finset.sum_neg_distrib, ← sub_eq_add_neg]
    rfl
  · intro r _ q
    rw [hcost, rate, coef_eq ht]
    by_cases hzero : c (t.head.get r) = 0
    · simp [hzero]
    · simp [hzero]

/-- A resting variable that does not improve the cost does not pay in a direction in which it can
move. -/
theorem reduced_bounds_of_improving? (ht : t.Canonical)
    {cost : Vector Exact (model.numRows + model.numCols)}
    {c : Fin (model.numRows + model.numCols) → ℚ} (hcost : ∀ k, cost.get k = .fin (c k))
    {e : ℚ} {k : Fin (model.numRows + model.numCols)} {rest : Resting}
    (hk : t.place.get k = .nonbasic rest) (himp : t.improving? (.fin e) cost k = none) :
    (rest.canGrow = true → t.reduced c k ≤ e) ∧ (rest.canShrink = true → -e ≤ t.reduced c k) := by
  rw [improving?, hk, reducedCost_eq ht hcost] at himp
  constructor
  · intro hgrow
    have hopen : rest ≠ .fixed := by
      rintro rfl
      cases hgrow
    by_contra hlt
    simp [hopen, hgrow, not_le.mp hlt] at himp
  · intro hshrink
    have hopen : rest ≠ .fixed := by
      rintro rfl
      cases hshrink
    by_contra hlt
    simp only [hopen, ↓reduceIte, neg_fin, fin_lt, gt_iff_lt, hshrink, not_le.mp hlt, decide_true,
      Bool.and_self] at himp
    split at himp <;> cases himp

/-- Where no variable can enter, no resting variable moves in a direction that pays. -/
theorem reduced_bounds (ht : t.Canonical)
    {cost : Vector Exact (model.numRows + model.numCols)}
    {c : Fin (model.numRows + model.numCols) → ℚ} (hcost : ∀ k, cost.get k = .fin (c k))
    {e : ℚ} (henter : t.entering (.fin e) cost = none)
    {k : Fin (model.numRows + model.numCols)} {rest : Resting}
    (hk : t.place.get k = .nonbasic rest) :
    (rest.canGrow = true → t.reduced c k ≤ e) ∧ (rest.canShrink = true → -e ≤ t.reduced c k) := by
  have himp := List.findSome?_eq_none_iff.mp henter k (List.mem_finRange k)
  exact reduced_bounds_of_improving? ht hcost hk (Option.map_eq_none_iff.mp himp)

/-- Moving a resting variable within its range gains at most the tolerance for each unit. -/
theorem reduced_mul_le (ht : t.Sound) {cost : Vector Exact (model.numRows + model.numCols)}
    {c : Fin (model.numRows + model.numCols) → ℚ} (hcost : ∀ k, cost.get k = .fin (c k))
    {e : ℚ} (henter : t.entering (.fin e) cost = none)
    {k : Fin (model.numRows + model.numCols)} {rest : Resting}
    (hk : t.place.get k = .nonbasic rest) {v : ℚ} (hlower : (model.varRange k).1 ≤ .fin v)
    (hupper : .fin v ≤ (model.varRange k).2) :
    t.reduced c k * (v - t.point k) ≤ e * |v - t.point k| := by
  obtain ⟨hgrow, hshrink⟩ := reduced_bounds ht.canonical hcost henter hk
  have hvalue := point_resting t hk
  rw [ht.values_eq, ht.lower, ht.upper] at hvalue
  have up (hpays : t.reduced c k ≤ e) (hmove : 0 ≤ v - t.point k) :
      t.reduced c k * (v - t.point k) ≤ e * |v - t.point k| := by
    rw [abs_of_nonneg hmove]
    exact mul_le_mul_of_nonneg_right hpays hmove
  have down (hpays : -e ≤ t.reduced c k) (hmove : v - t.point k ≤ 0) :
      t.reduced c k * (v - t.point k) ≤ e * |v - t.point k| := by
    rw [abs_of_nonpos hmove, mul_neg, ← neg_mul]
    exact mul_le_mul_of_nonpos_right hpays hmove
  cases rest with
  | atLower =>
    rw [← show Exact.fin (t.point k) = (model.varRange k).1 from hvalue, fin_le] at hlower
    exact up (hgrow rfl) (sub_nonneg.mpr hlower)
  | atUpper =>
    rw [← show Exact.fin (t.point k) = (model.varRange k).2 from hvalue, fin_le] at hupper
    exact down (hshrink rfl) (sub_nonpos.mpr hupper)
  | free =>
    rcases le_total 0 (v - t.point k) with hmove | hmove
    · exact up (hgrow rfl) hmove
    · exact down (hshrink rfl) hmove
  | fixed =>
    have hfixed := ht.fits k _ hk
    rw [ht.lower, ht.upper] at hfixed
    have hlow : Exact.fin (t.point k) = (model.varRange k).1 := hvalue
    rw [← hlow, fin_le] at hlower
    rw [← hfixed.2, ← hlow, fin_le] at hupper
    have hsame : v - t.point k = 0 := by linarith
    simp [hsame]

/-- No solution within the ranges is better than the point of the last tableau by more than the
tolerance for each unit of distance in the resting variables. -/
theorem cost_le (ht : t.Sound) {cost : Vector Exact (model.numRows + model.numCols)}
    {c : Fin (model.numRows + model.numCols) → ℚ} (hcost : ∀ k, cost.get k = .fin (c k))
    {e : ℚ} (henter : t.entering (.fin e) cost = none)
    {z : Fin (model.numRows + model.numCols) → ℚ} (hz : (slackBasis model).Solves z)
    (hrange : ∀ k : Fin (model.numRows + model.numCols),
      (model.varRange k).1 ≤ .fin (z k) ∧ .fin (z k) ≤ (model.varRange k).2) :
    ∑ k, c k * z k ≤ ∑ k, c k * t.point k + e * t.restingSum fun k => |z k - t.point k| := by
  have hpoint := solves_point ht.canonical ht.restsFinite
  rw [sum_cost ht.canonical ((ht.solves z).mpr hz), sum_cost ht.canonical hpoint]
  unfold restingSum
  rw [Finset.mul_sum, ← Finset.sum_add_distrib]
  refine Finset.sum_le_sum fun k _ => ?_
  cases hk : t.place.get k with
  | basic r => simp [Place.isBasic]
  | nonbasic rest =>
    have hgain := reduced_mul_le ht hcost henter hk (hrange k).1 (hrange k).2
    simp only [Place.isBasic, Bool.false_eq_true, ↓reduceIte]
    rw [mul_sub] at hgain
    linarith

end Certificate

end Tableau

/-! ## Points of the model -/

namespace Model

variable {m : Model Exact} {x : Point Exact}

/-- The value of variable `k` at a point: of a row below the number of rows, of a column from there
on. -/
def varAt (m : Model Exact) (x : Point Exact) (k : Nat) : Exact :=
  if k < m.numRows then m.rowActivity k x else x.coord (k - m.numRows)

/-- The values of all variables at a point as rational numbers. -/
def spread (m : Model Exact) (x : Point Exact) (k : Fin (m.numRows + m.numCols)) : ℚ :=
  (m.varAt x k).toRat

/-- Being feasible is being in range, variable by variable. -/
theorem isFeasible_iff {tol : Exact} : m.isFeasible x tol = true ↔ x.size = m.numCols ∧
    ∀ k < m.numRows + m.numCols,
      (m.varRange k).1 - tol ≤ m.varAt x k ∧ m.varAt x k ≤ (m.varRange k).2 + tol := by
  simp only [isFeasible, Bool.and_eq_true, beq_iff_eq, List.all_eq_true, List.mem_range,
    withinRange_iff, and_assoc, and_congr_right_iff]
  intro _
  constructor
  · rintro ⟨hcols, hrows⟩ k hk
    by_cases hrow : k < m.numRows
    · simpa [varRange, varAt, hrow] using hrows k hrow
    · simpa [varRange, varAt, hrow] using hcols (k - m.numRows) (by omega)
  · intro h
    refine ⟨fun j hj => ?_, fun i hi => ?_⟩
    · simpa [varRange, varAt] using h (m.numRows + j) (by omega)
    · simpa [varRange, varAt, hi] using h i (by omega)

theorem varAt_eq (wf : m.WellFormed) (hx : x.IsRational) (k : Fin (m.numRows + m.numCols)) :
    m.varAt x k = .fin (m.spread x k) := by
  apply eq_fin
  unfold varAt
  split
  · rw [rowActivity_eq wf _ hx]
    rfl
  · exact hx _

/-- A rational point is feasible if its variables are in their ranges, up to the tolerance. -/
theorem isFeasible_of_spread (wf : m.WellFormed) (hx : x.IsRational) (hsize : x.size = m.numCols)
    {tol : Exact} (hrange : ∀ k : Fin (m.numRows + m.numCols),
      (m.varRange k).1 - tol ≤ .fin (m.spread x k) ∧
        .fin (m.spread x k) ≤ (m.varRange k).2 + tol) : m.isFeasible x tol = true := by
  refine isFeasible_iff.mpr ⟨hsize, fun k hk => ?_⟩
  have hvar := varAt_eq wf hx ⟨k, hk⟩
  change m.varAt x k = _ at hvar
  rw [hvar]
  exact hrange ⟨k, hk⟩

/-- At every admitted point the variables are in their ranges. -/
theorem Admits.spread_mem (wf : m.WellFormed) (hx : m.Admits x)
    (k : Fin (m.numRows + m.numCols)) :
    (m.varRange k).1 ≤ .fin (m.spread x k) ∧ .fin (m.spread x k) ≤ (m.varRange k).2 := by
  have hrange := (isFeasible_iff.mp (admits_iff.mp hx).2).2 k k.isLt
  rwa [zero_eq, sub_fin_zero, add_fin_zero, varAt_eq wf hx.rational] at hrange

theorem columnPart_spread (m : Model Exact) (x : Point Exact) {j : Nat} (hj : j < m.numCols) :
    Tableau.columnPart (m.spread x) j = x.rat j := by
  simp [Tableau.columnPart, hj, spread, varAt, Point.rat]

/-- The variables at a point satisfy the equations of the first tableau. -/
theorem solves_spread (wf : m.WellFormed) (hx : x.IsRational) :
    (Tableau.slackBasis m).Solves (m.spread x) := by
  rw [Tableau.solves_slackBasis wf]
  intro i
  have hrow : m.spread x (i.castAdd m.numCols) = Sparse.value (m.line i) x.rat := by
    simp [spread, varAt, rowActivity_eq wf _ hx]
  rw [hrow]
  refine Sparse.value_congr fun t ht => ?_
  rw [columnPart_spread m x (wf.columns i t ht)]

/-- A solution of the first tableau is determined by its columns. -/
theorem spread_eq (wf : m.WellFormed) (hx : x.IsRational)
    {z : Fin (m.numRows + m.numCols) → ℚ} (hz : (Tableau.slackBasis m).Solves z)
    (hcols : ∀ j : Fin m.numCols, x.rat j = z (Fin.natAdd m.numRows j)) : m.spread x = z := by
  rw [Tableau.solves_slackBasis wf] at hz
  have hspread := (Tableau.solves_slackBasis wf _).mp (solves_spread wf hx)
  have hpart (j : Nat) (hj : j < m.numCols) :
      Tableau.columnPart (m.spread x) j = Tableau.columnPart z j := by
    rw [columnPart_spread m x hj, Tableau.columnPart, dif_pos hj]
    exact hcols ⟨j, hj⟩
  funext k
  refine Fin.addCases (fun i => ?_) (fun j => ?_) k
  · rw [hz i, hspread i]
    exact Sparse.value_congr fun t ht => hpart t.1 (wf.columns i t ht)
  · simpa [Tableau.columnPart] using hpart j j.isLt

/-- The cost of phase two as rational numbers. -/
def costAt (m : Model Exact) (k : Fin (m.numRows + m.numCols)) : ℚ :=
  if k < m.numRows then 0 else Point.rat m.objective (k - m.numRows)

theorem objectiveCost_eq (wf : m.WellFormed) (k : Fin (m.numRows + m.numCols)) :
    (Tableau.objectiveCost m.objective : Vector Exact (m.numRows + m.numCols)).get k
      = .fin (m.costAt k) := by
  unfold Tableau.objectiveCost costAt
  rw [Tableau.get_ofFn]
  split
  · rfl
  · exact Point.coord_eq wf.objective _

/-- The cost of phase two is the objective. -/
theorem sum_costAt (m : Model Exact) (z : Fin (m.numRows + m.numCols) → ℚ) :
    ∑ k, m.costAt k * z k = weighted m.objective (Tableau.columnPart z) := by
  rw [Fin.sum_univ_add, weighted, Finset.sum_range]
  have hrows : ∑ i : Fin m.numRows, m.costAt (i.castAdd m.numCols) * z (i.castAdd m.numCols) = 0 :=
    Finset.sum_eq_zero fun i _ => by simp [costAt]
  rw [hrows, zero_add]
  refine Finset.sum_congr rfl fun j _ => ?_
  simp [costAt, Tableau.columnPart, show j.val < m.numCols from j.isLt]

theorem objectiveValue_spread (wf : m.WellFormed) (hx : x.IsRational) (hsize : x.size = m.numCols) :
    m.objectiveValue x = .fin (∑ k, m.costAt k * m.spread x k) := by
  rw [objectiveValue_eq wf.objective hx hsize, sum_costAt]
  congr 1
  refine Finset.sum_congr rfl fun j hj => ?_
  rw [columnPart_spread m x (Finset.mem_range.mp hj)]

/-- The point that has the columns of `z`. -/
def columnsOf (m : Model Exact) (z : Fin (m.numRows + m.numCols) → ℚ) : Point Exact :=
  Array.ofFn fun j : Fin m.numCols => Exact.fin (z (Fin.natAdd m.numRows j))

theorem coord_columnsOf (m : Model Exact) (z : Fin (m.numRows + m.numCols) → ℚ)
    (j : Fin m.numCols) : (m.columnsOf z).coord j = .fin (z (Fin.natAdd m.numRows j)) := by
  simp [columnsOf, Point.coord]

theorem size_columnsOf (m : Model Exact) (z : Fin (m.numRows + m.numCols) → ℚ) :
    (m.columnsOf z).size = m.numCols := by
  simp [columnsOf]

theorem isRational_columnsOf (m : Model Exact) (z : Fin (m.numRows + m.numCols) → ℚ) :
    (m.columnsOf z).IsRational := by
  refine Point.isRational_of_lt fun j hj => ?_
  rw [size_columnsOf] at hj
  rw [coord_columnsOf m z ⟨j, hj⟩]
  rfl

theorem spread_columnsOf (wf : m.WellFormed) {z : Fin (m.numRows + m.numCols) → ℚ}
    (hz : (Tableau.slackBasis m).Solves z) : m.spread (m.columnsOf z) = z := by
  refine spread_eq wf (isRational_columnsOf m z) hz fun j => ?_
  rw [Point.rat, coord_columnsOf, toRat_fin]

theorem objectiveValue_columnsOf (wf : m.WellFormed) {z : Fin (m.numRows + m.numCols) → ℚ}
    (hz : (Tableau.slackBasis m).Solves z) :
    m.objectiveValue (m.columnsOf z) = .fin (∑ k, m.costAt k * z k) := by
  rw [objectiveValue_spread wf (isRational_columnsOf m z) (size_columnsOf m z),
    spread_columnsOf wf hz]

theorem isFeasible_columnsOf (wf : m.WellFormed) {z : Fin (m.numRows + m.numCols) → ℚ}
    (hz : (Tableau.slackBasis m).Solves z) {tol : Exact}
    (hrange : ∀ k : Fin (m.numRows + m.numCols),
      (m.varRange k).1 - tol ≤ .fin (z k) ∧ .fin (z k) ≤ (m.varRange k).2 + tol) :
    m.isFeasible (m.columnsOf z) tol = true := by
  refine isFeasible_of_spread wf (isRational_columnsOf m z) (size_columnsOf m z) fun k => ?_
  rw [spread_columnsOf wf hz]
  exact hrange k

end Model

/-! ## Solves -/

namespace Simplex

/-- The variables outside the basis of an optimal solve. -/
def resting (s : Simplex Exact) : List Nat :=
  (List.range s.numVars).filter fun k => (s.varPlace? k).any fun p => !p.isBasic

/-- How far the resting variables are at `y` from where they rest. -/
def restingDistance (s : Simplex Exact) (y : Point Exact) : Exact :=
  Scalar.sum (s.resting.map fun k => Scalar.abs (s.model.varAt y k - s.varValue k))

/-- Where variable `k` stands in the basis of the last solve, however that ended. -/
def lastPlace? (s : Simplex Exact) (k : Nat) : Option (Place s.model.numRows) := do
  (← s.basis).tableau.place[k]?

/-- The distance of the resting variables for any solve, optimal or not. -/
def distance (s : Simplex Exact) (y : Point Exact) : Exact :=
  Scalar.sum (((List.range s.numVars).filter fun k =>
    (s.lastPlace? k).any fun p => !p.isBasic).map fun k =>
      Scalar.abs (s.model.varAt y k - s.varValue k))

section Solve

variable {s : Simplex Exact}

theorem varValue_solve (s : Simplex Exact) (k : Fin (s.model.numRows + s.model.numCols)) :
    s.solve.varValue k = s.run.tableau.values.get k := by
  change (s.run.tableau.values[k.val]?).getD 0 = _
  rw [Vector.getElem?_eq_getElem k.isLt]
  rfl

/-- After an optimal solve the places are shown. -/
theorem varPlace?_eq_lastPlace? (hopt : s.status = .optimal) (k : Nat) :
    s.varPlace? k = s.lastPlace? k := by
  have hbasis : s.optimalBasis? = s.basis := if_pos hopt
  unfold varPlace?
  rw [hbasis]
  rfl

theorem lastPlace?_solve (s : Simplex Exact) (k : Nat) :
    s.solve.lastPlace? k = s.run.tableau.place[k]? :=
  rfl

/-- The columns of a solve are the column part of the point of its tableau. -/
theorem coord_columnValues (hsound : s.run.tableau.Sound) (j : Fin s.model.numCols) :
    Point.coord s.solve.columnValues j
      = .fin (s.run.tableau.point (Fin.natAdd s.model.numRows j)) := by
  rw [← hsound.values_eq, ← varValue_solve]
  have hj : j.val < s.solve.model.numCols := j.isLt
  have hentry : Point.coord s.solve.columnValues j = s.solve.columnValue j := by
    simp [columnValues, Point.coord, hj]
  exact hentry

theorem columnValues_spread (hsound : s.run.tableau.Sound) (wf : s.model.WellFormed) :
    Point.IsRational s.solve.columnValues ∧ Array.size s.solve.columnValues = s.model.numCols ∧
      s.model.spread s.solve.columnValues = s.run.tableau.point := by
  have hsize : Array.size s.solve.columnValues = s.model.numCols := by
    change Array.size ((List.range s.model.numCols).map s.solve.columnValue).toArray = _
    simp
  have hrat : Point.IsRational s.solve.columnValues := by
    refine Point.isRational_of_lt fun j hj => ?_
    rw [coord_columnValues hsound ⟨j, hsize ▸ hj⟩]
    rfl
  refine ⟨hrat, hsize, Model.spread_eq wf hrat hsound.point_solves fun j => ?_⟩
  rw [Point.rat, coord_columnValues hsound j, toRat_fin]

theorem sum_filter_range (n : Nat) (p : Nat → Bool) (g : Nat → ℚ) :
    (((List.range n).filter p).map g).sum = ∑ k : Fin n, if p k then g k else 0 := by
  induction n with
  | zero => rfl
  | succ n ih =>
    rw [List.range_succ, List.filter_append, List.map_append, List.sum_append, ih,
      Fin.sum_univ_castSucc]
    cases h : p n <;> simp [h]

theorem distance_eq (hsound : s.run.tableau.Sound) (wf : s.model.WellFormed) {y : Point Exact}
    (hy : y.IsRational) :
    s.solve.distance y = .fin (s.run.tableau.restingSum fun k =>
      |s.model.spread y k - s.run.tableau.point k|) := by
  unfold distance
  rw [sum_eq (f := fun k => |(s.model.varAt y k).toRat - (s.solve.varValue k).toRat|)]
  · have hnum : s.solve.numVars = s.model.numRows + s.model.numCols := rfl
    rw [hnum, sum_filter_range]
    refine congrArg Exact.fin (Finset.sum_congr rfl fun k _ => ?_)
    have hplace : s.run.tableau.place[k.val]? = some (s.run.tableau.place.get k) :=
      Vector.getElem?_eq_getElem k.isLt
    rw [lastPlace?_solve, hplace, varValue_solve]
    cases s.run.tableau.place.get k <;> rfl
  · intro k hk
    have hlt : k < s.model.numRows + s.model.numCols :=
      List.mem_range.mp (List.mem_filter.mp hk).1
    have hvar := Model.varAt_eq wf hy ⟨k, hlt⟩
    have hvalue := (varValue_solve s ⟨k, hlt⟩).trans (hsound.values_eq ⟨k, hlt⟩)
    change s.model.varAt y k = _ at hvar
    change s.solve.varValue k = _ at hvalue
    change Scalar.abs (s.model.varAt y k - s.solve.varValue k) = _
    rw [hvar, hvalue]
    simp

theorem restingDistance_eq (hsound : s.run.tableau.Sound) (wf : s.model.WellFormed)
    (hopt : s.solve.status = .optimal) {y : Point Exact} (hy : y.IsRational) :
    s.solve.restingDistance y = .fin (s.run.tableau.restingSum fun k =>
      |s.model.spread y k - s.run.tableau.point k|) := by
  have hsame : s.solve.restingDistance y = s.solve.distance y := by
    unfold restingDistance resting distance
    simp only [varPlace?_eq_lastPlace? hopt]
  rw [hsame, distance_eq hsound wf hy]

/-- An optimal solve has found no empty range, and its last tableau has stopped in phase two. -/
theorem run_optimal (hopt : s.solve.status = .optimal) :
    (Tableau.slackBasis s.model).hasEmptyRange s.settings.tolFeas = false ∧
    s.run.tableau.inPhaseOne s.settings.tolFeas s.run.tableau.values = false ∧
    s.run.tableau.entering s.settings.tolCost (Tableau.objectiveCost s.model.objective) = none := by
  change s.run.status = .optimal at hopt
  rcases run_cases s with ⟨-, hrun⟩ | ⟨hrange, hrun⟩
  · rw [hrun] at hopt
    cases hopt
  · obtain ⟨left, hstop⟩ := Tableau.iterate_stops (Tableau.slackBasis s.model) s.settings
      s.model.objective s.settings.maxPivots 0
    rw [← hrun, hopt] at hstop
    obtain ⟨henter, hphase⟩ := hstop
    rw [Tableau.cost, hphase] at henter
    exact ⟨hrange, hphase, henter⟩

theorem isProper_varRange {m : Model Exact} (wf : m.WellFormed)
    (hcols : ∀ j < m.numCols, IsProper (m.colRange j)) (k : Nat) (hk : k < m.numRows + m.numCols) :
    IsProper (m.varRange k) := by
  unfold Model.varRange
  split
  · exact wf.rowRange k ‹_›
  · exact hcols _ (by omega)

/-- The columns of an optimal solve are feasible within the tolerance. -/
theorem isFeasible_columnValues (wf : s.model.WellFormed)
    (hproper : ∀ k < s.model.numRows + s.model.numCols, IsProper (s.model.varRange k))
    (hsound : s.run.tableau.Sound) (hfeas : 0 ≤ s.settings.tolFeas)
    (hopt : s.solve.status = .optimal) :
    s.model.isFeasible s.solve.columnValues s.settings.tolFeas = true := by
  obtain ⟨hrange, hphase, -⟩ := run_optimal hopt
  obtain ⟨hrat, hsize, hspread⟩ := columnValues_spread hsound wf
  refine Model.isFeasible_of_spread wf hrat hsize fun k => ?_
  rw [hspread]
  exact Tableau.within_tolerance hsound hfeas hproper hrange hphase k

/-- What an admitted point can have more than the reported objective. -/
theorem objectiveValue_le (wf : s.model.WellFormed) (hsound : s.run.tableau.Sound) {e : ℚ}
    (hcost : s.settings.tolCost = .fin e) (hopt : s.solve.status = .optimal) {y : Point Exact}
    (hy : s.model.Admits y) : s.model.objectiveValue y
      ≤ s.solve.objectiveValue + s.settings.tolCost * s.solve.restingDistance y := by
  obtain ⟨-, -, henter⟩ := run_optimal hopt
  obtain ⟨hrat, hsize, hspread⟩ := columnValues_spread hsound wf
  rw [hcost] at henter
  have hle := Tableau.cost_le hsound (Model.objectiveCost_eq wf) henter
    (Model.solves_spread wf hy.rational) (hy.spread_mem wf)
  rw [objectiveValue_solve hopt, hcost, restingDistance_eq hsound wf hopt hy.rational,
    Model.objectiveValue_spread wf hrat hsize, Model.objectiveValue_spread wf hy.rational hy.size,
    hspread, fin_mul, fin_add, fin_le]
  exact hle

/-- The certificate of an optimal solve. Its columns are feasible within the tolerance, and no
admitted point has an objective that is larger by more than the tolerance for each unit of distance
in the resting variables. Without a tolerance for costs the objective is an upper bound, and without
one for ranges as well it is the maximum. -/
theorem solve_certificate (s : Simplex Exact) (built : s.model.Built)
    (hcols : ∀ j < s.model.numCols, IsProper (s.model.colRange j))
    (hdrop : s.settings.dropTol = 0) (hfeas : 0 ≤ s.settings.tolFeas)
    (hpivot : 0 ≤ s.settings.tolPivot) {e : ℚ} (hcost : s.settings.tolCost = .fin e)
    (hopt : s.solve.status = .optimal) :
    s.model.isFeasible s.solve.columnValues s.settings.tolFeas = true ∧
    (∀ y, s.model.Admits y → s.model.objectiveValue y
      ≤ s.solve.objectiveValue + s.settings.tolCost * s.solve.restingDistance y) ∧
    (e = 0 → ∀ y, s.model.Admits y → s.model.objectiveValue y ≤ s.solve.objectiveValue) ∧
    (e = 0 → s.settings.tolFeas = 0 → s.model.IsMaximal s.solve.columnValues ∧
      s.solve.objectiveValue = s.model.objectiveValue s.solve.columnValues) := by
  have wf := built.wellFormed
  have hproper := isProper_varRange wf hcols
  have hsound := sound_run s wf hproper hdrop hpivot
  have hfeasible := isFeasible_columnValues wf hproper hsound hfeas hopt
  have hvalue := objectiveValue_solve hopt
  have hbound (he : e = 0) (y : Point Exact) (hy : s.model.Admits y) :
      s.model.objectiveValue y ≤ s.solve.objectiveValue := by
    have hle := objectiveValue_le wf hsound hcost hopt hy
    rwa [hcost, he, restingDistance_eq hsound wf hopt hy.rational, fin_mul, zero_mul,
      add_fin_zero] at hle
  refine ⟨hfeasible, fun y hy => objectiveValue_le wf hsound hcost hopt hy, hbound, ?_⟩
  intro he hzero
  rw [hzero] at hfeasible
  refine ⟨⟨Model.admits_iff.mpr ⟨?_, hfeasible⟩, fun y hy => hvalue ▸ hbound he y hy⟩, hvalue⟩
  exact (columnValues_spread hsound wf).1

end Solve

/-- Tolerances of zero. -/
def strict : SimplexSettings Exact := ⟨100, 0, 0, 0, 0⟩

/-- The largest `x₀ + x₁` with `x₀ + 2 x₁ ≤ 4` and `3 x₀ + x₁ ≤ 6`. -/
def corner : Simplex Exact := .new
  { objective := #[1, 1]
    matrix := ⟨2, 2, .byRow, #[[(0, 1), (1, .fin 2)], [(0, .fin 3), (1, 1)]]⟩
    rowLower := #[.negInf, .negInf]
    rowUpper := #[.fin 4, .fin 6]
    colLower := #[0, 0]
    colUpper := #[.posInf, .posInf]
    kinds := #[.continuous, .continuous] } strict

theorem built_corner : corner.model.Built :=
  .ofRows #[1, 1] #[.continuous, .continuous]
    [([(0, 1), (1, .fin 2)], .negInf, .fin 4), ([(0, .fin 3), (1, 1)], .negInf, .fin 6)] (by cbv)

/-- The corner is at `x₀ = 8/5` and `x₁ = 6/5`. -/
theorem solve_certificate_corner : corner.solve.status = .optimal ∧
    corner.solve.objectiveValue = .fin (14 / 5) ∧
    corner.model.IsMaximal corner.solve.columnValues := by
  have hopt : corner.solve.status = .optimal := by decide +kernel
  have hcert := solve_certificate corner built_corner (by decide) rfl (by decide) (by decide)
    (e := 0) rfl hopt
  exact ⟨hopt, by decide +kernel, (hcert.2.2.2 rfl rfl).1⟩

/-- The smallest `x` with `x ≥ 1/4`, solved with a tolerance of `1/2` for ranges. -/
def slackened : Simplex Exact := .new
  { objective := #[.fin (-1)]
    matrix := ⟨1, 1, .byRow, #[[(0, 1)]]⟩
    rowLower := #[.fin (1 / 4)]
    rowUpper := #[.posInf]
    colLower := #[0]
    colUpper := #[.posInf]
    kinds := #[.continuous] } { strict with tolFeas := .fin (1 / 2) }

theorem built_slackened : slackened.model.Built :=
  .ofRows #[.fin (-1)] #[.continuous] [([(0, 1)], .fin (1 / 4), .posInf)] (by cbv)

/-- Without a tolerance for costs alone the reported objective need not be a maximum: the start is
within the tolerance of the range, and no admitted point has its objective. -/
theorem solve_not_maximum : slackened.model.Built ∧
    (∀ j < slackened.model.numCols, IsProper (slackened.model.colRange j)) ∧
    slackened.settings.dropTol = 0 ∧ 0 ≤ slackened.settings.tolFeas ∧
    0 ≤ slackened.settings.tolPivot ∧ slackened.settings.tolCost = 0 ∧
    slackened.solve.status = .optimal ∧ ¬ ∃ y, slackened.model.Admits y ∧
      slackened.model.objectiveValue y = slackened.solve.objectiveValue := by
  refine ⟨built_slackened, by decide, rfl, by decide +kernel, by decide, rfl, by decide +kernel, ?_⟩
  rintro ⟨y, hy, heq⟩
  have wf := built_slackened.wellFormed
  have hzero : slackened.solve.objectiveValue = .fin 0 := by decide +kernel
  rw [hzero, Model.objectiveValue_eq wf.objective hy.rational hy.size, Exact.fin.injEq] at heq
  have hobj : weighted slackened.model.objective y.rat = -y.rat 0 := by
    simp [weighted, slackened, new, Point.rat, Point.coord]
  have hrow := (hy.rows 0 (by decide)).1
  rw [Model.rowActivity_eq wf 0 hy.rational] at hrow
  have hactivity : Sparse.value (slackened.model.line 0) y.rat = y.rat 0 := by
    simp [slackened, new, Model.line]
  rw [hactivity] at hrow
  have hquarter : 1 / 4 ≤ y.rat 0 := fin_le.mp hrow
  linarith

end Simplex

end MixedInteger
