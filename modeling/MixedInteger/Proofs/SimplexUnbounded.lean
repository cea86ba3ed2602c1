import MixedInteger.Proofs.SimplexInfeasibility
import MixedInteger.Proofs.SimplexStep

/-!
# Unbounded solves

A solve ends as unbounded where a variable enters that neither its own range nor any row stops. The
direction in which it moves the point is then a ray: whatever moves along it moves towards an
infinite end of its range, so that every point on it is as feasible as the last one, and the
objective grows without bound. In phase one there is no such ray, since its cost pays only if some
variable outside its range comes back to it, and that one stops the movement.

* `Tableau.candidate_eq_none`: what does not stop a movement;
* `Tableau.Escapes`, `Tableau.escapes_of_move`: the direction of an unbounded solve is a ray;
* `Tableau.not_inPhaseOne_of_move`: something stops every movement of phase one;
* `Unstopped.within`: feasibility along the ray;
* `Simplex.solve_unbounded_certificate`: the same about a solve.
-/

namespace MixedInteger

open Exact hiding isFinite isNaN
open Scalar (isFinite isNaN)

/-- Moving at this speed leads to an infinite end of the range, or nowhere. -/
def Unstopped (range : Exact × Exact) (w : ℚ) : Prop :=
  (0 < w → range.2 = .posInf) ∧ (w < 0 → range.1 = .negInf)

theorem unstopped_zero (range : Exact × Exact) : Unstopped range 0 :=
  ⟨fun h => absurd h (lt_irrefl 0), fun h => absurd h (lt_irrefl 0)⟩

/-- A value that nothing stops stays in its range, up to the tolerance. -/
theorem Unstopped.within {range : Exact × Exact} {v w θ : ℚ} (h : Unstopped range w) {tol : Exact}
    (htol : 0 ≤ tol) (hθ : 0 ≤ θ) (hv : range.1 - tol ≤ .fin v ∧ .fin v ≤ range.2 + tol) :
    range.1 - tol ≤ .fin (v + θ * w) ∧ .fin (v + θ * w) ≤ range.2 + tol := by
  obtain ⟨hlow, hup⟩ := hv
  rcases lt_trichotomy w 0 with hw | rfl | hw
  · constructor
    · rw [h.2 hw]
      rcases tolerance_cases htol with rfl | ⟨f, -, rfl⟩ <;> rfl
    · refine Exact.le_trans (fin_le.mpr ?_) hup
      linarith [mul_nonpos_of_nonneg_of_nonpos hθ hw.le]
  · simpa using ⟨hlow, hup⟩
  · constructor
    · refine Exact.le_trans hlow (fin_le.mpr ?_)
      linarith [mul_nonneg hθ hw.le]
    · rw [h.1 hw]
      rcases tolerance_cases htol with rfl | ⟨f, -, rfl⟩ <;> rfl

namespace Tableau

/-- A movement goes on for ever if no row stops it and the range of the variable is infinite. -/
theorem move_eq_none {α : Type} [Scalar α] {m n : Nat} {t : Tableau α m n} {s : SimplexSettings α}
    {x : Vector α (m + n)} {q : Fin (m + n)} {dir : Heading} (h : t.move s x q dir = none) :
    (∀ r, t.candidate s x q dir r = none) ∧
      isFinite (t.upper.get q - t.lower.get q) = false := by
  unfold move at h
  dsimp only at h
  split at h
  · rename_i hnone
    split at h
    · cases h
    · rename_i hspan
      exact ⟨ratioTest_eq_none.mp hnone, Bool.eq_false_iff.mpr hspan⟩
  · split at h <;> cases h

section Ray

variable {model : Model Exact} {t : Tableau Exact model.numRows model.numCols}
  {s : SimplexSettings Exact} {q : Fin (model.numRows + model.numCols)} {dir : Heading}

/-- Why a row is no candidate: its basic variable does not move, or moves away from its range, or
moves in it towards an infinite end. -/
theorem candidate_eq_none (ht : t.Sound) (hpivot : s.tolPivot = 0) {r : Fin model.numRows}
    (h : t.candidate s t.values q dir r = none) :
    t.velocity q dir (t.head.get r) = 0 ∨
    (t.isBelow s.tolFeas t.values (t.head.get r) = true ∧
      t.velocity q dir (t.head.get r) ≤ 0) ∨
    (t.isBelow s.tolFeas t.values (t.head.get r) = false ∧
      t.isAbove s.tolFeas t.values (t.head.get r) = true ∧
      0 ≤ t.velocity q dir (t.head.get r)) ∨
    (t.isBelow s.tolFeas t.values (t.head.get r) = false ∧
      t.isAbove s.tolFeas t.values (t.head.get r) = false ∧
      ((0 < t.velocity q dir (t.head.get r) ∧
        isFinite (model.varRange (t.head.get r)).2 = false) ∨
      (t.velocity q dir (t.head.get r) < 0 ∧
        isFinite (model.varRange (t.head.get r)).1 = false))) := by
  unfold candidate at h
  dsimp only at h
  rw [orient_rate ht.canonical, hpivot] at h
  simp only [zero_eq, abs_fin, fin_le, abs_nonpos_iff, gt_iff_lt, fin_lt, ht.lower, ht.upper] at h
  split at h
  · exact .inl ‹_›
  · rename_i hmoves
    right
    cases hbelow : t.isBelow s.tolFeas t.values (t.head.get r) with
    | true =>
      rw [hbelow, if_pos rfl] at h
      split at h
      · cases h
      · exact .inl ⟨rfl, not_lt.mp ‹_›⟩
    | false =>
      right
      rw [hbelow, if_neg Bool.false_ne_true] at h
      cases habove : t.isAbove s.tolFeas t.values (t.head.get r) with
      | true =>
        rw [habove, if_pos rfl] at h
        split at h
        · cases h
        · exact .inl ⟨rfl, rfl, not_lt.mp ‹_›⟩
      | false =>
        rw [habove, if_neg Bool.false_ne_true] at h
        refine .inr ⟨rfl, rfl, ?_⟩
        split at h
        · rename_i hup
          split at h
          · cases h
          · exact .inl ⟨hup, Bool.eq_false_iff.mpr ‹_›⟩
        · rename_i hup
          split at h
          · cases h
          · exact .inr ⟨lt_of_le_of_ne (not_lt.mp hup) hmoves, Bool.eq_false_iff.mpr ‹_›⟩

/-- A basic variable that does not stop the movement does not come back to its range. -/
theorem repairAt_mul_nonpos (ht : t.Sound) (hpivot : s.tolPivot = 0)
    (h : ∀ r, t.candidate s t.values q dir r = none)
    (k : Fin (model.numRows + model.numCols)) :
    t.repairAt s.tolFeas k * t.velocity q dir k ≤ 0 := by
  unfold repairAt
  rw [repairCost_get]
  cases hk : t.place.get k with
  | nonbasic rest => simp [Place.isBasic]
  | basic r =>
    obtain rfl := ht.canonical.head_place k r hk
    rcases candidate_eq_none ht hpivot (h r) with
      hzero | ⟨hbelow, hw⟩ | ⟨hbelow, habove, hw⟩ | ⟨hbelow, habove, -⟩
    · rw [hzero, mul_zero]
    · simpa [Place.isBasic, hbelow] using hw
    · simpa [Place.isBasic, hbelow, habove] using hw
    · simp [Place.isBasic, hbelow, habove]

/-- Something stops every movement of phase one. -/
theorem not_inPhaseOne_of_move (ht : t.Sound) (hpivot : s.tolPivot = 0) (hcost : 0 ≤ s.tolCost)
    (henter : t.entering s.tolCost (t.cost s.tolFeas model.objective t.values) = some (q, dir))
    (hmove : t.move s t.values q dir = none) : t.inPhaseOne s.tolFeas t.values = false := by
  by_contra hphase
  rw [Bool.not_eq_false] at hphase
  rw [cost, if_pos hphase] at henter
  obtain ⟨⟨rest, hq, -⟩, hpays⟩ :=
    entering_pays ht.canonical (repairCost_eq t s.tolFeas) hcost henter
  -- The cost would grow, although no variable outside its range comes closer to it.
  rw [← sum_velocity ht.canonical hq] at hpays
  have hnone := (move_eq_none hmove).1
  have hle := Finset.sum_nonpos fun k (_ : k ∈ Finset.univ) =>
    repairAt_mul_nonpos ht hpivot hnone k
  exact hpays.not_ge hle

/-- Every variable moves towards an infinite end of its range. -/
def Escapes (t : Tableau Exact model.numRows model.numCols)
    (q : Fin (model.numRows + model.numCols)) (dir : Heading) : Prop :=
  ∀ k : Fin (model.numRows + model.numCols),
    Unstopped (model.varRange k) (t.velocity q dir k)

/-- A variable that may move and has an infinite range moves towards an infinite end. -/
theorem unstopped_of_span {range : Exact × Exact} (hproper : IsProper range) {rest : Resting}
    (hfits : rest.Fits range.1 range.2) (hdir : rest.Allows dir)
    (hspan : isFinite (range.2 - range.1) = false) : Unstopped range dir.sign := by
  rcases hdir.cases with rfl | ⟨rfl, rfl⟩ | ⟨rfl, rfl⟩
  · exact ⟨fun _ => hfits.2, fun _ => hfits.1⟩
  · refine ⟨fun _ => ?_, fun hneg => absurd hneg (by norm_num [Heading.sign])⟩
    rcases hproper.upper_cases with hu | ⟨u, hu⟩
    · exact hu
    · obtain ⟨l, hl⟩ := isFinite_iff.mp hfits
      rw [hl, hu, fin_sub] at hspan
      cases hspan
  · refine ⟨fun hpos => absurd hpos (by norm_num [Heading.sign]), fun _ => ?_⟩
    rcases hproper.lower_cases with hl | ⟨l, hl⟩
    · exact hl
    · obtain ⟨u, hu⟩ := isFinite_iff.mp hfits
      rw [hl, hu, fin_sub] at hspan
      cases hspan

/-- A movement that nothing stops in phase two follows a ray. -/
theorem escapes_of_move (ht : t.Sound) (hpivot : s.tolPivot = 0)
    (hproper : ∀ k < model.numRows + model.numCols, IsProper (model.varRange k))
    (hphase : t.inPhaseOne s.tolFeas t.values = false) {rest : Resting}
    (hq : t.place.get q = .nonbasic rest) (hdir : rest.Allows dir)
    (hmove : t.move s t.values q dir = none) : t.Escapes q dir := by
  obtain ⟨hnone, hspan⟩ := move_eq_none hmove
  intro k
  have hk := hproper k k.isLt
  cases hplace : t.place.get k with
  | nonbasic rest' =>
    rw [velocity_resting hplace]
    split
    · subst k
      rw [ht.lower, ht.upper] at hspan
      exact unstopped_of_span hk (ht.resting_fits hq) hdir hspan
    · exact unstopped_zero _
  | basic r =>
    obtain rfl := ht.canonical.head_place k r hplace
    have hinside := List.any_eq_false.mp hphase r (List.mem_finRange r)
    rw [Bool.or_eq_true, not_or] at hinside
    rcases candidate_eq_none ht hpivot (hnone r) with
      hzero | ⟨hbelow, -⟩ | ⟨-, habove, -⟩ | ⟨-, -, ⟨hw, hinf⟩ | ⟨hw, hinf⟩⟩
    · rw [hzero]
      exact unstopped_zero _
    · exact absurd hbelow hinside.1
    · exact absurd habove hinside.2
    · refine ⟨fun _ => ?_, fun h => absurd h hw.not_gt⟩
      exact eq_posInf_of_lt hk.2 (Bool.eq_false_iff.mp hinf)
    · refine ⟨fun h => absurd h hw.not_gt, fun _ => ?_⟩
      exact eq_negInf_of_lt hk.1 (Bool.eq_false_iff.mp hinf)

end Ray

end Tableau

namespace Simplex

variable {s : Simplex Exact}

/-- What grows steadily gets above any bound. -/
theorem exists_lt_add_mul {gain : ℚ} (hgain : 0 < gain) (M base : ℚ) :
    ∃ θ, 0 ≤ θ ∧ M < base + θ * gain := by
  obtain ⟨n, hn⟩ := exists_nat_gt ((M - base) / gain)
  refine ⟨n, n.cast_nonneg, ?_⟩
  linarith [(div_lt_iff₀ hgain).mp hn]

/-- An unbounded solve has found no empty range, and its last tableau has a variable that enters and
that nothing stops. -/
theorem run_unbounded (hunb : s.solve.status = .unbounded) :
    (Tableau.slackBasis s.model).hasEmptyRange s.settings.tolFeas = false ∧
    ∃ q dir, s.run.tableau.entering s.settings.tolCost
        (s.run.tableau.cost s.settings.tolFeas s.model.objective s.run.tableau.values)
          = some (q, dir) ∧
      s.run.tableau.move s.settings s.run.tableau.values q dir = none := by
  change s.run.status = .unbounded at hunb
  rcases run_cases s with ⟨-, hrun⟩ | ⟨hrange, hrun⟩
  · rw [hrun] at hunb
    cases hunb
  · obtain ⟨left, hstop⟩ := Tableau.iterate_stops (Tableau.slackBasis s.model) s.settings
      s.model.objective s.settings.maxPivots 0
    rw [← hrun, hunb] at hstop
    exact ⟨hrange, hstop⟩

/-- The certificate of an unbounded solve. It has left phase one, and the model has points that are
feasible within the tolerance and have an objective as large as you like. Without a tolerance for
ranges these are admitted points. -/
theorem solve_unbounded_certificate (s : Simplex Exact) (built : s.model.Built)
    (hcols : ∀ j < s.model.numCols, IsProper (s.model.colRange j))
    (hdrop : s.settings.dropTol = 0) (hpivot : s.settings.tolPivot = 0)
    (hfeas : 0 ≤ s.settings.tolFeas) (hcost : 0 ≤ s.settings.tolCost)
    (hunb : s.solve.status = .unbounded) :
    s.run.tableau.inPhaseOne s.settings.tolFeas s.run.tableau.values = false ∧
    ∀ M : ℚ, ∃ y : Point Exact, s.model.isFeasible y s.settings.tolFeas = true ∧
      .fin M < s.model.objectiveValue y ∧ (s.settings.tolFeas = 0 → s.model.Admits y) := by
  have wf := built.wellFormed
  have hproper := isProper_varRange wf hcols
  have hsound := sound_run s wf hproper hdrop (by rw [hpivot]; exact fin_le.mpr le_rfl)
  obtain ⟨hrange, q, dir, henter, hmove⟩ := run_unbounded hunb
  have hphase := Tableau.not_inPhaseOne_of_move hsound hpivot hcost henter hmove
  refine ⟨hphase, fun M => ?_⟩
  rw [Tableau.cost, if_neg (Bool.eq_false_iff.mp hphase)] at henter
  obtain ⟨⟨rest, hq, hdir⟩, hpays⟩ :=
    Tableau.entering_pays hsound.canonical (Model.objectiveCost_eq wf) hcost henter
  have hray := Tableau.escapes_of_move hsound hpivot hproper hphase hq hdir hmove
  -- Far enough along the ray the objective is above any bound.
  obtain ⟨θ, hθ, hfar⟩ := exists_lt_add_mul hpays M
    (∑ k, s.model.costAt k * s.run.tableau.point k)
  rw [← Tableau.sum_along hsound.canonical hq] at hfar
  have hsolves := Tableau.solves_along hsound hq dir θ
  have hfeasible := Model.isFeasible_columnsOf wf hsolves fun k =>
    (hray k).within hfeas hθ (Tableau.within_tolerance hsound hfeas hproper hrange hphase k)
  refine ⟨_, hfeasible, ?_, fun hzero => ?_⟩
  · rw [Model.objectiveValue_columnsOf wf hsolves, fin_lt]
    exact hfar
  · rw [hzero] at hfeasible
    exact Model.admits_iff.mpr ⟨Model.isRational_columnsOf _ _, hfeasible⟩

/-- The largest `x₀` with `x₀ + x₁ ≥ 2` and `x₀ - x₁ ≤ 1`. -/
def runaway : Simplex Exact := .new
  { objective := #[1, 0]
    matrix := ⟨2, 2, .byRow, #[[(0, 1), (1, 1)], [(0, 1), (1, .fin (-1))]]⟩
    rowLower := #[.fin 2, .negInf]
    rowUpper := #[.posInf, 1]
    colLower := #[0, 0]
    colUpper := #[.posInf, .posInf]
    kinds := #[.continuous, .continuous] } strict

theorem built_runaway : runaway.model.Built :=
  .ofRows #[1, 0] #[.continuous, .continuous]
    [([(0, 1), (1, 1)], .fin 2, .posInf), ([(0, 1), (1, .fin (-1))], .negInf, 1)] (by cbv)

/-- It starts in phase one, and ends with `x₀` and `x₁` growing together. -/
theorem solve_unbounded_certificate_runaway :
    (Tableau.slackBasis runaway.model).inPhaseOne 0
      (Tableau.slackBasis runaway.model).values = true ∧
    runaway.solve.status = .unbounded ∧
    ∀ M : ℚ, ∃ y, runaway.model.Admits y ∧ .fin M < runaway.model.objectiveValue y := by
  have hunb : runaway.solve.status = .unbounded := by decide +kernel
  have hcert := solve_unbounded_certificate runaway built_runaway (by decide) rfl rfl (by decide)
    (by decide) hunb
  refine ⟨by decide +kernel, hunb, fun M => ?_⟩
  obtain ⟨y, -, habove, hadmits⟩ := hcert.2 M
  exact ⟨y, hadmits rfl, habove⟩

end Simplex

end MixedInteger
