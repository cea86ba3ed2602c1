import MixedInteger.Proofs.BlandRule

/-!
# Progress of a solve

Without tolerances every step of a solve is worth something or costs nothing: no variable leaves its
range, the distance from the ranges shrinks while there is any, and afterwards the objective grows
and the point stays feasible. So a solve that has left phase one does not come back to it.

* `Tableau.violation`, `Tableau.columns`: what the two phases improve;
* `Tableau.Progresses`: what one step keeps and gains;
* `Tableau.progresses_of_next?`: every step is of this kind;
* `Simplex.run_progress`: the same about all steps of a solve.
-/

namespace MixedInteger

open Exact hiding isFinite isNaN
open Scalar (isFinite isNaN)

/-! ## Resting places -/

/-- The value is the end of the range that the resting place names. -/
def Resting.Marks (range : Exact × Exact) (v : Exact) : Resting → Prop
  | .atLower => v = range.1
  | .atUpper => v = range.2
  | .fixed => v = range.1 ∧ v = range.2
  | .free => False

theorem Resting.Fits.marks {range : Exact × Exact} {rest : Resting}
    (h : rest.Fits range.1 range.2) (hend : rest ≠ .free) :
    rest.Marks range (rest.value range.1 range.2) := by
  cases rest with
  | atLower => rfl
  | atUpper => rfl
  | fixed => exact ⟨rfl, h.2⟩
  | free => exact absurd rfl hend

namespace Tableau

/-! ## What the phases improve -/

section Measures

variable {α : Type} [Scalar α] {m n : Nat}

/-- How far the variables are outside their ranges, all together. -/
def violation (t : Tableau α m n) : α :=
  Scalar.sum ((List.finRange (m + n)).map fun k =>
    Scalar.larger (Scalar.larger (t.lower.get k - t.values.get k)
      (t.values.get k - t.upper.get k)) 0)

/-- The columns at the point of the tableau. -/
def columns (t : Tableau α m n) : Point α :=
  Array.ofFn fun j : Fin n => t.values.get (Fin.natAdd m j)

end Measures

section Progress

variable {model : Model Exact} {t next : Tableau Exact model.numRows model.numCols}
  {s : SimplexSettings Exact} {q : Fin (model.numRows + model.numCols)} {dir : Heading} {θ : ℚ}

theorem violation_eq (hint : HasIntervals model) (ht : t.Sound) :
    t.violation = .fin (∑ k : Fin (model.numRows + model.numCols),
      shortfall (model.varRange k) (t.point k)) := by
  unfold violation
  rw [sum_eq (f := fun k : Fin (model.numRows + model.numCols) =>
    shortfall (model.varRange k) (t.point k)), Fin.sum_univ_def]
  intro k _
  rw [ht.lower, ht.upper, ht.values_eq]
  exact larger_eq_shortfall (hint k) (t.point k)

theorem columns_eq (ht : t.Sound) : t.columns = model.columnsOf t.point := by
  unfold columns Model.columnsOf
  congr 1
  funext j
  exact ht.values_eq _

/-- In phase two the columns are feasible. -/
theorem isFeasible_columns (wf : model.WellFormed) (hint : HasIntervals model) (ht : t.Sound)
    (hin : ∀ j : Fin (model.numRows + model.numCols), pull (model.varRange j) (t.point j) = 0) :
    model.isFeasible t.columns 0 = true := by
  rw [columns_eq ht]
  refine Model.isFeasible_columnsOf wf ht.point_solves fun k => ?_
  rw [zero_eq, sub_fin_zero, add_fin_zero]
  exact inside_of_pull (hint k).proper (hin k)

/-! ## One step -/

/-- Variable `k` is in its range at the point of the tableau. -/
def Within (t : Tableau Exact model.numRows model.numCols)
    (k : Fin (model.numRows + model.numCols)) : Prop :=
  (model.varRange k).1 ≤ t.values.get k ∧ t.values.get k ≤ (model.varRange k).2

/-- Where `t` is in phase two, `u` is as well. -/
def KeepsPhaseTwo (t u : Tableau Exact model.numRows model.numCols) : Prop :=
  t.inPhaseOne 0 t.values = false → u.inPhaseOne 0 u.values = false

instance : Trans (@KeepsPhaseTwo model) (@KeepsPhaseTwo model) (@KeepsPhaseTwo model) :=
  ⟨fun htu huv ht => huv (htu ht)⟩

/-- A step of the length `θ`, with what it keeps and what it gains. -/
structure Progresses (s : SimplexSettings Exact) (t : Tableau Exact model.numRows model.numCols)
    (θ : ℚ) (next : Tableau Exact model.numRows model.numCols) : Prop where
  moves : ∃ q dir,
    t.entering s.tolCost (t.cost s.tolFeas model.objective t.values) = some (q, dir) ∧
      Halts s t q dir θ next ∧ ∀ k, next.values.get k = .fin (t.along q dir θ k)
  nonneg : 0 ≤ θ
  /-- No variable leaves its range. -/
  within : ∀ k, t.Within k → next.Within k
  /-- Phase one. -/
  repairs : t.inPhaseOne 0 t.values = true →
    next.violation ≤ t.violation ∧ (0 < θ → next.violation < t.violation)
  /-- Phase two, which goes on. -/
  improves : t.inPhaseOne 0 t.values = false →
    model.objectiveValue t.columns ≤ model.objectiveValue next.columns ∧
      model.isFeasible t.columns 0 = true ∧ model.isFeasible next.columns 0 = true ∧
      next.inPhaseOne 0 next.values = false
  /-- A variable that leaves the basis is at the end of its range that its new place names. -/
  leaves : ∀ q dir b,
    t.entering s.tolCost (t.cost s.tolFeas model.objective t.values) = some (q, dir) →
    t.ratioTest s t.values q dir = some b → next = t.pivot s.dropTol b.row q b.leave →
    ∃ rest, next.place.get (t.head.get b.row) = .nonbasic rest ∧
      rest.Marks (model.varRange (t.head.get b.row)) (next.values.get (t.head.get b.row))

/-- A row that stops the movement names an end of the range of its basic variable. -/
theorem ratioTest_leave_ne_free {b : Block Exact model.numRows}
    (h : t.ratioTest s t.values q dir = some b) : b.leave ≠ .free := by
  obtain ⟨r, hr⟩ := ratioTest_eq_some h
  obtain ⟨-, -, ⟨hleave, -⟩ | ⟨hleave, -⟩⟩ := candidate_eq_some hr
  all_goals simp [hleave]

/-- The variable that leaves in a pivot rests at the end of its range that its place names. -/
theorem marks_leaving (ht : t.Canonical) (hnext : next.Sound) {rest : Resting}
    (hq : t.place.get q = .nonbasic rest) {b : Block Exact model.numRows}
    (hfound : t.ratioTest s t.values q dir = some b)
    (hpivot : next = t.pivot s.dropTol b.row q b.leave) :
    ∃ rest, next.place.get (t.head.get b.row) = .nonbasic rest ∧
      rest.Marks (model.varRange (t.head.get b.row)) (next.values.get (t.head.get b.row)) := by
  have hne : t.head.get b.row ≠ q := by
    intro heq
    have hplace := ht.place_head b.row
    rw [heq, hq] at hplace
    cases hplace
  have hrest : next.place.get (t.head.get b.row) = .nonbasic
      (if t.lower.get (t.head.get b.row) == t.upper.get (t.head.get b.row) then .fixed
        else b.leave) := by
    rw [hpivot, place_pivot, if_neg hne, if_pos rfl]
  refine ⟨_, hrest, ?_⟩
  rw [hnext.values_eq, ← hnext.resting_value hrest]
  apply (hnext.resting_fits hrest).marks
  split
  · exact Resting.noConfusion
  · exact ratioTest_leave_ne_free hfound

theorem Strides.progresses (wf : model.WellFormed) (hint : HasIntervals model)
    (ht : t.Sound) (hnext : next.Sound)
    (henter : t.entering s.tolCost (t.cost s.tolFeas model.objective t.values) = some (q, dir))
    (h : t.Strides q dir θ next) (hhalts : Halts s t q dir θ next) : t.Progresses s θ next := by
  have hpays := h.enters.pays
  constructor
  case moves =>
    refine ⟨q, dir, henter, hhalts, fun k => ?_⟩
    rw [hnext.values_eq, h.point k]
    rfl
  case nonneg => exact h.nonneg
  case within =>
    intro k hk
    unfold Within at hk ⊢
    rw [ht.values_eq] at hk
    rw [hnext.values_eq]
    exact (h.sameSide k).inside hk.1 hk.2
  case repairs =>
    intro hphase
    obtain ⟨j, hj⟩ := (inPhaseOne_iff hint ht).mp hphase
    rw [violation_eq hint ht, violation_eq hint hnext,
      h.sum_shortfall hint ht.canonical fun hall => hj (hall j), fin_le, fin_lt]
    refine ⟨?_, fun hθ => ?_⟩
    · linarith [mul_nonneg h.nonneg hpays.le]
    · linarith [mul_pos hθ hpays]
  case improves =>
    intro hphase
    have hin := (inPhaseOne_eq_false hint ht).mp hphase
    obtain ⟨hstays, hgain⟩ := h.sum_costAt hint ht.canonical hin
    refine ⟨?_, isFeasible_columns wf hint ht hin, isFeasible_columns wf hint hnext hstays,
      (inPhaseOne_eq_false hint hnext).mpr hstays⟩
    rw [columns_eq ht, columns_eq hnext, Model.objectiveValue_columnsOf wf ht.point_solves,
      Model.objectiveValue_columnsOf wf hnext.point_solves, hgain, fin_le]
    linarith [mul_nonneg h.nonneg hpays.le]
  case leaves =>
    intro q' dir' b henter' hfound hpivot
    cases henter.symm.trans henter'
    obtain ⟨rest, hq, -⟩ := h.enters.resting
    exact marks_leaving ht.canonical hnext hq hfound hpivot

/-- Every step of a run without tolerances makes progress. -/
theorem progresses_of_next? (hs : s.IsStrict) (wf : model.WellFormed) (hint : HasIntervals model)
    (ht : t.Poised) (h : t.next? s model.objective = some next) :
    ∃ θ, t.Progresses s θ next := by
  obtain ⟨⟨q, dir⟩, henter, hmove⟩ := Option.bind_eq_some_iff.mp h
  obtain ⟨hpoised, θ, hstride, hhalts⟩ := move_strides hs wf hint ht henter hmove
  exact ⟨θ, hstride.progresses wf hint ht.sound hpoised.sound henter hhalts⟩

/-! ## Runs -/

theorem head?_heads {α : Type} [Scalar α] {m n : Nat} (s : SimplexSettings α)
    (objective : Array α) (remaining : Nat) (t : Tableau α m n) :
    (heads s objective remaining t).head? = some t := by
  cases remaining with
  | zero => rfl
  | succ left =>
    unfold heads
    split <;> rfl

/-- What every step of a run does, from one head to the next. -/
theorem isChain_heads (hs : s.IsStrict) (wf : model.WellFormed) (hint : HasIntervals model)
    (ht : t.Poised) (remaining : Nat) :
    (heads s model.objective remaining t).IsChain fun t next => ∃ θ, t.Progresses s θ next := by
  -- What the induction carries from head to head is that it is poised.
  induction remaining generalizing t with
  | zero => exact List.isChain_singleton t
  | succ left ih =>
    unfold heads
    split
    · exact List.isChain_singleton t
    · rename_i next hnext
      refine List.isChain_cons.mpr ⟨fun u hu => ?_, ih (next?_spec hs wf hint ht hnext).1⟩
      rw [head?_heads, Option.mem_def, Option.some.injEq] at hu
      subst hu
      exact progresses_of_next? hs wf hint ht hnext

/-- Steps that make progress do not lead back to phase one. -/
theorem pairwise_keepsPhaseTwo {tabs : List (Tableau Exact model.numRows model.numCols)}
    (h : tabs.IsChain fun t next => ∃ θ, t.Progresses s θ next) :
    tabs.Pairwise KeepsPhaseTwo := by
  have hkeeps : tabs.IsChain KeepsPhaseTwo := by
    refine h.imp fun t next hprogress hphase => ?_
    obtain ⟨θ, hstep⟩ := hprogress
    exact (hstep.improves hphase).2.2.2
  exact hkeeps.pairwise

end Progress

end Tableau

/-! ## Whole solves -/

namespace Simplex

/-- No range of a model with intervals is empty. -/
theorem hasEmptyRange_eq_false {model : Model Exact} (hint : Tableau.HasIntervals model) :
    (Tableau.slackBasis model).hasEmptyRange 0 = false := by
  refine List.any_eq_false.mpr fun k _ => ?_
  simp only [Tableau.slackBasis, Tableau.get_ofFn, zero_eq, add_fin_zero, gt_iff_lt,
    decide_eq_true_eq]
  exact not_lt_of_le (hint k).ordered

/-- Without tolerances every step of a solve makes progress and breaks nothing, from the first
tableau to the last one, and phase one does not recur. -/
theorem run_progress (s : Simplex Exact) (wf : s.model.WellFormed)
    (hint : Tableau.HasIntervals s.model) (hs : s.settings.IsStrict) :
    s.heads.head? = some (Tableau.slackBasis s.model) ∧
    s.heads.getLast? = some s.run.tableau ∧ s.heads.length = s.run.pivots + 1 ∧
    (s.heads.IsChain fun t next => ∃ θ, t.Progresses s.settings θ next) ∧
    s.heads.Pairwise Tableau.KeepsPhaseTwo := by
  have hrange : (Tableau.slackBasis s.model).hasEmptyRange s.settings.tolFeas = false := by
    rw [hs.tolFeas]
    exact hasEmptyRange_eq_false hint
  have hheads : s.heads = Tableau.heads s.settings s.model.objective s.settings.maxPivots
      (Tableau.slackBasis s.model) := if_neg (Bool.eq_false_iff.mp hrange)
  have hrun : s.run = (Tableau.slackBasis s.model).iterate s.settings s.model.objective
      s.settings.maxPivots 0 := if_neg (Bool.eq_false_iff.mp hrange)
  obtain ⟨hcount, hlast, -⟩ := Tableau.iterate_heads (Tableau.slackBasis s.model) s.settings
    s.model.objective s.settings.maxPivots 0
  have hchain := Tableau.isChain_heads hs wf hint (Tableau.poised_slackBasis wf hint)
    s.settings.maxPivots
  rw [← hheads] at hcount hlast hchain
  rw [← hrun] at hcount hlast
  refine ⟨?_, hlast, by omega, hchain, Tableau.pairwise_keepsPhaseTwo hchain⟩
  rw [hheads, Tableau.head?_heads]

/-- The largest `x₀ + x₁` with `x₀ + x₁ ≥ 1`, `x₀ + 2 x₁ ≤ 4` and `x₀ ≤ 1`. -/
def climbing : Simplex Exact := .new
  { objective := #[1, 1]
    matrix := ⟨2, 2, .byRow, #[[(0, 1), (1, 1)], [(0, 1), (1, .fin 2)]]⟩
    rowLower := #[1, .negInf]
    rowUpper := #[.posInf, .fin 4]
    colLower := #[0, 0]
    colUpper := #[1, .posInf]
    kinds := #[.continuous, .continuous] } strict

theorem built_climbing : climbing.model.Built := by
  have rows : Model.Built { climbing.model with colUpper := #[.posInf, .posInf] } :=
    .ofRows #[1, 1] #[.continuous, .continuous]
      [([(0, 1), (1, 1)], 1, .posInf), ([(0, 1), (1, .fin 2)], .negInf, .fin 4)] (by cbv)
  exact rows.setColBounds (show Model.setColBounds _ 0 0 1 = _ from rfl)

/-- Phase one flips `x₀` to 1, which takes the time 1, and a pivot in phase two brings `x₁` to
`3/2`. -/
theorem run_progress_climbing : climbing.run.pivots = 2 ∧
    climbing.heads.map Tableau.violation = [1, 0, 0] ∧
    climbing.heads.map (fun t => climbing.model.objectiveValue t.columns)
      = [0, 1, .fin (5 / 2)] ∧
    (climbing.heads.IsChain fun t next => ∃ θ, t.Progresses climbing.settings θ next) ∧
    climbing.heads.Pairwise Tableau.KeepsPhaseTwo := by
  have wf := built_climbing.wellFormed
  have hint := hasIntervals (isProper_varRange wf (by decide)) (by decide +kernel)
  obtain ⟨-, -, -, hchain, hphase⟩ :=
    run_progress climbing wf hint ⟨rfl, rfl, rfl, rfl⟩
  exact ⟨by decide +kernel, by decide +kernel, by decide +kernel, hchain, hphase⟩

end Simplex

end MixedInteger
