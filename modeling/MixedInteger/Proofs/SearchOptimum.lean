import Mathlib
import MixedInteger.Proofs.Coverage
import MixedInteger.Proofs.OneColumn
import MixedInteger.Proofs.SearchStep

/-!
# What a finished search has found

A search over an exact oracle that ends as optimal has found a best integral point of the root
model, and one that ends as infeasible has shown that there is no integral point. Observers, the log
and the order of the nodes play no part.

* `explore_settled`: a loop that ends by itself leaves a settled search;
* `branchAndCut_result`: the result of a search whose cuts are safe;
* `branchAndBound_exact`: the result of a search without cuts.
-/

namespace MixedInteger

open Exact hiding isFinite isNaN

variable {R L : Type} [Relaxation R Exact] [Link L] {model : R → Model Exact} {root : R}

/-- With no node left, every integral point is beaten. -/
theorem Search.Sound.settled_of_isEmpty {settings : Settings Exact} {s : Search R Exact}
    (hs : s.Sound model root settings) (hempty : s.pool.isEmpty = true) :
    s.Settled model root settings.scope := by
  refine ⟨hs.incumbent, fun x hx => (hs.covered x hx).resolve_right ?_⟩
  rintro ⟨node, hnode, -⟩
  simp only [NodePool.isEmpty, Array.isEmpty_iff] at hempty
  simp [hempty] at hnode

namespace Session

/-- Exploring keeps the invariant from iteration to iteration, so that a search that has no node
left, or is stopped at its root, is settled. -/
theorem explore_settled (oracle : ExactOracle model root) (wf : (model root).WellFormed)
    {plan : Plan Exact} (hcuts : CutsSafe model root plan)
    (htol : plan.settings.integralityTol = 0) (around : Surroundings L) {remaining : Nat}
    {s s' : Session R Exact L} (hs : s.search.Sound model root plan.settings)
    (h : s.explore plan around remaining = (.settled, s')) :
    s'.search.Settled model root plan.settings.scope := by
  induction remaining generalizing s with
  | zero =>
    unfold explore at h
    split at h
    · rename_i hempty
      cases h
      exact hs.settled_of_isEmpty hempty
    · split at h <;> simp at h
  | succ left ih =>
    unfold explore at h
    split at h
    · rename_i hempty
      cases h
      exact hs.settled_of_isEmpty hempty
    · rename_i hempty
      split at h
      · simp at h
      · cases hadv : s.search.advance plan with
        | mk notices result =>
          cases result with
          | error e => simp [hadv] at h
          | ok p =>
            have hp := advance_sound oracle wf hcuts htol hs (by simpa using hempty) hadv
            simp only [hadv] at h
            split at h
            · cases h
              rw [search_publish]
              exact hp.2 ‹_›
            · refine ih ?_ h
              rw [search_publish]
              exact hp.1

end Session

/-- What the result of a search says about the root model. -/
def Solution.Correct (m : Model Exact) (scope : Scope) (sol : Solution Exact) : Prop :=
  (sol.status = .optimal → m.IsOptimum scope sol.values sol.objective) ∧
  (sol.status = .infeasible → (¬ ∃ x, m.IntegralPoint scope x) ∧ sol.objective = .negInf)

omit [Relaxation R Exact] in
theorem Search.Settled.correct (wf : (model root).WellFormed) {scope : Scope} {s : Search R Exact}
    (hs : s.Settled model root scope) :
    (Solution.ofSearch s (Session.settledStatus s)).Correct (model root) scope := by
  unfold Session.settledStatus
  cases hf : s.incumbent.found with
  | none =>
    refine ⟨by simp [Solution.ofSearch], fun _ => ⟨?_, hs.incumbent.empty hf⟩⟩
    rintro ⟨x, hx⟩
    have hle := hs.beaten x hx
    rw [Beaten, hs.incumbent.empty hf,
      Model.objectiveValue_eq wf.objective hx.admits.rational hx.admits.size] at hle
    exact not_fin_le_negInf _ hle
  | some f =>
    obtain ⟨hpoint, hobj⟩ := hs.incumbent.found f hf
    refine ⟨fun _ => ?_, by simp [Solution.ofSearch]⟩
    have hvalues : (Solution.ofSearch s .optimal).values = f.point := by
      simp [Solution.ofSearch, hf]
    exact ⟨hvalues ▸ hpoint, hvalues ▸ hobj, hs.beaten⟩

/-- A search whose cuts are safe ends with a correct result, unless it is cancelled or fails. -/
theorem branchAndCut_result (oracle : ExactOracle model root) (wf : (model root).WellFormed)
    {plan : Plan Exact} (hcuts : CutsSafe model root plan)
    (htol : plan.settings.integralityTol = 0) (around : Surroundings L) (telemetry : Telemetry L)
    {sol : Solution Exact} (h : (branchAndCut plan around telemetry root).result = .ok sol) :
    sol.Correct (model root) plan.settings.scope := by
  unfold branchAndCut at h
  split at h
  · cases h
  · simp only [Session.run] at h
    split at h
    · rename_i s hexplore
      cases h
      have hsettled := Session.explore_settled oracle wf hcuts htol around
        (initial_sound plan.settings wf) hexplore
      exact hsettled.correct wf
    · cases h
      exact ⟨by simp [Solution.ofSearch], by simp [Solution.ofSearch]⟩
    · cases h

/-- Branch and bound is exact. Over an exact oracle, in every node order and with every branching
rule, a search without cuts that ends as optimal returns an integral point of the root model with
the largest objective of all, and one that ends as infeasible has none to return. -/
theorem branchAndBound_exact (oracle : ExactOracle model root) (built : (model root).Built)
    (plan : Plan Exact) (hoff : plan.settings.cutStrategy = .off)
    (htol : plan.settings.integralityTol = 0) (around : Surroundings L) (telemetry : Telemetry L)
    {sol : Solution Exact} (h : (branchAndCut plan around telemetry root).result = .ok sol) :
    (sol.status = .optimal →
      (model root).IsOptimum plan.settings.scope sol.values sol.objective) ∧
    (sol.status = .infeasible →
      ¬ ∃ x, (model root).IntegralPoint plan.settings.scope x) := by
  have hcorrect := branchAndCut_result oracle built.wellFormed (cutsSafe_off oracle hoff) htol
    around telemetry h
  exact ⟨hcorrect.1, fun hinf => (hcorrect.2 hinf).1⟩

/-- One integral column between 0 and 10, to be as large as `2 x ≤ 5` allows. -/
def OneColumn.capped : OneColumn where
  model := {
    objective := #[1]
    matrix := ⟨1, 1, .byRow, #[[(0, .fin 2)]]⟩
    rowLower := #[.negInf]
    rowUpper := #[.fin 5]
    colLower := #[0]
    colUpper := #[.fin 10]
    kinds := #[.integer] }
  found := none

theorem OneColumn.built_capped : capped.model.Built := by
  let column (upper : Exact) : Model Exact :=
    ⟨#[1], .zero 0 1, #[], #[], #[0], #[upper], #[.integer]⟩
  have empty : (column .posInf).Built := .new (show Model.new? #[1] #[.integer] = _ by cbv)
  have bounded : (column (.fin 10)).Built :=
    empty.setColBounds (show Model.setColBounds _ 0 0 (.fin 10) = _ from rfl)
  exact bounded.addRow (show Model.addRow _ [(0, .fin 2)] .negInf (.fin 5) = _ from rfl)

theorem OneColumn.fits_capped : Fits capped.model := ⟨built_capped.wellFormed, rfl, rfl, rfl⟩

/-- Integrality is exact and concerns all columns; there are no cuts. -/
def plainSettings : Settings Exact :=
  { Settings.default with integralityTol := 0, scope := .allColumns }

/-- Branching at `5/2` leads to the optimum 2 after three nodes. -/
theorem branchAndBound_exact_capped : ∃ sol : Solution Exact,
    (branchAndCut ⟨plainSettings, CutPool.mostRecent⟩ .quiet Telemetry.disabled
      OneColumn.capped).result = .ok sol ∧ sol.trace.size = 3 ∧
    OneColumn.capped.model.IsOptimum .allColumns sol.values (.fin 2) := by
  have hrun : (branchAndCut ⟨plainSettings, CutPool.mostRecent⟩ .quiet Telemetry.disabled
      OneColumn.capped).result.map (fun sol => (sol.status, sol.objective, sol.trace.size))
      = .ok (.optimal, .fin 2, 3) := by
    cbv
  obtain ⟨sol, hsol, heq⟩ := exists_ok_of_map hrun
  obtain ⟨hstatus, hobj, htrace⟩ : sol.status = .optimal ∧ sol.objective = .fin 2 ∧
      sol.trace.size = 3 := by
    simpa using heq
  have hexact := branchAndBound_exact (OneColumn.exactOracle OneColumn.fits_capped)
    OneColumn.built_capped _ rfl rfl _ _ hsol
  exact ⟨sol, hsol, htrace, hobj ▸ hexact.1 hstatus⟩

end MixedInteger
