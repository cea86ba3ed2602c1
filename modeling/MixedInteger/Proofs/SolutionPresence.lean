import MixedInteger.Proofs.IncumbentRecord

/-!
# Whether there is a solution

A solution says in several ways whether a point was found. Its status, its description and its bound
history follow the incumbent. `Solution.hasSolution` looks at the values instead, and there are as
many of them as columns: it says the same as the others if there is a column, and misses every
incumbent if there is none.

* `Solution.Presence`: what the parts of a solution say about its incumbent;
* `Search.Visits.presence`: the solution of a search at any time;
* `solution_presence`: the solutions of whole runs;
* `hasSolution_misses_incumbent`: an optimal solution that does not show.
-/

namespace MixedInteger

variable {α : Type} [Scalar α]

/-- How a solution with so many columns shows that there is an incumbent. -/
structure Solution.Presence (columns : Nat) (sol : Solution α) : Prop where
  described : sol.description.isSome = true ↔ sol.boundHistory ≠ #[]
  located : sol.incumbentNode.isSome = true ↔ sol.boundHistory ≠ #[]
  optimal : sol.status = .optimal → sol.boundHistory ≠ #[]
  infeasible : sol.status = .infeasible → sol.boundHistory = #[]
  attached : sol.hasSolution = true ↔ sol.boundHistory ≠ #[] ∧ columns ≠ 0

omit [Scalar α] in
theorem Solution.hasSolution_eq_true {sol : Solution α} :
    sol.hasSolution = true ↔ sol.values.size ≠ 0 := by
  simp [hasSolution, Array.isEmpty]

/-- Wherever a run comes to, the solution shows an incumbent by all signs or by none, up to the
values of a model without columns. -/
theorem Search.Visits.presence {plan : Plan α} {root : Simplex α} {picks : List (Violation α)}
    {s : Search (Simplex α) α} (h : Visits plan root picks s) {status : Status}
    (hstatus : status = Session.settledStatus s ∨ status = .interrupted) :
    (Solution.ofSearch s status).Presence root.model.numCols := by
  -- The history and the incumbent are written together, so they are there together.
  rcases h.incumbentRecord.origin with ⟨hhistory, hnone⟩ | ⟨hhistory, node, hnode⟩
  · have hempty : (Solution.ofSearch s status).boundHistory = #[] := hhistory
    constructor
    case described => simp [Solution.ofSearch, hnone, hhistory]
    case located => simp [Solution.ofSearch, hnone, hhistory]
    case optimal =>
      rintro (rfl : status = .optimal)
      rw [Session.settledStatus, hnone] at hstatus
      rcases hstatus with hsettled | hinterrupted
      · cases hsettled
      · cases hinterrupted
    case infeasible => exact fun _ => hempty
    case attached => simp [Solution.hasSolution, Solution.ofSearch, hnone, hhistory]
  · have hshown : (Solution.ofSearch s status).boundHistory ≠ #[] := hhistory
    have hsize : (Solution.ofSearch s status).values.size = root.model.numCols :=
      (hnode.attained h (.inl rfl)).size
    constructor
    case described => simp [Solution.ofSearch, hnode.found, hhistory]
    case located => simp [Solution.ofSearch, hnode.found, hhistory]
    case optimal => exact fun _ => hshown
    case infeasible =>
      rintro (rfl : status = .infeasible)
      rw [Session.settledStatus, hnode.found] at hstatus
      rcases hstatus with hsettled | hinterrupted
      · cases hsettled
      · cases hinterrupted
    case attached =>
      rw [Solution.hasSolution_eq_true, hsize]
      exact ⟨fun hcols => ⟨hshown, hcols⟩, And.right⟩

theorem branchAndCut_presence {plan : Plan α} {root : Simplex α} {L : Type} [Link L]
    {around : Surroundings L} {telemetry : Telemetry L} {sol : Solution α}
    (h : (branchAndCut plan around telemetry root).result = .ok sol) :
    sol.Presence root.model.numCols := by
  obtain ⟨picks, s, hvisits, hsol, hstatus⟩ := branchAndCut_status h
  rw [hsol]
  exact hvisits.presence hstatus

/-- A solve that returns has passed both validations and has the result of its search. -/
theorem solveModel_eq_ok {model : Model α} {settings : Settings α} {sol : Solution α}
    (h : (solveModel model settings).result = .ok sol) :
    (branchAndCut ⟨settings, CutPool.mostRecent⟩ .quiet Telemetry.disabled
      (Simplex.ofModel model)).result = .ok sol := by
  unfold solveModel at h
  split at h
  · cases h
  · cases h
  · exact h

/-- What a solution shows of its incumbent, observed or not. There is a description, and a node,
just if there is a bound history; an optimal solution has one and an infeasible one has not. Values
are attached just if there is a history and the model has a column. -/
theorem solution_presence (model : Model α) (settings : Settings α) :
    (∀ sol, (solveModel model settings).result = .ok sol → sol.Presence model.numCols) ∧
    ∀ (L : Type) [Link L] (around : Surroundings L) (telemetry : Telemetry L) (sol : Solution α),
      (branchAndCut ⟨settings, CutPool.mostRecent⟩ around telemetry
        (Simplex.ofModel model)).result = .ok sol → sol.Presence model.numCols := by
  constructor
  · intro sol h
    exact branchAndCut_presence (solveModel_eq_ok h)
  · intro L _ around telemetry sol h
    exact branchAndCut_presence h

theorem solution_presence_capped : ∃ sol : Solution Exact,
    (solveModel OneColumn.capped.model plainSettings).result = .ok sol ∧
    sol.boundHistory = #[.fin 2] ∧ sol.hasSolution = true ∧ sol.description.isSome = true := by
  have hrun : (solveModel OneColumn.capped.model plainSettings).result.map Solution.boundHistory
      = .ok #[.fin 2] := by
    cbv
  obtain ⟨sol, hsol, hhistory⟩ := exists_ok_of_map hrun
  have hpresence := (solution_presence _ _).1 sol hsol
  have hshown : sol.boundHistory ≠ #[] := by simp [hhistory]
  exact ⟨sol, hsol, hhistory, hpresence.attached.mpr ⟨hshown, by decide⟩,
    hpresence.described.mpr hshown⟩

/-- A model without columns and rows. -/
def emptyModel : Model Exact where
  objective := #[]
  matrix := .zero 0 0
  rowLower := #[]
  rowUpper := #[]
  colLower := #[]
  colUpper := #[]
  kinds := #[]

/-- Its only point has the objective zero and is found at the root, but has no values to show. -/
theorem hasSolution_misses_incumbent : emptyModel.validate = .ok () ∧
    plainSettings.validate = .ok () ∧ ∃ sol : Solution Exact,
      (solveModel emptyModel plainSettings).result = .ok sol ∧ sol.status = .optimal ∧
      sol.boundHistory = #[0] ∧ sol.description = some "[1] 0 = 0" ∧ sol.hasSolution = false := by
  have hrun : (solveModel emptyModel plainSettings).result.map (fun sol =>
      (sol.status, sol.boundHistory, sol.description, sol.hasSolution))
      = .ok (.optimal, #[0], some "[1] 0 = 0", false) := by
    cbv
  obtain ⟨sol, hsol, hread⟩ := exists_ok_of_map hrun
  simp only [Prod.mk.injEq] at hread
  exact ⟨by decide +kernel, by decide +kernel, sol, hsol, hread⟩

end MixedInteger
