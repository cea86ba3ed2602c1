import Mathlib.Data.List.Chain
import MixedInteger.Proofs.IterationCap
import MixedInteger.Proofs.NodeModels

/-!
# The record of the incumbent

The incumbent, its history and the number of its updates are written in one place of an iteration,
while its node enters the trace and the tree in another. At the end of every iteration they agree:
the history grows by the objective of each point that is better than the one before, and the
incumbent is the point, and its description the text, of an integral node in the trace.

* `Search.Improves`: a node becomes the incumbent;
* `Search.advance_incumbent`: an iteration leaves the incumbent or takes a node that becomes it;
* `Search.IncumbentRecord`: the record of the incumbent, kept wherever a run comes to;
* `incumbent_consistent`: what a solution over the simplex solver says about its incumbent.
-/

namespace MixedInteger

open Scalar

section Updates

variable {R α : Type} [Scalar α] [Relaxation R α]

/-- The relaxation of a node after a solve. -/
def Subproblem.solution (node : Subproblem R α) : R := (Relaxation.solve node.model).2

/-- What is recorded of a node that becomes the incumbent. -/
def Subproblem.record (node : Subproblem R α) : Found α :=
  ⟨Search.pointOf node.solution, describeSolution node.id node.solution, node.id⟩

namespace Search

/-- The incumbent and the number of its updates stay. -/
structure SameIncumbent (s s' : Search R α) : Prop where
  incumbent : s'.incumbent = s.incumbent
  updates : s'.tally.incumbentUpdates = s.tally.incumbentUpdates

/-- The node is integral and better than the incumbent, and becomes the incumbent. -/
structure Improves (plan : Plan α) (s : Search R α) (node : Subproblem R α)
    (s' : Search R α) : Prop where
  solved : (Relaxation.solve node.model).1 = .optimal
  whole : violations node.solution plan.settings.scope plan.settings.integralityTol = []
  better : s.incumbent.bestLowerBound < Relaxation.objectiveValue node.solution
  incumbent : s'.incumbent = ⟨some node.record, Relaxation.objectiveValue node.solution,
    s.incumbent.history.push (Relaxation.objectiveValue node.solution)⟩
  updates : s'.tally.incumbentUpdates = s.tally.incumbentUpdates + 1

omit [Scalar α] in
theorem size_pointOf (r : R) : (pointOf r : Point α).size = Relaxation.numVariables r := by
  simp [pointOf]

/-- Without a violation, no integral column in scope is fractional. -/
theorem isFractional_of_violations_eq_nil {r : R} {scope : Scope} {tol : α}
    (h : violations r scope tol = []) {j : Nat} (hj : j < Relaxation.numVariables r)
    (hkind : (Relaxation.kind r j).isIntegral = true)
    (hcovers : scope.covers (Relaxation.value r j) (Relaxation.objective r j) = true) :
    isFractional tol (Relaxation.value r j) = false := by
  have hnone := List.filterMap_eq_nil_iff.mp h j (List.mem_range.mpr hj)
  simpa [violation?, hkind, hcovers] using hnone

/-! ## One iteration -/

section Iteration

variable {plan : Plan α} {s s' : Search R α} {node : Subproblem R α} {r r' : R}
  {notices : List (Notice α)}

theorem addCuts_sameIncumbent {id : NodeId} (h : s.addCuts plan id r = .ok (s', r')) :
    s.SameIncumbent s' := by
  unfold addCuts at h
  dsimp only at h
  split at h
  · cases h
    exact ⟨rfl, rfl⟩
  · obtain ⟨⟨row, cuts, oracle⟩, -, hdone⟩ := exists_ok_of_bind h
    cases hdone
    exact ⟨rfl, rfl⟩

theorem branch_sameIncumbent {bound : α} {vs : List (Violation α)}
    (h : s.branch plan node r bound vs = (notices, .ok s')) : s.SameIncumbent s' := by
  obtain ⟨pick, s₁, r₁, fractions, more, -, htight, hadd, -⟩ := branch_parts h
  have hcuts : s.SameIncumbent s₁ := by
    rcases htight with ⟨-, hcuts⟩ | ⟨rfl, -⟩
    · exact addCuts_sameIncumbent hcuts
    · exact ⟨rfl, rfl⟩
  obtain ⟨s₂, first, second, hfirst, hsecond, -⟩ := addChildren_parts hadd
  obtain ⟨moved, tree, bound₁, -, -, -, rfl⟩ := addChild_parts hfirst
  obtain ⟨moved', tree', bound₂, -, -, -, rfl⟩ := addChild_parts hsecond
  exact ⟨hcuts.incumbent, hcuts.updates⟩

/-- Only an integral node that is better than the incumbent changes it. -/
theorem process_incumbent {d : Disposal R α} (h : s.process plan node = (notices, .ok d)) :
    s.SameIncumbent d.search ∨ (d.fate = .prunedIntegral ∧ s.Improves plan node d.search) := by
  unfold process at h
  dsimp only at h
  split at h
  · cases h
    exact .inl ⟨rfl, rfl⟩
  · rename_i hclass
    cases h
    obtain ⟨hopt, hwhole⟩ := classify_integral hclass
    unfold offer
    split
    · rename_i hbetter
      exact .inr ⟨rfl, hopt, hwhole, of_decide_eq_true hbetter, if_pos hbetter, rfl⟩
    · exact .inl ⟨rfl, rfl⟩
  · split at h
    · cases h
      exact .inl ⟨rfl, rfl⟩
    · obtain ⟨s', hs', rfl⟩ := exists_ok_of_map (congrArg Prod.snd h)
      exact .inl (branch_sameIncumbent (Prod.ext rfl hs'))

/-- An iteration leaves the incumbent, or the node that it takes becomes it. -/
theorem advance_incumbent {p : Progress R α} (hwaits : s.pool.isEmpty = false)
    (h : s.advance plan = (notices, .ok p)) :
    ∃ node k pool fate,
      s.pool.take? plan.settings.nodeOrder.selector = some ((node, k), pool) ∧
      p.search.trace = s.trace.push (node.id, fate) ∧
      (s.SameIncumbent p.search ∨ (fate = .prunedIntegral ∧ s.Improves plan node p.search)) := by
  obtain ⟨node, k, pool, told, d, htake, hprocess, hconclude, -⟩ := advance_parts hwaits h
  obtain ⟨tree, -, hsearch⟩ := conclude_eq_ok hconclude
  have htrace : d.search.trace = s.trace := by
    rcases process_cases hprocess with ⟨-, -, hsame⟩ | ⟨-, pick, -, hsplit⟩
    · exact hsame.trace
    · exact hsplit.trace
  have hupdates : (d.search.tally.record d.fate).incumbentUpdates
      = d.search.tally.incumbentUpdates := by
    cases d.fate <;> rfl
  refine ⟨node, k, pool, d.fate, htake, by rw [hsearch, htrace], ?_⟩
  rw [hsearch]
  rcases process_incumbent hprocess with hsame | ⟨hfate, hbetter⟩
  · exact .inl ⟨hsame.incumbent, hupdates.trans hsame.updates⟩
  · exact .inr ⟨hfate, hbetter.solved, hbetter.whole, hbetter.better, hbetter.incumbent,
      hupdates.trans hbetter.updates⟩

end Iteration

/-! ## Whole runs -/

/-- The incumbent was found at `node`: an iteration of the run has taken it and pruned it as
integral. -/
structure IncumbentAt (plan : Plan α) (root : R) (s : Search R α) (node : Subproblem R α) :
    Prop where
  taken : ∃ picks t k pool, Visits plan root picks t ∧
    t.pool.take? plan.settings.nodeOrder.selector = some ((node, k), pool) ∧
    s.trace[t.trace.size]? = some (node.id, .prunedIntegral)
  solved : (Relaxation.solve node.model).1 = .optimal
  whole : violations node.solution plan.settings.scope plan.settings.integralityTol = []
  found : s.incumbent.found = some node.record
  objective : s.incumbent.bestLowerBound = Relaxation.objectiveValue node.solution

/-- The record of the incumbent: each objective in its history is larger than the one before and
counts as an update, the last one is that of the incumbent, and there is an incumbent as soon as
there is a history. -/
structure IncumbentRecord (plan : Plan α) (root : R) (s : Search R α) : Prop where
  increasing : s.incumbent.history.toList.IsChain (· < ·)
  counted : s.incumbent.history.size = s.tally.incumbentUpdates
  last : s.incumbent.bestLowerBound = s.incumbent.history.back?.getD negInf
  origin : (s.incumbent.history = #[] ∧ s.incumbent.found = none) ∨
    (s.incumbent.history ≠ #[] ∧ ∃ node, IncumbentAt plan root s node)

section Runs

variable {plan : Plan α} {root : R} {s : Search R α} {picks : List (Violation α)}

theorem incumbentRecord_initial : IncumbentRecord plan root (initial plan.settings root) :=
  ⟨.nil, rfl, rfl, .inl ⟨rfl, rfl⟩⟩

/-- An entry of the trace stays where it is. -/
theorem getElem?_push_of_some {β : Type} {xs : Array β} {x y : β} {i : Nat}
    (h : xs[i]? = some x) : (xs.push y)[i]? = some x := by
  obtain ⟨hlt, -⟩ := Array.getElem?_eq_some_iff.mp h
  rw [Array.getElem?_push, if_neg (Nat.ne_of_lt hlt)]
  exact h

/-- The history grows by a larger objective. -/
theorem IncumbentRecord.increasing_push (hs : IncumbentRecord plan root s) {objective : α}
    (hbetter : s.incumbent.bestLowerBound < objective) :
    (s.incumbent.history.push objective).toList.IsChain (· < ·) := by
  rw [Array.toList_push]
  apply hs.increasing.append (.singleton objective)
  intro previous hprevious next hnext
  have hlast := hs.last
  rw [Array.getLast?_toList] at hprevious
  rw [hprevious] at hlast
  cases hnext
  rw [← Option.getD_some (a := previous) (b := negInf), ← hlast]
  exact hbetter

theorem IncumbentRecord.advance (hs : IncumbentRecord plan root s)
    (hvisits : Visits plan root picks s) (hwaits : s.pool.isEmpty = false)
    {notices : List (Notice α)} {p : Progress R α} (h : s.advance plan = (notices, .ok p)) :
    IncumbentRecord plan root p.search := by
  obtain ⟨node, k, pool, fate, htake, htrace, hsame | ⟨rfl, hbetter⟩⟩ :=
    advance_incumbent hwaits h
  · constructor
    case increasing =>
      rw [hsame.incumbent]
      exact hs.increasing
    case counted =>
      rw [hsame.incumbent, hsame.updates]
      exact hs.counted
    case last =>
      rw [hsame.incumbent]
      exact hs.last
    case origin =>
      rw [hsame.incumbent]
      refine hs.origin.imp_right (And.imp_right ?_)
      rintro ⟨other, ⟨picks', t, j, pool', ht, htake', hentry⟩, hsolved, hwhole, hfound, hobjective⟩
      refine ⟨other, ⟨picks', t, j, pool', ht, htake', ?_⟩, hsolved, hwhole, ?_, ?_⟩
      · rw [htrace]
        exact getElem?_push_of_some hentry
      · rw [hsame.incumbent]
        exact hfound
      · rw [hsame.incumbent]
        exact hobjective
  · have hincumbent := hbetter.incumbent
    constructor
    case increasing =>
      rw [hincumbent]
      exact hs.increasing_push hbetter.better
    case counted =>
      rw [hincumbent, hbetter.updates, Array.size_push, hs.counted]
    case last =>
      rw [hincumbent, Array.back?_push]
      rfl
    case origin =>
      right
      refine ⟨by rw [hincumbent]; exact Array.push_ne_empty, node,
        ⟨picks, s, k, pool, hvisits, htake, ?_⟩, hbetter.solved, hbetter.whole, ?_, ?_⟩
      · rw [htrace, Array.getElem?_push_size]
      · rw [hincumbent]
      · rw [hincumbent]

theorem Visits.incumbentRecord (h : Visits plan root picks s) : IncumbentRecord plan root s := by
  induction h with
  | start => exact incumbentRecord_initial
  | next hvisits hwaits hadvance ih => exact ih.advance hvisits hwaits hadvance

end Runs

end Search

/-- A run that returns has settled its search, which says whether there is a point, or is
interrupted. -/
theorem branchAndCut_status {L : Type} [Link L] {plan : Plan α} {root : R}
    {around : Surroundings L} {telemetry : Telemetry L} {sol : Solution α}
    (h : (branchAndCut plan around telemetry root).result = .ok sol) :
    ∃ picks s, Search.Visits plan root picks s ∧ sol = Solution.ofSearch s sol.status ∧
      (sol.status = Session.settledStatus s ∨ sol.status = .interrupted) := by
  unfold branchAndCut at h
  split at h
  · cases h
  · obtain ⟨s₀, hstart, hrun⟩ := Session.result_run plan around
      ⟨Search.initial plan.settings root, telemetry, #[]⟩
    rw [hrun] at h
    generalize hexplore : s₀.explore plan around plan.settings.maxIterations.toNat = last at h
    obtain ⟨ending, s⟩ := last
    obtain ⟨picks, hvisits⟩ := Session.explore_visits hexplore (by rw [hstart]; exact .start)
    refine ⟨picks, s.search, hvisits, ?_⟩
    cases ending with
    | settled =>
      cases h
      exact ⟨rfl, .inl rfl⟩
    | cancelled =>
      cases h
      exact ⟨rfl, .inr rfl⟩
    | failed e => cases h

end Updates

/-! ## Runs over the simplex solver -/

variable {α : Type} [Scalar α]

/-- What the simplex solver finds at an optimum has the objective that it reports. -/
theorem Subproblem.objectiveValue_solution {node : Subproblem (Simplex α) α}
    (h : (Relaxation.solve node.model).1 = .optimal) :
    Relaxation.objectiveValue node.solution
      = node.model.model.objectiveValue (Search.pointOf node.solution) := by
  have hopt : node.model.solve.status = .optimal := by
    generalize hstatus : node.model.solve.status = status
    have hverdict : Simplex.verdict status = .optimal := hstatus ▸ h
    cases status with
    | optimal => rfl
    | unbounded | infeasible | iterationLimit | notSolved => cases hverdict
  exact Simplex.objectiveValue_solve hopt

/-- What a solution over the simplex solver says of its incumbent: there is one value for each
column, the objective is that of the root model at these values, and the columns in scope are
integral. They are the point of a node that the run has taken, that the trace and the tree know as
integral, and whose description is the one of the solution. -/
structure Solution.Attained (plan : Plan α) (root : Simplex α) (sol : Solution α) : Prop where
  status : sol.status = .optimal ∨ sol.status = .interrupted
  size : sol.values.size = root.model.numCols
  objective : sol.objective = root.model.objectiveValue sol.values
  integral : ∀ j < root.model.numCols, (root.model.kind j).isIntegral = true →
    plan.settings.scope.covers (sol.values.coord j) (Point.coord root.model.objective j) = true →
    isFractional plan.settings.integralityTol (sol.values.coord j) = false
  node : ∃ picks s node k pool, Search.Visits plan root picks s ∧
    s.pool.take? plan.settings.nodeOrder.selector = some ((node, k), pool) ∧
    sol.incumbentNode = some node.id ∧
    sol.trace[s.trace.size]? = some (node.id, .prunedIntegral) ∧
    (∃ n, sol.tree.get? node.id = some n ∧ n.mark = .prunedIntegral) ∧
    sol.values = Search.pointOf node.solution ∧
    sol.description = some (describeSolution node.id node.solution)

section Solver

variable {plan : Plan α} {root : Simplex α}

/-- The columns of a node that waits are those of the root. -/
theorem Search.Visits.columns {picks : List (Violation α)} {s : Search (Simplex α) α}
    (h : Visits plan root picks s) {node : Subproblem (Simplex α) α}
    (hnode : node ∈ s.pool.waiting) :
    node.model.model.objective = root.model.objective ∧
      node.model.model.kinds = root.model.kinds :=
  h.lasting (Simplex.lasting_columns root.model.objective root.model.kinds) ⟨rfl, rfl⟩ node hnode

/-- A search with an incumbent gives a solution that has attained it. -/
theorem Search.IncumbentAt.attained {s : Search (Simplex α) α} {picks : List (Violation α)}
    (hvisits : Visits plan root picks s) {node : Subproblem (Simplex α) α}
    (h : IncumbentAt plan root s node) {status : Status}
    (hstatus : status = .optimal ∨ status = .interrupted) :
    (Solution.ofSearch s status).Attained plan root := by
  obtain ⟨⟨picks', t, k, pool, ht, htake, hentry⟩, hsolved, hwhole, hfound, hobjective⟩ := h
  have hvalues : (Solution.ofSearch s status).values = pointOf node.solution := by
    simp [Solution.ofSearch, hfound, Subproblem.record]
  obtain ⟨hcosts, hkinds⟩ := ht.columns (NodePool.mem_of_take? htake)
  have hcols : Relaxation.numVariables node.solution = root.model.numCols :=
    congrArg Array.size hcosts
  constructor
  case status => exact hstatus
  case size =>
    rw [hvalues, size_pointOf, hcols]
  case objective =>
    rw [hvalues, Model.objectiveValue, ← hcosts]
    exact hobjective.trans (Subproblem.objectiveValue_solution hsolved)
  case integral =>
    intro j hj hkind hcovers
    rw [← hcols] at hj
    rw [hvalues, coord_pointOf _ hj] at hcovers ⊢
    apply isFractional_of_violations_eq_nil hwhole hj
    · rw [Model.kind, ← hkinds] at hkind
      exact hkind
    · rw [← hcosts] at hcovers
      exact hcovers
  case node =>
    refine ⟨picks', t, node, k, pool, ht, htake, ?_, hentry, ?_, hvalues, ?_⟩
    · simp [Solution.ofSearch, hfound, Subproblem.record]
    · exact hvisits.ledger.filed.marked node.id _ (Array.mem_of_getElem? hentry)
    · simp [Solution.ofSearch, hfound, Subproblem.record]

/-- A run over the simplex solver that returns, whatever its arithmetic rounds to, has a consistent
incumbent. The objectives in the bound history increase, each of them is counted as an update, and
the last one is the objective of the solution. With a history the solution has attained it; without
one there is no incumbent at all. -/
theorem incumbent_consistent (plan : Plan α) (root : Simplex α) {L : Type} [Link L]
    (around : Surroundings L) (telemetry : Telemetry L) {sol : Solution α}
    (h : (branchAndCut plan around telemetry root).result = .ok sol) :
    sol.boundHistory.toList.IsChain (· < ·) ∧
    sol.boundHistory.size = sol.tally.incumbentUpdates ∧
    sol.objective = sol.boundHistory.back?.getD negInf ∧
    (sol.boundHistory ≠ #[] → sol.Attained plan root) ∧
    (sol.boundHistory = #[] → (sol.status = .infeasible ∨ sol.status = .interrupted) ∧
      sol.description = none ∧ sol.incumbentNode = none) := by
  obtain ⟨picks, s, hvisits, hsol, hstatus⟩ := branchAndCut_status h
  have hrecord := hvisits.incumbentRecord
  rw [hsol]
  refine ⟨hrecord.increasing, hrecord.counted, hrecord.last, ?_, ?_⟩
  · intro hhistory
    obtain ⟨-, node, hnode⟩ := hrecord.origin.resolve_left (fun hnone => hhistory hnone.1)
    apply hnode.attained hvisits
    rcases hstatus with hsettled | hinterrupted
    · left
      rw [hsettled, Session.settledStatus, hnode.found]
      rfl
    · exact .inr hinterrupted
  · intro hhistory
    obtain ⟨-, hnone⟩ := hrecord.origin.resolve_right (fun hsome => hsome.1 hhistory)
    refine ⟨?_, ?_, ?_⟩
    · rcases hstatus with hsettled | hinterrupted
      · left
        change sol.status = .infeasible
        rw [hsettled, Session.settledStatus, hnone]
        rfl
      · exact .inr hinterrupted
    · simp [Solution.ofSearch, hnone]
    · simp [Solution.ofSearch, hnone]

end Solver

/-- The floor side of the root, node 2, has the only incumbent. -/
theorem incumbent_consistent_capped : ∃ sol : Solution Exact,
    (branchAndCut ⟨plainSettings, CutPool.mostRecent⟩ .quiet Telemetry.disabled
      (Simplex.ofModel OneColumn.capped.model)).result = .ok sol ∧
    sol.boundHistory = #[.fin 2] ∧ sol.values = #[.fin 2] ∧ sol.incumbentNode = some 2 ∧
    sol.tally.incumbentUpdates = 1 ∧
    sol.Attained ⟨plainSettings, CutPool.mostRecent⟩ (Simplex.ofModel OneColumn.capped.model) := by
  have hrun : (branchAndCut ⟨plainSettings, CutPool.mostRecent⟩ .quiet Telemetry.disabled
      (Simplex.ofModel OneColumn.capped.model)).result.map
        (fun sol => (sol.boundHistory, sol.values, sol.incumbentNode))
      = .ok (#[.fin 2], #[.fin 2], some 2) := by
    cbv
  obtain ⟨sol, hsol, hread⟩ := exists_ok_of_map hrun
  simp only [Prod.mk.injEq] at hread
  obtain ⟨hhistory, hvalues, hnode⟩ := hread
  obtain ⟨-, hcounted, -, hattained, -⟩ := incumbent_consistent _ _ _ _ hsol
  refine ⟨sol, hsol, hhistory, hvalues, hnode, ?_, hattained ?_⟩
  · rw [← hcounted, hhistory]
    rfl
  · simp [hhistory]

end MixedInteger
