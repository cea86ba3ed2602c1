import MixedInteger.Proofs.NodeDisposal

/-!
# Nodes and their bounds

In exact arithmetic the bound of a solved node is the largest objective that its model admits. A
child admits the points of its parent on one side of the split, so that its bound is no larger, and
no point is on both sides.

* `Model.HasBound`: the largest objective of a model;
* `Reachable`: the states that a search may bring a relaxation to;
* `ExactOracle.derived`: an exact oracle is one from every state on;
* `Violation.SplitsAt`, `ExactOracle.picked`: the value that a node is branched on;
* `Subproblem.Bounded`: a node whose bound is that of its model;
* `Subproblem.Part`, `ExactOracle.split`: what the children of a branched node stand for.
-/

namespace MixedInteger

open Exact hiding isFinite isNaN
open Scalar (isFinite isNaN)

/-! ## Bounds of models -/

/-- `b` is the largest objective of an admitted point, `-∞` if none is admitted. -/
inductive Model.HasBound (m : Model Exact) : Exact → Prop where
  | maximal {x : Point Exact} (h : m.IsMaximal x) : HasBound m (m.objectiveValue x)
  | empty (h : ¬ ∃ x, m.Admits x) : HasBound m .negInf

namespace Model.HasBound

variable {m m' : Model Exact} {b b' : Exact} {x : Point Exact}

theorem le (h : m.HasBound b) (hx : m.Admits x) : m.objectiveValue x ≤ b := by
  cases h with
  | maximal hmax => exact hmax.le x hx
  | empty hno => exact absurd ⟨x, hx⟩ hno

/-- A bound is rational or `-∞`. -/
theorem cases_fin (h : m.HasBound b) (hobj : Point.IsRational m.objective) :
    (∃ q : ℚ, b = .fin q) ∨ b = .negInf := by
  cases h with
  | maximal hmax =>
    exact .inl ⟨_, Model.objectiveValue_eq hobj hmax.admits.rational hmax.admits.size⟩
  | empty _ => exact .inr rfl

theorem isNaN_eq (h : m.HasBound b) (hobj : Point.IsRational m.objective) :
    isNaN b = false := by
  rcases h.cases_fin hobj with ⟨q, rfl⟩ | rfl
  · rfl
  · rfl

/-- With fewer points the bound does not grow. -/
theorem mono (h : m.HasBound b) (h' : m'.HasBound b') (hrestr : m'.Restricts m) : b' ≤ b := by
  cases h' with
  | maximal hmax =>
    rw [hrestr.objectiveValue]
    exact h.le (hrestr.admits _ hmax.admits)
  | empty _ =>
    have hobj : Point.IsRational m.objective := hrestr.objective ▸ hrestr.wellFormed.objective
    rcases h.cases_fin hobj with ⟨q, rfl⟩ | rfl
    · exact negInf_le_fin q
    · exact Exact.le_refl rfl

theorem unique (h : m.HasBound b) (h' : m.HasBound b') (wf : m.WellFormed) : b = b' :=
  Exact.le_antisymm (h'.mono h (.refl wf)) (h.mono h' (.refl wf))

end Model.HasBound

/-! ## Oracles from a state on -/

variable {R : Type} [Relaxation R Exact] {model : R → Model Exact} {root r r' : R}

/-- The states that a search may bring `root` to: whatever rows its cuts add, the bounds that it
moves are rational. -/
inductive Reachable (root : R) : R → Prop where
  | root : Reachable root root
  | solve {r : R} (hr : Reachable root r) : Reachable root (Relaxation.solve r).2
  | setBound {r r' : R} {j : Nat} {side : Side} {q : ℚ} (hr : Reachable root r)
      (h : Relaxation.setBound r j side (.fin q) = .ok r') : Reachable root r'
  | addRow {r r' : R} {row : SparseRow Exact} {lower : Exact} {i : Nat} (hr : Reachable root r)
      (h : Relaxation.addRow r row lower = .ok (i, r')) : Reachable root r'

theorem Derived.trans (h : Derived root r) (h' : Derived r r') : Derived root r' := by
  induction h' with
  | root => exact h
  | solve _ ih => exact ih.solve
  | setBound _ hset ih => exact ih.setBound hset
  | addRow _ hrow hadd ih => exact ih.addRow hrow hadd

namespace ExactOracle

theorem derived (oracle : ExactOracle model root) (h : Derived root r) :
    ExactOracle model r where
  numVariables r' hr := oracle.numVariables r' (h.trans hr)
  numRows r' hr := oracle.numRows r' (h.trans hr)
  kind r' hr := oracle.kind r' (h.trans hr)
  objective r' hr := oracle.objective r' (h.trans hr)
  rowTerms r' hr := oracle.rowTerms r' (h.trans hr)
  solve_model r' hr := oracle.solve_model r' (h.trans hr)
  solve_optimal r' hr := oracle.solve_optimal r' (h.trans hr)
  solve_infeasible r' hr := oracle.solve_infeasible r' (h.trans hr)
  setBound r' hr := oracle.setBound r' (h.trans hr)
  addRow r' hr := oracle.addRow r' (h.trans hr)

/-- Solving finds the bound of the model. -/
theorem hasBound (oracle : ExactOracle model r) : (model r).HasBound
    (if (Relaxation.solve r).1 = .optimal then Relaxation.objectiveValue (Relaxation.solve r).2
      else .negInf) := by
  split
  · rename_i hopt
    obtain ⟨hmax, hobj⟩ := oracle.maximal .root hopt
    rw [hobj]
    exact .maximal hmax
  · rename_i hopt
    apply Model.HasBound.empty
    rintro ⟨x, hx⟩
    exact oracle.not_admits .root hopt x hx

/-- Solving to optimality finds the bound of the model. -/
theorem hasBound_of_optimal (oracle : ExactOracle model r)
    (hopt : (Relaxation.solve r).1 = .optimal) :
    (model r).HasBound (Relaxation.objectiveValue (Relaxation.solve r).2) := by
  simpa only [if_pos hopt] using oracle.hasBound

end ExactOracle

/-! ## Splitting a node -/

/-- A value that counts as fractional is no integer, whatever is tolerated. -/
theorem not_integer_of_isFractional {tol : Exact} {q : ℚ} (htol : 0 ≤ tol)
    (h : isFractional tol (.fin q) = true) : ¬ ∃ z : ℤ, q = z := by
  rintro ⟨z, rfl⟩
  have hlt : tol < .fin 0 := by
    simpa [isFractional, roundHalf_intCast] using h
  exact Exact.not_lt_of_le htol hlt

/-- The floor and the ceiling of a number that is no integer differ. -/
theorem floor_lt_ceil_of_not_integer {q : ℚ} (h : ¬ ∃ z : ℤ, q = z) : ⌊q⌋ < ⌈q⌉ := by
  rw [Int.floor_lt]
  apply lt_of_le_of_ne' (Int.le_ceil q)
  intro heq
  exact h ⟨⌈q⌉, heq.symm⟩

/-- The value that a node is branched on is no integer and lies within a range. -/
structure Violation.SplitsAt (pick : Violation Exact) (range : Exact × Exact) (q : ℚ) : Prop where
  value : pick.value = .fin q
  fractional : ¬ ∃ z : ℤ, q = z
  lower : range.1 ≤ .fin q
  upper : .fin q ≤ range.2

namespace Violation.SplitsAt

variable {pick : Violation Exact} {range : Exact × Exact} {q : ℚ}

theorem down (h : pick.SplitsAt range q) :
    BoundChange.down pick.column pick.value = ⟨pick.column, .fin q, .upper, .fin ⌊q⌋⟩ := by
  rw [h.value, BoundChange.down, floor_fin]

theorem up (h : pick.SplitsAt range q) :
    BoundChange.up pick.column pick.value = ⟨pick.column, .fin q, .lower, .fin ⌈q⌉⟩ := by
  rw [h.value, BoundChange.up, ceil_fin]

theorem inward_floor (h : pick.SplitsAt range q) : Side.upper.Inward (.fin ⌊q⌋) range :=
  Exact.le_trans (fin_le.mpr (Int.floor_le q)) h.upper

theorem inward_ceil (h : pick.SplitsAt range q) : Side.lower.Inward (.fin ⌈q⌉) range :=
  Exact.le_trans h.lower (fin_le.mpr (Int.le_ceil q))

end Violation.SplitsAt

/-- The bound of a node is that of its model; a root has not been solved yet. -/
structure Subproblem.Bounded (model : R → Model Exact) (node : Subproblem R Exact) : Prop where
  unsolved : node.isRoot = true → node.upperBound = .posInf
  solved : node.isRoot = false → (model node.model).HasBound node.upperBound

section Bounded

variable {node : Subproblem R Exact}

omit [Relaxation R Exact] in
/-- No point of a node is better than its bound. -/
theorem Subproblem.Bounded.le (h : node.Bounded model)
    (hobj : Point.IsRational (model node.model).objective) {x : Point Exact}
    (hx : (model node.model).Admits x) :
    (model node.model).objectiveValue x ≤ node.upperBound := by
  cases hroot : node.isRoot with
  | true =>
    rw [h.unsolved hroot, Model.objectiveValue_eq hobj hx.rational hx.size]
    exact fin_le_posInf _
  | false => exact (h.solved hroot).le hx

omit [Relaxation R Exact] in
theorem Subproblem.Bounded.isNaN_eq (h : node.Bounded model)
    (hobj : Point.IsRational (model node.model).objective) : isNaN node.upperBound = false := by
  cases hroot : node.isRoot with
  | true =>
    rw [h.unsolved hroot]
    rfl
  | false => exact (h.solved hroot).isNaN_eq hobj

end Bounded

/-- The child stands for a part of `r`, and knows its bound. -/
structure Subproblem.Part (model : R → Model Exact) (r : R) (child : Subproblem R Exact) :
    Prop where
  derived : Derived r child.model
  restricts : (model child.model).Restricts (model r)
  bound : (model child.model).HasBound child.upperBound
  isRoot : child.isRoot = false

theorem Subproblem.Part.bounded {child : Subproblem R Exact} (h : child.Part model r) :
    child.Bounded model := by
  constructor
  · intro hroot
    rw [h.isRoot] at hroot
    cases hroot
  · intro _
    exact h.bound

namespace ExactOracle

/-- A solved node is branched on a value within the range of its column. -/
theorem picked (oracle : ExactOracle model r) {scope : Scope} {tol : Exact} (htol : 0 ≤ tol)
    (hopt : (Relaxation.solve r).1 = .optimal) {pick : Violation Exact}
    (hpick : pick ∈ violations (Relaxation.solve r).2 scope tol) :
    ∃ q : ℚ, pick.SplitsAt ((model r).colRange pick.column) q := by
  obtain ⟨hvar, hvalue, -, -, -, hfrac⟩ := mem_violations hpick
  obtain ⟨hmax, -⟩ := oracle.maximal .root hopt
  have hcol : pick.column < (model r).numCols := by
    rwa [oracle.numVariables _ (Derived.root.solve), oracle.solve_model r .root] at hvar
  have hcoord := Point.coord_eq hmax.admits.rational pick.column
  rw [coord_pointOf _ hvar, ← hvalue] at hcoord
  have hrange := hmax.admits.columns pick.column hcol
  rw [coord_pointOf _ hvar, ← hvalue, hcoord] at hrange
  rw [hcoord] at hfrac
  exact ⟨_, hcoord, not_integer_of_isFractional htol hfrac, hrange.1, hrange.2⟩

/-- A bound moved inwards leaves the points on its inner side. -/
theorem narrowed (oracle : ExactOracle model r) (wf : (model r).WellFormed)
    {child : Subproblem R Exact} {j : Nat} {v : Exact} {side : Side} {q : ℚ}
    (h : child.Narrows r ⟨j, v, side, .fin q⟩)
    (hq : side.Inward (.fin q) ((model r).colRange j)) :
    child.Part model r ∧
      ∀ x, (model child.model).Admits x → side.Allows (.fin q) (x.coord j) := by
  obtain ⟨⟨moved, hset, hmodel, hbound⟩, hroot⟩ := h
  dsimp only at hset
  have hderived : Derived r moved := Derived.root.setBound hset
  have hsame : model child.model = model moved := by
    rw [hmodel, oracle.solve_model _ hderived]
  obtain ⟨wf', hobj, hkinds, hadm⟩ := oracle.admits_setBound .root wf hset hq
  constructor
  · constructor
    · rw [hmodel]
      exact hderived.solve
    · rw [hsame]
      exact ⟨wf', hobj, hkinds, fun x hx => ((hadm x).mp hx).1⟩
    · rw [hsame, hbound]
      exact (oracle.derived hderived).hasBound
    · exact hroot
  · intro x hx
    rw [hsame] at hx
    exact ((hadm x).mp hx).2

/-- The children of a branched node are parts of it that have no point in common. The relaxation may
have been restricted by rows after the violation was picked. -/
theorem split (oracle : ExactOracle model r) (wf : (model r).WellFormed) {pick : Violation Exact}
    {q : ℚ} (hpick : pick.SplitsAt ((model r).colRange pick.column) q)
    {first second : Subproblem R Exact}
    (hdown : first.Narrows r (.down pick.column pick.value))
    (hup : second.Narrows r (.up pick.column pick.value)) :
    first.Part model r ∧ second.Part model r ∧
      ∀ x, (model first.model).Admits x → ¬ (model second.model).Admits x := by
  rw [hpick.down] at hdown
  rw [hpick.up] at hup
  obtain ⟨hfirst, hbelow⟩ := oracle.narrowed wf hdown hpick.inward_floor
  obtain ⟨hsecond, habove⟩ := oracle.narrowed wf hup hpick.inward_ceil
  refine ⟨hfirst, hsecond, ?_⟩
  intro x hx hx'
  have hcross : Exact.fin ⌈q⌉ ≤ .fin ⌊q⌋ := Exact.le_trans (habove x hx') (hbelow x hx)
  rw [fin_le, Int.cast_le] at hcross
  have hlt := floor_lt_ceil_of_not_integer hpick.fractional
  omega

end ExactOracle

/-! ## One column -/

theorem OneColumn.Fits.reachable {root r : OneColumn} (h : Fits root.model)
    (hr : Reachable root r) : Fits r.model := by
  induction hr with
  | root => exact h
  | solve _ ih =>
    rw [model_solve]
    exact ih
  | setBound _ hset ih => exact ih.derived (Derived.root.setBound hset)
  | @addRow r r' row lower i _ hadd ih =>
    have hmap := map_addRow r row lower
    rw [hadd, Simplex.map_addRow] at hmap
    obtain ⟨m, hm, heq⟩ := exists_ok_of_map hmap.symm
    obtain ⟨-, rfl⟩ := Prod.mk.inj heq
    exact ih.addRow hm

end MixedInteger
