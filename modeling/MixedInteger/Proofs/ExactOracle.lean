import MixedInteger.Proofs.Feasibility
import MixedInteger.Search

/-!
# Exact oracles

A search knows its subproblems only through the relaxation interface. An exact oracle is a
relaxation that stands for a model in exact arithmetic: it finds a best admitted point whenever
there is an admitted point at all, says that there is none otherwise, and its edits change the model
as those of the simplex solver do.

* `Derived`: the states a relaxation can be brought to;
* `ExactOracle`: the contract, over the states derived from a root;
* `Model.IntegralPoint`, `Model.IsOptimum`: what a search is after;
* `ExactOracle.integralPoint`, `ExactOracle.violation_mem`: what classifying a solved relaxation
  says about its point;
* `ExactOracle.admits_setBound`: what moving a bound does to the admitted points.
-/

namespace MixedInteger

open Exact hiding isFinite isNaN
open Scalar (isFinite isNaN)

variable {R : Type} [Relaxation R Exact]

/-- The states that arise from `root` by solving, by moving one end of a column range to a rational
number, and by adding rows with rational coefficients and a rational bound. -/
inductive Derived (root : R) : R → Prop where
  | root : Derived root root
  | solve {r : R} (hr : Derived root r) : Derived root (Relaxation.solve r).2
  | setBound {r r' : R} {j : Nat} {side : Side} {q : ℚ} (hr : Derived root r)
      (h : Relaxation.setBound r j side (.fin q) = .ok r') : Derived root r'
  | addRow {r r' : R} {row : SparseRow Exact} {q : ℚ} {i : Nat} (hr : Derived root r)
      (hrow : Sparse.Finite row.terms) (h : Relaxation.addRow r row (.fin q) = .ok (i, r')) :
      Derived root r'

/-- No admitted point has a larger objective. -/
structure Model.IsMaximal (m : Model Exact) (x : Point Exact) : Prop where
  admits : m.Admits x
  le : ∀ y, m.Admits y → m.objectiveValue y ≤ m.objectiveValue x

/-- The relaxations derived from `root` stand for the models that `model` assigns to them. -/
structure ExactOracle (model : R → Model Exact) (root : R) : Prop where
  numVariables : ∀ r, Derived root r → Relaxation.numVariables r = (model r).numCols
  numRows : ∀ r, Derived root r → Relaxation.numRows r = (model r).numRows
  kind : ∀ r, Derived root r → ∀ j, Relaxation.kind r j = (model r).kind j
  objective : ∀ r, Derived root r → ∀ j,
    Relaxation.objective r j = Point.coord (model r).objective j
  rowTerms : ∀ r, Derived root r → ∀ i, Relaxation.rowTerms r i = (model r).line i
  /-- Solving changes no model. -/
  solve_model : ∀ r, Derived root r → model (Relaxation.solve r).2 = model r
  /-- A model that admits a point has a best one, and solving finds one. -/
  solve_optimal : ∀ r, Derived root r → (∃ x, (model r).Admits x) →
    (Relaxation.solve r).1 = .optimal ∧
    (model r).IsMaximal (Search.pointOf (Relaxation.solve r).2) ∧
    Relaxation.objectiveValue (Relaxation.solve r).2
      = (model r).objectiveValue (Search.pointOf (Relaxation.solve r).2)
  solve_infeasible : ∀ r, Derived root r → (¬ ∃ x, (model r).Admits x) →
    (Relaxation.solve r).1 = .infeasible
  /-- Moving a bound changes the model as in the simplex solver, and fails where it fails. -/
  setBound : ∀ r, Derived root r → ∀ j side (q : ℚ),
    (Relaxation.setBound r j side (.fin q)).map model
      = (Relaxation.setBound (Simplex.ofModel (model r)) j side (.fin q)).map Simplex.model
  /-- So does adding a row. -/
  addRow : ∀ r, Derived root r → ∀ row (q : ℚ), Sparse.Finite row.terms →
    (Relaxation.addRow r row (.fin q)).map (fun p => (p.1, model p.2))
      = (Relaxation.addRow (Simplex.ofModel (model r)) row (.fin q)).map
        fun p => (p.1, p.2.model)

/-- The columns that the scope asks to be integral: the integral ones, or those of them with a
nonzero objective coefficient. -/
def Scope.Checks (scope : Scope) (m : Model Exact) (j : Nat) : Prop :=
  j < m.numCols ∧ (m.kind j).isIntegral = true ∧
    (scope = .objectiveSupport → Point.coord m.objective j ≠ 0)

/-- An admitted point that is integral on the checked columns. -/
structure Model.IntegralPoint (m : Model Exact) (scope : Scope) (x : Point Exact) : Prop where
  admits : m.Admits x
  integral : ∀ j, scope.Checks m j → (x.coord j).IsInteger

/-- `x` is an integral point with objective `value`, and no integral point has a larger one. -/
structure Model.IsOptimum (m : Model Exact) (scope : Scope) (x : Point Exact) (value : Exact) :
    Prop where
  point : m.IntegralPoint scope x
  objective : m.objectiveValue x = value
  le : ∀ y, m.IntegralPoint scope y → m.objectiveValue y ≤ value

/-- Without tolerance exactly the numbers that are no integers count as fractional. -/
theorem isFractional_zero_iff (q : ℚ) :
    isFractional 0 (Exact.fin q) = true ↔ ¬ (Exact.fin q).IsInteger := by
  unfold isFractional
  simp only [round_fin, fin_sub, abs_fin, zero_eq, gt_iff_lt, fin_lt, decide_eq_true_eq, abs_pos,
    sub_ne_zero, isInteger_fin, ← roundHalf_eq_self_iff]
  exact ne_comm

theorem coord_pointOf {R α : Type} [Scalar α] [Relaxation R α] (r : R) {j : Nat}
    (hj : j < Relaxation.numVariables r) :
    Point.coord (Search.pointOf r) j = Relaxation.value r j := by
  simp [Search.pointOf, Point.coord, hj]

/-- A range with one end replaced. -/
def Side.replace (side : Side) (v : Exact) (range : Exact × Exact) : Exact × Exact :=
  match side with
  | .lower => (v, range.2)
  | .upper => (range.1, v)

/-- The bound lies on the inner side of the end that it replaces. -/
def Side.Inward (side : Side) (v : Exact) (range : Exact × Exact) : Prop :=
  match side with
  | .lower => range.1 ≤ v
  | .upper => v ≤ range.2

/-- The value lies on the inner side of the bound. -/
def Side.Allows (side : Side) (v x : Exact) : Prop :=
  match side with
  | .lower => v ≤ x
  | .upper => x ≤ v

/-- Moving a bound of the solver sets the column range of its model, the other end kept. -/
theorem Simplex.map_setBound (m : Model Exact) (j : Nat) (side : Side) (v : Exact) :
    (Relaxation.setBound (Simplex.ofModel m) j side v).map Simplex.model
      = m.setColBounds j (side.replace v (m.colRange j)).1 (side.replace v (m.colRange j)).2 := by
  have edit (lower upper : Exact) :
      ((Simplex.ofModel m).setColBounds j lower upper).map Simplex.model
        = m.setColBounds j lower upper := by
    change (((Simplex.ofModel m).model.setColBounds j lower upper).bind _).map _ = _
    cases h : (Simplex.ofModel m).model.setColBounds j lower upper <;> exact h.symm
  cases side
  · exact edit v _
  · exact edit _ v

/-- The solver hands the row on to its model and forgets its basis. The row becomes the last one. -/
theorem Simplex.relaxation_addRow {α : Type} [Scalar α] (s : Simplex α) (row : SparseRow α)
    (lower : α) :
    Relaxation.addRow s row lower = (s.model.addRow row.terms lower Scalar.posInf).map
      fun m => (s.model.numRows, s.withModel m) := by
  change (s.model.addRow row.terms lower Scalar.posInf).bind _ = _
  cases h : s.model.addRow row.terms lower Scalar.posInf with
  | error e => rfl
  | ok m =>
    have hlast : m.numRows - 1 = s.model.numRows := by
      rw [Model.numRows_addRow h]
      rfl
    dsimp only [Except.bind, Except.map]
    rw [hlast]
    rfl

theorem Simplex.map_addRow (m : Model Exact) (row : SparseRow Exact) (lower : Exact) :
    (Relaxation.addRow (Simplex.ofModel m) row lower).map (fun p => (p.1, p.2.model))
      = (m.addRow row.terms lower .posInf).map fun m' => (m.numRows, m') := by
  rw [relaxation_addRow]
  change Except.map _ (Except.map _ (m.addRow row.terms lower .posInf)) = _
  cases m.addRow row.terms lower .posInf <;> rfl

namespace ExactOracle

variable {model : R → Model Exact} {root r : R}

/-- What an optimal verdict says. -/
theorem maximal (oracle : ExactOracle model root) (hr : Derived root r)
    (h : (Relaxation.solve r).1 = .optimal) :
    (model r).IsMaximal (Search.pointOf (Relaxation.solve r).2) ∧
    Relaxation.objectiveValue (Relaxation.solve r).2
      = (model r).objectiveValue (Search.pointOf (Relaxation.solve r).2) := by
  by_cases hx : ∃ x, (model r).Admits x
  · exact (oracle.solve_optimal r hr hx).2
  · rw [oracle.solve_infeasible r hr hx] at h
    cases h

theorem not_admits (oracle : ExactOracle model root) (hr : Derived root r)
    (h : (Relaxation.solve r).1 ≠ .optimal) (x : Point Exact) : ¬ (model r).Admits x :=
  fun hx => h (oracle.solve_optimal r hr ⟨x, hx⟩).1

/-- A violation is a checked column whose value is no integer. The value zero, which the scope may
leave out, is one. -/
theorem violation?_isSome_iff (oracle : ExactOracle model root) (hr : Derived root r) {j : Nat}
    (hj : j < (model r).numCols) {q : ℚ} (hq : Relaxation.value r j = .fin q) (scope : Scope) :
    (violation? r scope 0 j).isSome = true ↔
      scope.Checks (model r) j ∧ ¬ (Exact.fin q).IsInteger := by
  have hcond : (violation? r scope 0 j).isSome = true ↔ ((model r).kind j).isIntegral = true ∧
      scope.covers (Exact.fin q) (Point.coord (model r).objective j) = true ∧
      ¬ (Exact.fin q).IsInteger := by
    simp only [violation?, hq, oracle.kind r hr, oracle.objective r hr, ← isFractional_zero_iff]
    split <;> simp_all
  rw [hcond, Scope.Checks]
  cases scope with
  | allColumns => simp [Scope.covers, hj]
  | objectiveSupport =>
    have hcover : ¬ (Exact.fin q).IsInteger →
        (Scope.objectiveSupport.covers (Exact.fin q) (Point.coord (model r).objective j) = true ↔
          Point.coord (model r).objective j ≠ 0) := by
      intro hint
      have hne : q ≠ 0 := by
        rintro rfl
        exact hint ⟨0, by simp⟩
      simp [Scope.covers, hne, ← beq_fin_iff]
    constructor
    · rintro ⟨hk, hc, hint⟩
      exact ⟨⟨hj, hk, fun _ => (hcover hint).mp hc⟩, hint⟩
    · rintro ⟨⟨_, hk, hc⟩, hint⟩
      exact ⟨hk, (hcover hint).mpr (hc rfl), hint⟩

/-- A solved relaxation without violations has an integral point. -/
theorem integralPoint (oracle : ExactOracle model root) (hr : Derived root r) {scope : Scope}
    (hopt : (Relaxation.solve r).1 = .optimal)
    (hnone : violations (Relaxation.solve r).2 scope 0 = []) :
    (model r).IntegralPoint scope (Search.pointOf (Relaxation.solve r).2) := by
  have hmax := (oracle.maximal hr hopt).1
  refine ⟨hmax.admits, ?_⟩
  intro j hj
  have hsolve := oracle.solve_model r hr
  have hvar : j < Relaxation.numVariables (Relaxation.solve r).2 := by
    rw [oracle.numVariables _ hr.solve, hsolve]
    exact hj.1
  have hcoord := Point.coord_eq hmax.admits.rational j
  rw [coord_pointOf _ hvar] at hcoord
  have hj' : j < (model (Relaxation.solve r).2).numCols := hsolve ▸ hj.1
  have hno := List.filterMap_eq_nil_iff.mp hnone j (List.mem_range.mpr hvar)
  by_contra hint
  have hsome := (oracle.violation?_isSome_iff hr.solve hj' hcoord scope).mpr
    ⟨hsolve.symm ▸ hj, by rwa [coord_pointOf _ hvar, hcoord] at hint⟩
  rw [hno] at hsome
  cases hsome

/-- A violation names a checked column with its value. -/
theorem violation_mem (oracle : ExactOracle model root) (hr : Derived root r) {scope : Scope}
    (hopt : (Relaxation.solve r).1 = .optimal) {v : Violation Exact}
    (hv : v ∈ violations (Relaxation.solve r).2 scope 0) :
    scope.Checks (model r) v.column ∧
      v.value = Point.coord (Search.pointOf (Relaxation.solve r).2) v.column := by
  have hmax := (oracle.maximal hr hopt).1
  have hsolve := oracle.solve_model r hr
  obtain ⟨j, hj, hviol⟩ := List.mem_filterMap.mp hv
  have hvar := List.mem_range.mp hj
  have hcoord := Point.coord_eq hmax.admits.rational j
  rw [coord_pointOf _ hvar] at hcoord
  have hj' : j < (model (Relaxation.solve r).2).numCols := oracle.numVariables _ hr.solve ▸ hvar
  have hsome : (violation? (Relaxation.solve r).2 scope 0 j).isSome = true := by
    rw [hviol]
    rfl
  have hchecks := ((oracle.violation?_isSome_iff hr.solve hj' hcoord scope).mp hsome).1
  have hcol : v = ⟨j, Relaxation.value (Relaxation.solve r).2 j,
      Relaxation.objective (Relaxation.solve r).2 j⟩ := by
    simp only [violation?] at hviol
    split at hviol
    · exact (Option.some.inj hviol).symm
    · cases hviol
  subst hcol
  exact ⟨hsolve ▸ hchecks, (coord_pointOf _ hvar).symm⟩

/-- Moving a bound inwards keeps exactly the points on its inner side, and no other part of the
model is touched. -/
theorem admits_setBound (oracle : ExactOracle model root) (hr : Derived root r)
    (wf : (model r).WellFormed) {r' : R} {j : Nat} {side : Side} {q : ℚ}
    (h : Relaxation.setBound r j side (.fin q) = .ok r')
    (hq : side.Inward (.fin q) ((model r).colRange j)) :
    (model r').WellFormed ∧ (model r').objective = (model r).objective ∧
    (model r').kinds = (model r).kinds ∧
    ∀ x, (model r').Admits x ↔ (model r).Admits x ∧ side.Allows (.fin q) (x.coord j) := by
  have hset : (model r).setColBounds j (side.replace (.fin q) ((model r).colRange j)).1
      (side.replace (.fin q) ((model r).colRange j)).2 = .ok (model r') := by
    rw [← Simplex.map_setBound, ← oracle.setBound r hr, h]
    rfl
  obtain ⟨hj, hnan₁, hnan₂, hm⟩ := Model.setColBounds_ok hset
  refine ⟨wf.setColBounds hset, by rw [hm], by rw [hm], ?_⟩
  intro x
  cases side with
  | lower =>
    rw [Model.admits_narrow wf hset hq (Exact.le_refl hnan₂)]
    constructor
    · rintro ⟨hx, hle, _⟩
      exact ⟨hx, hle⟩
    · rintro ⟨hx, hle⟩
      exact ⟨hx, hle, (hx.columns j hj).2⟩
  | upper =>
    rw [Model.admits_narrow wf hset (Exact.le_refl hnan₁) hq]
    constructor
    · rintro ⟨hx, _, hle⟩
      exact ⟨hx, hle⟩
    · rintro ⟨hx, hle⟩
      exact ⟨hx, (hx.columns j hj).1, hle⟩

end ExactOracle

end MixedInteger
