import MixedInteger.Proofs.ExactOracle

/-!
# Models with one column

The contract of an exact oracle can be met. For one integral column that is to be as large as
possible and has a rational upper bound, the best value is the smallest of the bounds that the
column and the rows put on it. A row that puts it, solved for the column, is its tableau row.

* `OneColumn`: the relaxation;
* `OneColumn.exactOracle`: it is exact, whatever bounds are moved and rows are added.
-/

namespace MixedInteger

open Exact hiding isFinite isNaN
open Scalar (isFinite isNaN)

/-- A model with one column and the value that the last solve has found for it. -/
structure OneColumn where
  model : Model Exact
  found : Option Exact

namespace OneColumn

/-- The largest value that row `i` leaves to the column. -/
def cap (m : Model Exact) (i : Nat) : Exact :=
  match m.line i with
  | [] => .posInf
  | t :: _ =>
    if 0 < t.2 then (m.rowRange i).2 / t.2
    else if t.2 < 0 then (m.rowRange i).1 / t.2
    else .posInf

/-- The largest value that is left to the column by its range and all rows. -/
def best (m : Model Exact) : Exact :=
  ((List.range m.numRows).map (cap m)).foldl Scalar.smaller (m.colRange 0).2

/-- A row that leaves exactly the value `p`, solved for the column. -/
def bindingRow? (m : Model Exact) (p : Exact) : Option (TableauRow Exact) := do
  let i ← (List.range m.numRows).find? fun i => cap m i == p
  let t ← (m.line i).head?
  let rest := if 0 < t.2 then .atUpper else .atLower
  return ⟨p, [⟨.row i, 1 / t.2, rest, (m.rowRange i).1, (m.rowRange i).2, .continuous⟩]⟩

instance : Relaxation OneColumn Exact where
  solve r :=
    if r.model.isFeasible #[best r.model] 0 then
      (.optimal, { r with found := some (best r.model) })
    else (.infeasible, { r with found := none })
  objectiveValue r := r.found.getD .negInf
  value r _ := r.found.getD 0
  kind r := r.model.kind
  bounds r := r.model.colRange
  objective r := Point.coord r.model.objective
  numVariables r := r.model.numCols
  numRows r := r.model.numRows
  setBound r j side v := do
    let s ← Relaxation.setBound (Simplex.ofModel r.model) j side v
    return ⟨s.model, r.found⟩
  addRow r row lower := do
    let (i, s) ← Relaxation.addRow (Simplex.ofModel r.model) row lower
    return (i, ⟨s.model, r.found⟩)
  rowTerms r := r.model.line
  isBasic r j := j == 0 && (r.found.bind (bindingRow? r.model)).isSome
  tableauRow? r j := if j = 0 then r.found.bind (bindingRow? r.model) else none

/-- One integral column with objective one and a rational upper bound. -/
structure Fits (m : Model Exact) : Prop where
  wellFormed : m.WellFormed
  objective : m.objective = #[.fin 1]
  kind : m.kind 0 = .integer
  upper : isFinite (m.colRange 0).2 = true

namespace Fits

variable {m m' : Model Exact}

theorem numCols (hm : Fits m) : m.numCols = 1 := by
  unfold Model.numCols
  rw [hm.objective]
  rfl

/-- A row has one term at most. -/
theorem line_cases (hm : Fits m) (i : Nat) :
    m.line i = [] ∨ ∃ a : ℚ, m.line i = [(0, .fin a)] := by
  have hcols := hm.wellFormed.columns i
  have hsorted := hm.wellFormed.sorted i
  have hfin := hm.wellFormed.finite i
  rw [hm.numCols] at hcols
  match hline : m.line i with
  | [] => exact .inl rfl
  | [(j, a)] =>
    rw [hline] at hcols hfin
    obtain rfl : j = 0 := Nat.lt_one_iff.mp (hcols _ List.mem_cons_self)
    obtain ⟨q, rfl⟩ := isFinite_iff.mp (hfin _ List.mem_cons_self)
    exact .inr ⟨q, rfl⟩
  | s :: t :: rest =>
    rw [hline] at hcols hsorted
    have hlt := (List.pairwise_cons.mp hsorted).1 t List.mem_cons_self
    have ht := hcols t (List.mem_cons_of_mem _ List.mem_cons_self)
    omega

theorem setColBounds (hm : Fits m) {j : Nat} {lower upper : Exact} (hup : isFinite upper = true)
    (h : m.setColBounds j lower upper = .ok m') : Fits m' := by
  have hrange := Model.colRange_setColBounds hm.wellFormed.colLower hm.wellFormed.colUpper h 0
  obtain ⟨hj, -, -, hm'⟩ := Model.setColBounds_ok h
  obtain rfl : j = 0 := by
    rw [hm.numCols] at hj
    omega
  rw [hm.kind] at hrange
  refine ⟨hm.wellFormed.setColBounds h, by rw [hm']; exact hm.objective, ?_, ?_⟩
  · rw [hm']
    exact hm.kind
  · rw [hrange]
    exact hup

theorem addRow (hm : Fits m) {terms : List (Term Exact)} {lower upper : Exact}
    (h : m.addRow terms lower upper = .ok m') : Fits m' := by
  have hm' := (Model.addRow_ok h).2.2
  refine ⟨hm.wellFormed.addRow h, ?_, ?_, ?_⟩
  · rw [hm']
    exact hm.objective
  · rw [hm']
    exact hm.kind
  · rw [hm']
    exact hm.upper

end Fits

/-! ## The best value -/

theorem posInf_div {a : ℚ} (ha : a ≠ 0) : Exact.posInf / .fin a = infinity a := by
  change Exact.div .posInf (.fin a) = _
  simp [Exact.div, Exact.signum, ha]

theorem negInf_div {a : ℚ} (ha : a ≠ 0) : Exact.negInf / .fin a = infinity (-a) := by
  change Exact.div .negInf (.fin a) = _
  simp [Exact.div, Exact.signum, ha]

/-- Dividing an upper bound by a positive number. -/
theorem le_div_pos {a : ℚ} (ha : 0 < a) (u : Exact) (v : ℚ) :
    .fin v ≤ u / .fin a ↔ .fin (a * v) ≤ u := by
  cases u with
  | undefined => exact Iff.rfl
  | fin q => rw [fin_div q ha.ne', fin_le, fin_le, le_div_iff₀ ha, mul_comm]
  | posInf => simp [posInf_div ha.ne', infinity, ha]
  | negInf => simp [negInf_div ha.ne', infinity, ha, not_lt.mpr ha.le]

/-- Dividing a lower bound by a negative number. -/
theorem le_div_neg {a : ℚ} (ha : a < 0) (l : Exact) (v : ℚ) :
    .fin v ≤ l / .fin a ↔ l ≤ .fin (a * v) := by
  cases l with
  | undefined => exact Iff.rfl
  | fin q => rw [fin_div q ha.ne, fin_le, fin_le, le_div_iff_of_neg ha, mul_comm]
  | posInf => simp [posInf_div ha.ne, infinity, ha, not_lt.mpr ha.le]
  | negInf => simp [negInf_div ha.ne, infinity, ha]

/-- A row does not depend on the column, or bounds it from above through one of its ends. -/
theorem row_cases {m : Model Exact} (hm : Fits m) (i : Nat) :
    (cap m i = .posInf ∧ ∀ x : Point Exact, x.IsRational → m.rowActivity i x = .fin 0) ∨
    ∃ a : ℚ, m.line i = [(0, .fin a)] ∧
      (∀ x : Point Exact, x.IsRational → m.rowActivity i x = .fin (a * x.rat 0)) ∧
      (0 < a ∧ cap m i = (m.rowRange i).2 / .fin a ∨
        a < 0 ∧ cap m i = (m.rowRange i).1 / .fin a) := by
  rcases hm.line_cases i with hline | ⟨a, hline⟩
  · refine .inl ⟨by simp [cap, hline], fun x hx => ?_⟩
    rw [Model.rowActivity_eq hm.wellFormed i hx, hline]
    rfl
  · have hact (x : Point Exact) (hx : x.IsRational) : m.rowActivity i x = .fin (a * x.rat 0) := by
      rw [Model.rowActivity_eq hm.wellFormed i hx, hline]
      simp
    rcases lt_trichotomy a 0 with ha | rfl | ha
    · exact .inr ⟨a, hline, hact, .inr ⟨ha, by simp [cap, hline, ha, not_lt.mpr ha.le]⟩⟩
    · refine .inl ⟨by simp [cap, hline], fun x hx => ?_⟩
      rw [hact x hx, zero_mul]
    · exact .inr ⟨a, hline, hact, .inl ⟨ha, by simp [cap, hline, ha]⟩⟩

/-- The value of the point is within row `i`. -/
def InRow (m : Model Exact) (i : Nat) (x : Point Exact) : Prop :=
  (m.rowRange i).1 ≤ m.rowActivity i x ∧ m.rowActivity i x ≤ (m.rowRange i).2

section Row

variable {m : Model Exact} {i : Nat} {x y : Point Exact}

theorem le_cap (hm : Fits m) (hx : x.IsRational) (hrow : InRow m i x) :
    .fin (x.rat 0) ≤ cap m i := by
  rcases row_cases hm i with ⟨hcap, -⟩ | ⟨a, -, hact, ⟨ha, hcap⟩ | ⟨ha, hcap⟩⟩
  · simp [hcap]
  · rw [hcap, le_div_pos ha, ← hact x hx]
    exact hrow.2
  · rw [hcap, le_div_neg ha, ← hact x hx]
    exact hrow.1

/-- Once a row holds, the value may grow as far as the row leaves. -/
theorem inRow_of_le_cap (hm : Fits m) (hx : x.IsRational) (hy : y.IsRational)
    (hrow : InRow m i x) (hle : x.rat 0 ≤ y.rat 0) (hcap : .fin (y.rat 0) ≤ cap m i) :
    InRow m i y := by
  unfold InRow at *
  rcases row_cases hm i with ⟨-, hact⟩ | ⟨a, -, hact, ⟨ha, hdiv⟩ | ⟨ha, hdiv⟩⟩
  · rw [hact x hx] at hrow
    rwa [hact y hy]
  · rw [hact x hx] at hrow
    rw [hdiv, le_div_pos ha] at hcap
    rw [hact y hy]
    exact ⟨Exact.le_trans hrow.1 (fin_le.mpr (mul_le_mul_of_nonneg_left hle ha.le)), hcap⟩
  · rw [hact x hx] at hrow
    rw [hdiv, le_div_neg ha] at hcap
    rw [hact y hy]
    exact ⟨hcap, Exact.le_trans (fin_le.mpr (mul_le_mul_of_nonpos_left hle ha.le)) hrow.2⟩

/-- A cap is infinite or rational. -/
theorem cap_cases (hm : Fits m) (hi : i < m.numRows) :
    cap m i = .posInf ∨ ∃ c : ℚ, cap m i = .fin c := by
  obtain ⟨hlower, hupper⟩ := hm.wellFormed.rowRange i hi
  rcases row_cases hm i with ⟨hcap, -⟩ | ⟨a, -, -, ⟨ha, hcap⟩ | ⟨ha, hcap⟩⟩
  · exact .inl hcap
  · rw [hcap]
    cases hu : (m.rowRange i).2 with
    | undefined => rw [hu] at hupper; cases hupper
    | negInf => rw [hu] at hupper; cases hupper
    | fin q => exact .inr ⟨q / a, fin_div q ha.ne'⟩
    | posInf => exact .inl (by simp [posInf_div ha.ne', infinity, ha])
  · rw [hcap]
    cases hl : (m.rowRange i).1 with
    | undefined => rw [hl] at hlower; cases hlower
    | posInf => rw [hl] at hlower; cases hlower
    | fin q => exact .inr ⟨q / a, fin_div q ha.ne⟩
    | negInf => exact .inl (by simp [negInf_div ha.ne, infinity, ha])

end Row

/-- The smallest of a rational number and of bounds that are infinite or rational. -/
theorem foldl_smaller (l : List Exact) (hl : ∀ c ∈ l, c = .posInf ∨ ∃ q : ℚ, c = .fin q) (u : ℚ) :
    ∃ b : ℚ, l.foldl Scalar.smaller (.fin u) = .fin b ∧ b ≤ u ∧ (∀ c ∈ l, .fin b ≤ c) ∧
      ∀ v : ℚ, v ≤ u → (∀ c ∈ l, .fin v ≤ c) → v ≤ b := by
  induction l generalizing u with
  | nil => exact ⟨u, rfl, le_rfl, by simp, fun v hv _ => hv⟩
  | cons c rest ih =>
    obtain ⟨hc, hrest⟩ := List.forall_mem_cons.mp hl
    rcases hc with rfl | ⟨q, rfl⟩
    · obtain ⟨b, hb, hbu, hbc, hmax⟩ := ih hrest u
      refine ⟨b, hb, hbu, List.forall_mem_cons.mpr ⟨fin_le_posInf b, hbc⟩, ?_⟩
      intro v hv hcs
      exact hmax v hv (List.forall_mem_cons.mp hcs).2
    · obtain ⟨b, hb, hbu, hbc, hmax⟩ := ih hrest (min u q)
      rw [List.foldl_cons, smaller_fin]
      refine ⟨b, hb, hbu.trans (min_le_left _ _), List.forall_mem_cons.mpr ⟨?_, hbc⟩, ?_⟩
      · exact fin_le.mpr (hbu.trans (min_le_right _ _))
      · intro v hv hcs
        obtain ⟨hq, hcs⟩ := List.forall_mem_cons.mp hcs
        exact hmax v (le_min hv (fin_le.mp hq)) hcs

theorem isRational_singleton (b : ℚ) : Point.IsRational #[.fin b] :=
  Point.isRational_of_lt fun j hj => by
    obtain rfl : j = 0 := Nat.lt_one_iff.mp hj
    rfl

/-- The best value is rational. No admitted point is above it, and it is admitted itself once some
point is. -/
theorem best_spec {m : Model Exact} (hm : Fits m) : ∃ b : ℚ, best m = .fin b ∧
    ∀ x, m.Admits x → x.rat 0 ≤ b ∧ m.Admits #[.fin b] := by
  obtain ⟨u, hu⟩ := isFinite_iff.mp hm.upper
  obtain ⟨b, hb, hbu, hcaps, hmax⟩ := foldl_smaller ((List.range m.numRows).map (cap m)) (by
    intro c hc
    obtain ⟨i, hi, rfl⟩ := List.mem_map.mp hc
    exact cap_cases hm (List.mem_range.mp hi)) u
  refine ⟨b, by rw [best, hu, hb], fun x hx => ?_⟩
  have hcol : 0 < m.numCols := by simp [hm.numCols]
  obtain ⟨hlower, hupper⟩ := hx.columns 0 hcol
  rw [x.coord_eq hx.rational] at hlower hupper
  have hxb : x.rat 0 ≤ b := by
    refine hmax _ (by rwa [hu, fin_le] at hupper) fun c hc => ?_
    obtain ⟨i, hi, rfl⟩ := List.mem_map.mp hc
    exact le_cap hm hx.rational (hx.rows i (List.mem_range.mp hi))
  refine ⟨hxb, isRational_singleton b, hm.numCols.symm, ?_, ?_⟩
  · intro j hj
    obtain rfl : j = 0 := Nat.lt_one_iff.mp (hm.numCols ▸ hj)
    exact ⟨Exact.le_trans hlower (fin_le.mpr hxb), hu ▸ fin_le.mpr hbu⟩
  · intro i hi
    exact inRow_of_le_cap hm hx.rational (isRational_singleton b) (hx.rows i hi) hxb
      (hcaps _ (List.mem_map.mpr ⟨i, List.mem_range.mpr hi, rfl⟩))

/-! ## The contract -/

section Contract

variable {root r : OneColumn}

theorem model_solve (r : OneColumn) : (Relaxation.solve r).2.model = r.model := by
  change (ite _ _ _ : Verdict × OneColumn).2.model = _
  split <;> rfl

theorem map_setBound (r : OneColumn) (j : Nat) (side : Side) (v : Exact) :
    (Relaxation.setBound r j side v).map OneColumn.model
      = (Relaxation.setBound (Simplex.ofModel r.model) j side v).map Simplex.model := by
  change Except.map _ (Except.bind _ _) = _
  cases Relaxation.setBound (Simplex.ofModel r.model) j side v <;> rfl

theorem map_addRow (r : OneColumn) (row : SparseRow Exact) (lower : Exact) :
    (Relaxation.addRow r row lower).map (fun p => (p.1, p.2.model))
      = (Relaxation.addRow (Simplex.ofModel r.model) row lower).map
        fun p => (p.1, p.2.model) := by
  change Except.map _ (Except.bind _ _) = _
  cases Relaxation.addRow (Simplex.ofModel r.model) row lower <;> rfl

theorem Fits.derived (h : Fits root.model) (hr : Derived root r) : Fits r.model := by
  induction hr with
  | root => exact h
  | solve _ ih =>
    rw [model_solve]
    exact ih
  | @setBound r r' j side q _ hset ih =>
    have hmap := map_setBound r j side (.fin q)
    rw [hset, Simplex.map_setBound] at hmap
    refine ih.setColBounds ?_ hmap.symm
    cases side with
    | upper => rfl
    | lower =>
      have hj : j < r.model.numCols := (Model.setColBounds_ok hmap.symm).1
      obtain rfl : j = 0 := Nat.lt_one_iff.mp (ih.numCols ▸ hj)
      exact ih.upper
  | @addRow r r' row q i _ _ hadd ih =>
    have hmap := map_addRow r row (.fin q)
    rw [hadd, Simplex.map_addRow] at hmap
    cases hm : r.model.addRow row.terms (.fin q) .posInf with
    | error e =>
      rw [hm] at hmap
      cases hmap
    | ok m =>
      rw [hm] at hmap
      obtain ⟨-, rfl⟩ := Prod.mk.inj (Except.ok.inj hmap)
      exact ih.addRow hm

/-- A solve finds the best value if any point is admitted. -/
theorem solve_eq (hm : Fits r.model) (h : ∃ x, r.model.Admits x) : ∃ b : ℚ,
    Relaxation.solve r = (.optimal, ⟨r.model, some (.fin b)⟩) ∧ r.model.Admits #[.fin b] ∧
      ∀ x, r.model.Admits x → x.rat 0 ≤ b := by
  obtain ⟨b, hb, hspec⟩ := best_spec hm
  obtain ⟨x, hx⟩ := h
  have hadm := (hspec x hx).2
  refine ⟨b, ?_, hadm, fun y hy => (hspec y hy).1⟩
  change ite _ _ _ = _
  rw [hb, if_pos (Model.admits_iff.mp hadm).2]

theorem pointOf_eq (hm : Fits r.model) {b : ℚ} (hb : r.found = some (.fin b)) :
    Search.pointOf r = #[.fin b] := by
  have hnum : Relaxation.numVariables r = 1 := hm.numCols
  have hvalue : Relaxation.value r 0 = .fin b := by
    change r.found.getD 0 = _
    rw [hb]
    rfl
  simp [Search.pointOf, hnum, hvalue]

theorem objectiveValue_eq {m : Model Exact} (hm : Fits m) {x : Point Exact} (hx : m.Admits x) :
    m.objectiveValue x = .fin (x.rat 0) := by
  rw [Model.objectiveValue_eq hm.wellFormed.objective hx.rational hx.size, hm.objective]
  simp [weighted, Point.rat, Point.coord]

/-- The relaxation is exact, whatever bounds are moved and rows are added. -/
theorem exactOracle (h : Fits root.model) : ExactOracle OneColumn.model root where
  numVariables _ _ := rfl
  numRows _ _ := rfl
  kind _ _ _ := rfl
  objective _ _ _ := rfl
  rowTerms _ _ _ := rfl
  solve_model r _ := model_solve r
  setBound r _ j side q := map_setBound r j side (.fin q)
  addRow r _ row q _ := map_addRow r row (.fin q)
  solve_optimal r hr hx := by
    have hm := h.derived hr
    obtain ⟨b, hsolve, hadm, hmax⟩ := solve_eq hm hx
    have hpoint : Search.pointOf (Relaxation.solve r).2 = #[.fin b] := by
      rw [hsolve]
      exact pointOf_eq (r := ⟨r.model, some (.fin b)⟩) hm rfl
    rw [hpoint, hsolve]
    refine ⟨rfl, ⟨hadm, fun y hy => ?_⟩, (objectiveValue_eq hm hadm).symm⟩
    rw [objectiveValue_eq hm hy, objectiveValue_eq hm hadm]
    exact fin_le.mpr (hmax y hy)
  solve_infeasible r hr hx := by
    obtain ⟨b, hb, -⟩ := best_spec (h.derived hr)
    have hno : ¬ r.model.isFeasible #[.fin b] 0 = true := fun hfeas =>
      hx ⟨_, Model.admits_iff.mpr ⟨isRational_singleton b, hfeas⟩⟩
    change (ite _ _ _ : Verdict × OneColumn).1 = _
    rw [hb, if_neg hno]

end Contract

end OneColumn

end MixedInteger
