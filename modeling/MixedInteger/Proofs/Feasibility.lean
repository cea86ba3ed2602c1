import MixedInteger.Model
import MixedInteger.Proofs.Sparse

/-!
# Models and the points they admit

What holds of every model that was built step by step, which points it admits, and what the two
kinds of edits do to these points.

* `Model.Built`: built by the operations of the library;
* `Model.WellFormed`, `Model.Built.wellFormed`: what building guarantees;
* `Model.Admits`: the rational points within all ranges; `Model.admits_iff` ties it to the
  executable check;
* `Model.isFeasible_addRow`, `Model.admits_addRow`: a new row adds its constraint and nothing else;
* `Model.admits_narrow`: moving the ends of a range inwards.
-/

namespace MixedInteger

open Exact hiding isFinite isNaN
open Scalar (isFinite isNaN)

namespace Model

/-- Models that are made by `new?` and changed by adding rows and setting column ranges. -/
inductive Built {α : Type} [Scalar α] : Model α → Prop where
  | new {objective : Array α} {kinds : Array Kind} {m : Model α}
      (h : new? objective kinds = .ok m) : Built m
  | addRow {m m' : Model α} {terms : List (Term α)} {lower upper : α}
      (built : Built m) (h : m.addRow terms lower upper = .ok m') : Built m'
  | setColBounds {m m' : Model α} {j : Nat} {lower upper : α}
      (built : Built m) (h : m.setColBounds j lower upper = .ok m') : Built m'

/-- The model that has these rows, each given by its terms and its range. -/
def ofRows? {α : Type} [Scalar α] (objective : Array α) (kinds : Array Kind)
    (rows : List (List (Term α) × α × α)) : Except (ModelError α) (Model α) := do
  let m ← new? objective kinds
  rows.foldlM (fun m row => m.addRow row.1 row.2.1 row.2.2) m

theorem Built.addRows {α : Type} [Scalar α] {m m' : Model α} (built : Built m)
    {rows : List (List (Term α) × α × α)}
    (h : rows.foldlM (fun m row => m.addRow row.1 row.2.1 row.2.2) m = .ok m') : Built m' := by
  induction rows generalizing m with
  | nil =>
    cases h
    exact built
  | cons row rows ih =>
    rw [List.foldlM_cons] at h
    cases hrow : m.addRow row.1 row.2.1 row.2.2 with
    | error e =>
      rw [hrow] at h
      cases h
    | ok next =>
      rw [hrow] at h
      exact ih (built.addRow hrow) h

theorem Built.ofRows {α : Type} [Scalar α] {m : Model α} (objective : Array α) (kinds : Array Kind)
    (rows : List (List (Term α) × α × α)) (h : ofRows? objective kinds rows = .ok m) : Built m := by
  unfold ofRows? at h
  cases hnew : new? objective kinds with
  | error e =>
    rw [hnew] at h
    cases h
  | ok start =>
    rw [hnew] at h
    exact (Built.new hnew).addRows h

/-- The stored terms of row `i`, none if there is no such row. -/
def line (m : Model Exact) (i : Nat) : List (Term Exact) := m.matrix.lines[i]?.getD []

/-- The parts of the model fit each other, its coefficients are rational numbers, no row lies at
infinity, and binary columns stay within `[0, 1]`. Column ranges may be empty. -/
structure WellFormed (m : Model Exact) : Prop where
  objective : Point.IsRational m.objective
  kinds : m.kinds.size = m.numCols
  colLower : m.colLower.size = m.numCols
  colUpper : m.colUpper.size = m.numCols
  rowUpper : m.rowUpper.size = m.numRows
  lines : m.matrix.lines.size = m.numRows
  storage : m.matrix.storage = .byRow
  finite : ∀ i, Sparse.Finite (m.line i)
  sorted : ∀ i, Sparse.Sorted (m.line i)
  columns : ∀ i, ∀ t ∈ m.line i, t.1 < m.numCols
  rowRange : ∀ i < m.numRows, (m.rowRange i).1 < .posInf ∧ .negInf < (m.rowRange i).2
  binary : ∀ j, m.kind j = .binary → 0 ≤ (m.colRange j).1 ∧ (m.colRange j).2 ≤ 1

/-- The point meets every row. -/
def MeetsRows (m : Model Exact) (x : Point Exact) : Prop :=
  ∀ i < m.numRows, (m.rowRange i).1 ≤ m.rowActivity i x ∧ m.rowActivity i x ≤ (m.rowRange i).2

/-- A rational point that meets every column range and every row exactly. -/
structure Admits (m : Model Exact) (x : Point Exact) : Prop where
  rational : x.IsRational
  size : x.size = m.numCols
  columns : ∀ j < m.numCols, (m.colRange j).1 ≤ x.coord j ∧ x.coord j ≤ (m.colRange j).2
  rows : m.MeetsRows x

theorem withinRange_iff {range : Exact × Exact} {tol v : Exact} :
    withinRange range tol v = true ↔ range.1 - tol ≤ v ∧ v ≤ range.2 + tol := by
  simp [withinRange]

/-- Among rational points the executable check accepts the admitted ones. -/
theorem admits_iff {m : Model Exact} {x : Point Exact} :
    m.Admits x ↔ x.IsRational ∧ m.isFeasible x 0 = true := by
  simp only [isFeasible, Bool.and_eq_true, beq_iff_eq, List.all_eq_true, List.mem_range,
    withinRange_iff, zero_eq, sub_fin_zero, add_fin_zero]
  constructor
  · intro h
    exact ⟨h.rational, ⟨h.size, h.columns⟩, h.rows⟩
  · rintro ⟨hr, ⟨hs, hc⟩, hrow⟩
    exact ⟨hr, hs, hc, hrow⟩

/-! ## Values at rational points -/

theorem rowActivity_eq {m : Model Exact} (wf : m.WellFormed) (i : Nat) {x : Point Exact}
    (hx : x.IsRational) : m.rowActivity i x = .fin (Sparse.value (m.line i) x.rat) := by
  have hfin := wf.finite i
  unfold rowActivity line at *
  cases h : m.matrix.lines[i]? with
  | none => simp
  | some terms =>
    rw [h] at hfin
    exact Sparse.dot_eq hfin hx

theorem objectiveValue_eq {m : Model Exact} (hc : Point.IsRational m.objective) {x : Point Exact}
    (hx : x.IsRational) (hsize : x.size = m.numCols) :
    m.objectiveValue x = .fin (weighted m.objective x.rat) := by
  have hzip : List.zipWith (· * ·) m.objective.toList x.toList
      = (List.range m.numCols).map fun j => Point.coord m.objective j * x.coord j := by
    apply List.ext_getElem
    · simpa [numCols] using hsize.ge
    · intro j h₁ h₂
      have hj : j < m.numCols := by simpa using h₂
      have hj' : j < Array.size x := hsize ▸ hj
      have hj'' : j < m.objective.size := hj
      simp [Point.coord, Array.getElem?_eq_getElem hj', Array.getElem?_eq_getElem hj'']
  unfold objectiveValue
  rw [hzip, sum_eq (f := fun j => Point.rat m.objective j * x.rat j)]
  · rfl
  · intro j _
    rw [Point.coord_eq hc, x.coord_eq hx]
    rfl

/-! ## Adding a row -/

theorem checkTerms_ok {α : Type} [Scalar α] {i n : Nat} {ts : List (Term α)}
    (h : checkTerms i n ts = .ok ()) :
    (∀ t ∈ ts, t.1 < n) ∧ ∀ t ∈ ts, isFinite t.2 = true := by
  induction ts with
  | nil => simp
  | cons t rest ih =>
    obtain ⟨j, a⟩ := t
    simp only [checkTerms] at h
    split at h
    · cases h
    · split at h
      · cases h
      · obtain ⟨hcol, hfin⟩ := ih h
        have ha : isFinite a = true := by simpa using ‹¬ (!isFinite a) = true›
        exact ⟨List.forall_mem_cons.mpr ⟨by omega, hcol⟩, List.forall_mem_cons.mpr ⟨ha, hfin⟩⟩

theorem checkRange_ok {line : Line} {lower upper : Exact}
    (h : checkRange line lower upper = .ok ()) : lower < .posInf ∧ .negInf < upper := by
  unfold checkRange at h
  cases lower <;> cases upper <;> first | exact ⟨rfl, rfl⟩ | cases h

theorem addRow_ok {α : Type} [Scalar α] {m m' : Model α} {terms : List (Term α)} {lower upper : α}
    (h : m.addRow terms lower upper = .ok m') :
    checkTerms m.numRows m.numCols terms = .ok () ∧
    checkRange (.row m.numRows) lower upper = .ok () ∧
    m' = { m with
      matrix := m.matrix.appendLine (SparseRow.ofTerms m.numCols terms)
      rowLower := m.rowLower.push lower
      rowUpper := m.rowUpper.push upper } := by
  unfold addRow at h
  cases ht : checkTerms m.numRows m.numCols terms with
  | error e => simp [ht, bind, Except.bind] at h
  | ok _ =>
    cases hr : checkRange (.row m.numRows) lower upper with
    | error e => simp [ht, hr, bind, Except.bind] at h
    | ok _ =>
      simp only [ht, hr, bind, Except.bind, pure, Except.pure, Except.ok.injEq] at h
      exact ⟨rfl, rfl, h.symm⟩

theorem numRows_addRow {α : Type} [Scalar α] {m m' : Model α} {terms : List (Term α)}
    {lower upper : α} (h : m.addRow terms lower upper = .ok m') : m'.numRows = m.numRows + 1 := by
  obtain ⟨_, _, rfl⟩ := addRow_ok h
  simp [numRows]

section Added

variable {α : Type} [Scalar α] {m m' : Model α} {terms : List (Term α)} {lower upper : α}

/-- The new row stores the stored form of its terms, and the other rows stay as they are. -/
theorem lines_addRow (hlines : m.matrix.lines.size = m.numRows)
    (h : m.addRow terms lower upper = .ok m') (i : Nat) :
    m'.matrix.lines[i]?
      = if i = m.numRows then some (Sparse.normalize terms) else m.matrix.lines[i]? := by
  obtain ⟨_, _, rfl⟩ := addRow_ok h
  rw [Matrix.lines_appendLine, Array.getElem?_push, hlines]
  rfl

theorem rowActivity_addRow (hlines : m.matrix.lines.size = m.numRows)
    (h : m.addRow terms lower upper = .ok m') (i : Nat) (x : Point α) :
    m'.rowActivity i x
      = if i = m.numRows then Sparse.dot (Sparse.normalize terms) x else m.rowActivity i x := by
  simp only [rowActivity, lines_addRow hlines h]
  by_cases hi : i = m.numRows
  · rw [if_pos hi, if_pos hi]
  · rw [if_neg hi, if_neg hi]

theorem rowRange_addRow (hupper : m.rowUpper.size = m.numRows)
    (h : m.addRow terms lower upper = .ok m') (i : Nat) :
    m'.rowRange i = if i = m.numRows then (lower, upper) else m.rowRange i := by
  obtain ⟨_, _, rfl⟩ := addRow_ok h
  have hlow : m.rowLower.size = m.numRows := rfl
  simp only [Model.rowRange, Array.getElem?_push, hupper, hlow]
  split <;> simp_all

/-- Whatever the arithmetic, the check asks one thing more of a point than before. -/
theorem isFeasible_addRow (hlines : m.matrix.lines.size = m.numRows)
    (hupper : m.rowUpper.size = m.numRows) (h : m.addRow terms lower upper = .ok m')
    {x : Point α} {tol : α} :
    m'.isFeasible x tol = true ↔ m.isFeasible x tol = true ∧
      withinRange (lower, upper) tol (Sparse.dot (Sparse.normalize terms) x) = true := by
  have hrows := numRows_addRow h
  have hactivity := rowActivity_addRow hlines h
  have hrange := rowRange_addRow hupper h
  have hcolumns : m'.numCols = m.numCols ∧ ∀ j, m'.colRange j = m.colRange j := by
    obtain ⟨_, _, rfl⟩ := addRow_ok h
    exact ⟨rfl, fun _ => rfl⟩
  simp only [isFeasible, Bool.and_eq_true, List.all_eq_true, List.mem_range, hrows, hcolumns,
    hactivity, hrange]
  constructor
  · rintro ⟨hbefore, hall⟩
    have hnew := hall m.numRows (Nat.lt_succ_self _)
    rw [if_pos rfl, if_pos rfl] at hnew
    refine ⟨⟨hbefore, ?_⟩, hnew⟩
    intro i hi
    have hold := hall i (Nat.lt_succ_of_lt hi)
    rwa [if_neg hi.ne, if_neg hi.ne] at hold
  · rintro ⟨⟨hbefore, hold⟩, hnew⟩
    refine ⟨hbefore, ?_⟩
    intro i hi
    by_cases hlast : i = m.numRows
    · rwa [if_pos hlast, if_pos hlast]
    · rw [if_neg hlast, if_neg hlast]
      exact hold i (by omega)

end Added

/-- Adding a row leaves the other rows as they are. -/
theorem line_addRow {m m' : Model Exact} (wf : m.WellFormed) {terms : List (Term Exact)}
    {lower upper : Exact} (h : m.addRow terms lower upper = .ok m') (i : Nat) :
    m'.line i = if i = m.numRows then Sparse.normalize terms else m.line i := by
  simp only [line, lines_addRow wf.lines h]
  split <;> rfl

theorem WellFormed.addRow {m m' : Model Exact} (wf : m.WellFormed) {terms : List (Term Exact)}
    {lower upper : Exact} (h : m.addRow terms lower upper = .ok m') : m'.WellFormed := by
  obtain ⟨hterms, hrange, hm'⟩ := addRow_ok h
  obtain ⟨hcols, hfin⟩ := checkTerms_ok hterms
  have hcols' : m'.numCols = m.numCols := by rw [hm']; rfl
  have hrows' := numRows_addRow h
  constructor
  case objective => rw [hm']; exact wf.objective
  case kinds => rw [hm']; exact wf.kinds
  case colLower => rw [hm']; exact wf.colLower
  case colUpper => rw [hm']; exact wf.colUpper
  case rowUpper => rw [hrows', hm']; simp [wf.rowUpper]
  case lines => rw [hrows', hm']; simp [Matrix.appendLine, wf.storage, wf.lines]
  case storage => rw [hm']; simp [Matrix.appendLine, wf.storage]
  case finite =>
    intro i
    rw [line_addRow wf h]
    split
    · exact Sparse.finite_normalize hfin
    · exact wf.finite i
  case sorted =>
    intro i
    rw [line_addRow wf h]
    split
    · exact Sparse.sorted_normalize terms
    · exact wf.sorted i
  case columns =>
    intro i t ht
    rw [line_addRow wf h] at ht
    rw [hcols']
    split at ht
    · obtain ⟨s, hs, hst⟩ := Sparse.fst_mem_normalize ht
      exact hst ▸ hcols s hs
    · exact wf.columns i t ht
  case rowRange =>
    intro i hi
    rw [rowRange_addRow wf.rowUpper h]
    split
    · exact checkRange_ok hrange
    · exact wf.rowRange i (by omega)
  case binary => rw [hm']; exact wf.binary

/-- A new row adds its own constraint and no other. -/
theorem admits_addRow {m m' : Model Exact} (wf : m.WellFormed) {terms : List (Term Exact)}
    {lower upper : Exact} (h : m.addRow terms lower upper = .ok m') {x : Point Exact} :
    m'.Admits x ↔ m.Admits x ∧
      lower ≤ .fin (Sparse.value terms x.rat) ∧ .fin (Sparse.value terms x.rat) ≤ upper := by
  have hfin := (checkTerms_ok (addRow_ok h).1).2
  rw [admits_iff, admits_iff, isFeasible_addRow wf.lines wf.rowUpper h, withinRange_iff, and_assoc]
  apply and_congr_right
  intro hx
  rw [Sparse.dot_eq (Sparse.finite_normalize hfin) hx, Sparse.value_normalize _ hfin, zero_eq,
    sub_fin_zero, add_fin_zero]

/-! ## Moving a bound -/

theorem setColBounds_ok {α : Type} [Scalar α] {m m' : Model α} {j : Nat} {lower upper : α}
    (h : m.setColBounds j lower upper = .ok m') :
    j < m.numCols ∧ isNaN lower = false ∧ isNaN upper = false ∧
    m' = { m with
      colLower := m.colLower.setIfInBounds j (clampRange (m.kind j) lower upper).1
      colUpper := m.colUpper.setIfInBounds j (clampRange (m.kind j) lower upper).2 } := by
  unfold setColBounds at h
  split at h
  · cases h
  · split at h
    · cases h
    · rename_i hj hnan
      simp only [Bool.or_eq_true, not_or, Bool.not_eq_true] at hnan
      cases h
      exact ⟨by omega, hnan.1, hnan.2, rfl⟩

theorem colRange_setColBounds {α : Type} [Scalar α] {m m' : Model α}
    (hlower : m.colLower.size = m.numCols) (hupper : m.colUpper.size = m.numCols) {j : Nat}
    {lower upper : α} (h : m.setColBounds j lower upper = .ok m') (k : Nat) :
    m'.colRange k = if k = j then clampRange (m.kind j) lower upper else m.colRange k := by
  obtain ⟨hj, _, _, rfl⟩ := setColBounds_ok h
  simp only [colRange, Array.getElem?_setIfInBounds, hlower, hupper, hj]
  by_cases hk : k = j
  · simp [hk]
  · simp [hk, Ne.symm hk]

/-- Binary columns are clamped to `[0, 1]`. -/
theorem clampRange_binary {lower upper : Exact} (hl : isNaN lower = false)
    (hu : isNaN upper = false) :
    0 ≤ (clampRange .binary lower upper).1 ∧ (clampRange .binary lower upper).2 ≤ 1 := by
  constructor
  · cases lower with
    | undefined => cases hl
    | negInf => rfl
    | fin q => simp [clampRange]
    | posInf => rfl
  · cases upper with
    | undefined => cases hu
    | negInf => rfl
    | fin q => simp [clampRange]
    | posInf => rfl

theorem WellFormed.setColBounds {m m' : Model Exact} (wf : m.WellFormed) {j : Nat}
    {lower upper : Exact} (h : m.setColBounds j lower upper = .ok m') : m'.WellFormed := by
  obtain ⟨hj, hl, hu, hm'⟩ := setColBounds_ok h
  constructor
  case binary =>
    intro k hk
    have hk' : m.kind k = .binary := by rw [← hk, hm']; rfl
    rw [colRange_setColBounds wf.colLower wf.colUpper h]
    split
    · subst k
      rw [hk']
      exact clampRange_binary hl hu
    · exact wf.binary k hk'
  case colLower => rw [hm']; exact Array.size_setIfInBounds.trans wf.colLower
  case colUpper => rw [hm']; exact Array.size_setIfInBounds.trans wf.colUpper
  all_goals rw [hm']
  case objective => exact wf.objective
  case kinds => exact wf.kinds
  case rowUpper => exact wf.rowUpper
  case lines => exact wf.lines
  case storage => exact wf.storage
  case finite => exact wf.finite
  case sorted => exact wf.sorted
  case columns => exact wf.columns
  case rowRange => exact wf.rowRange

/-- A range that lies within the present one is taken as it is given, also by a binary column. -/
theorem clampRange_narrow {m : Model Exact} (wf : m.WellFormed) {j : Nat} {lower upper : Exact}
    (hlower : (m.colRange j).1 ≤ lower) (hupper : upper ≤ (m.colRange j).2) :
    clampRange (m.kind j) lower upper = (lower, upper) := by
  cases hk : m.kind j with
  | continuous => rfl
  | integer => rfl
  | binary =>
    obtain ⟨hzero, hone⟩ := wf.binary j hk
    have hl := larger_eq_left (Exact.le_trans hzero hlower)
    have hu := smaller_eq_left (Exact.le_trans hupper hone)
    simp only [clampRange, zero_eq, one_eq, hl, hu]

/-- Narrowing the range of a column keeps exactly the points within the new range. -/
theorem admits_narrow {m m' : Model Exact} (wf : m.WellFormed) {j : Nat} {lower upper : Exact}
    (h : m.setColBounds j lower upper = .ok m') (hlower : (m.colRange j).1 ≤ lower)
    (hupper : upper ≤ (m.colRange j).2) {x : Point Exact} :
    m'.Admits x ↔ m.Admits x ∧ lower ≤ x.coord j ∧ x.coord j ≤ upper := by
  have hrange (k : Nat) : m'.colRange k = if k = j then (lower, upper) else m.colRange k := by
    rw [colRange_setColBounds wf.colLower wf.colUpper h, clampRange_narrow wf hlower hupper]
  obtain ⟨hj, _, _, hm'⟩ := setColBounds_ok h
  have hcols : m'.numCols = m.numCols := by rw [hm']; rfl
  have hrows : m'.MeetsRows x ↔ m.MeetsRows x := by rw [hm']; rfl
  constructor
  · intro hx
    have hjx := hx.columns j (hcols ▸ hj)
    rw [hrange, if_pos rfl] at hjx
    refine ⟨⟨hx.rational, hx.size.trans hcols, ?_, hrows.mp hx.rows⟩, hjx⟩
    intro k hk
    by_cases hkj : k = j
    · rw [hkj]
      exact ⟨Exact.le_trans hlower hjx.1, Exact.le_trans hjx.2 hupper⟩
    · have hkx := hx.columns k (hcols ▸ hk)
      rwa [hrange, if_neg hkj] at hkx
  · rintro ⟨hx, hjx⟩
    refine ⟨hx.rational, hx.size.trans hcols.symm, ?_, hrows.mpr hx.rows⟩
    intro k hk
    rw [hrange]
    split
    · rwa [‹k = j›]
    · exact hx.columns k (hcols ▸ hk)

/-! ## Models built step by step -/

theorem wellFormed_new {objective : Array Exact} {kinds : Array Kind} {m : Model Exact}
    (h : new? objective kinds = .ok m) : m.WellFormed := by
  unfold new? at h
  split at h
  · cases h
  · rename_i hsize
    cases hbad : badObjective? objective with
    | some j => simp [hbad] at h
    | none =>
      simp only [hbad, Except.ok.injEq] at h
      subst h
      have hkinds : kinds.size = objective.size := by omega
      constructor
      case objective =>
        apply Point.isRational_of_lt
        intro j hj
        have := Array.findIdx?_eq_none_iff.mp hbad objective[j] (Array.getElem_mem hj)
        simpa [Point.coord, Array.getElem?_eq_getElem hj] using this
      case binary =>
        intro j hk
        by_cases hj : j < objective.size
        · have hj' : j < kinds.size := by omega
          have hkj : kinds[j] = .binary := by
            simpa [kind, Array.getElem?_eq_getElem hj'] using hk
          simp [colRange, hj, hj', hkj]
        · have hj' : kinds.size ≤ j := by omega
          simp [kind, Array.getElem?_eq_none hj'] at hk
      case kinds => exact hkinds
      case colLower => simp [numCols]
      case colUpper => simpa [numCols] using hkinds
      case rowUpper => rfl
      case lines => rfl
      case storage => rfl
      case finite => simp [line, Matrix.zero, Sparse.Finite]
      case sorted => simp [line, Matrix.zero, Sparse.Sorted]
      case columns => simp [line, Matrix.zero]
      case rowRange => simp [numRows]

theorem Built.wellFormed {m : Model Exact} (h : m.Built) : m.WellFormed := by
  induction h with
  | new h => exact wellFormed_new h
  | addRow _ h ih => exact ih.addRow h
  | setColBounds _ h ih => exact ih.setColBounds h

end Model

end MixedInteger
