import MixedInteger.Proofs.NumberOrder
import MixedInteger.Proofs.SolverStates

/-!
# Models after any calls

A model is made once and then edited by calls, which may be given any numbers at all. A call checks
the numbers that it is given, so neither an undefined number nor a row at infinity gets in. The
coefficients given for one column are added up after that check: their sum is not looked at again,
and it may be infinite. Such sums and empty column ranges are all that `validate` can object to.

* `Scalar.Regular`: what this needs of the arithmetic, with instances for exact arithmetic and for
  double precision;
* `Sparse.total?`, `Sparse.mem_normalize`: what a row stores of the terms that it is given;
* `Model.Call`, `Model.perform`: what can be asked of a model, failures included;
* `Model.Intact`: the invariant; `Model.Intact.perform`, `Model.Intact.performAll`;
* `Model.performAll_intact`: what every reachable model shows.
-/

namespace MixedInteger

open Scalar

/-! ## Laws -/

/-- Defined numbers compare with themselves and with the larger and the smaller of two, and adding a
finite number makes none undefined. -/
class Scalar.Regular (α : Type) [Scalar α] : Prop extends Definite α where
  of_isFinite : ∀ {a : α}, isFinite a = true → isNaN a = false
  add : ∀ {a b : α}, isNaN a = false → isFinite b = true → isNaN (a + b) = false
  le_refl : ∀ {a : α}, isNaN a = false → a ≤ a
  le_larger : ∀ {a b : α}, isNaN a = false → isNaN b = false → b ≤ Scalar.larger a b
  smaller_le : ∀ {a b : α}, isNaN a = false → isNaN b = false → Scalar.smaller a b ≤ b

/-- What holds of `b`, and of `a` where `a` is chosen, holds of the one that is chosen. -/
theorem of_choice {α : Type} {P : α → Prop} {a b : α} {p q r : Prop} [Decidable p] [Decidable q]
    [Decidable r] (hb : P b) (hq : ¬ q) (ha : r → P a) :
    P (if p then b else if q then a else if r then a else b) := by
  rw [if_neg hq]
  split
  · exact hb
  · split
    · exact ha ‹r›
    · exact hb

instance : Regular Exact where
  of_isFinite {a} h := by
    cases a with
    | fin => rfl
    | undefined | negInf | posInf => cases h
  add {a b} ha hb := by
    obtain ⟨q, rfl⟩ := Exact.isFinite_iff.mp hb
    cases a with
    | undefined => cases ha
    | negInf | fin | posInf => rfl
  le_refl h := Exact.le_refl h
  le_larger {_ b} _ hb :=
    of_choice (P := (b ≤ ·)) (Exact.le_refl hb) (Bool.not_eq_true _ ▸ hb) Exact.le_of_lt
  smaller_le {_ b} _ hb :=
    of_choice (P := (· ≤ b)) (Exact.le_refl hb) (Bool.not_eq_true _ ▸ hb) Exact.le_of_lt

namespace Binary64

open Float.Model UnpackedFloat

theorem isNaN_of_isFinite {x : Float} (h : x.isFinite = true) : x.isNaN = false := by
  unfold Float.isFinite Float.Model.isFinite at h
  unfold Float.isNaN Float.Model.isNaN
  cases hx : x.toModel.unpack with
  | zero | finite => rfl
  | notANumber | infinity =>
    rw [hx] at h
    cases h

/-- Only infinities of different signs have an undefined sum. -/
theorem isNaN_add {x y : Float} (hx : x.isNaN = false) (hy : y.isFinite = true) :
    (x + y).isNaN = false := by
  unfold Float.isNaN Float.Model.isNaN at hx
  unfold Float.isFinite Float.Model.isFinite at hy
  refine (isNaN_pack (x.toModel.unpack.add .binary64 y.toModel.unpack)).trans ?_
  cases hyu : y.toModel.unpack with
  | notANumber | infinity =>
    rw [hyu] at hy
    cases hy
  | zero other =>
    cases hxu : x.toModel.unpack with
    | notANumber =>
      rw [hxu] at hx
      cases hx
    | infinity | finite => rfl
    | zero sign => cases sign <;> cases other <;> rfl
  | finite =>
    cases hxu : x.toModel.unpack with
    | notANumber =>
      rw [hxu] at hx
      cases hx
    | infinity | zero => rfl
    | finite => exact isNaN_normalize _ _ _ _

end Binary64

instance : Regular Float where
  of_isFinite := Binary64.isNaN_of_isFinite
  add := Binary64.isNaN_add
  le_refl := Ordered.le_refl
  le_larger {_ b} _ hb :=
    of_choice (P := (b ≤ ·)) (Ordered.le_refl hb) (Bool.not_eq_true _ ▸ hb) Binary64.le_of_lt
  smaller_le {_ b} _ hb :=
    of_choice (P := (· ≤ b)) (Ordered.le_refl hb) (Bool.not_eq_true _ ▸ hb) Binary64.le_of_lt

/-! ## What a row stores -/

namespace Sparse

section Given

variable {α : Type}

/-- The coefficients given for a column, in the order in which they are given. -/
def coefficients (ts : List (Term α)) (j : Nat) : List α :=
  (ts.filter fun t => t.1 = j).map Prod.snd

theorem coefficients_cons (t : Term α) (ts : List (Term α)) (j : Nat) :
    coefficients (t :: ts) j
      = if t.1 = j then t.2 :: coefficients ts j else coefficients ts j := by
  by_cases h : t.1 = j <;> simp [coefficients, h]

theorem coefficients_eq_nil {ts : List (Term α)} {j : Nat} (h : ∀ t ∈ ts, t.1 ≠ j) :
    coefficients ts j = [] := by
  simpa [coefficients] using h

/-- A term is put in front of the others of its column. -/
theorem coefficients_insertTerm (t : Term α) (ts : List (Term α)) (j : Nat) :
    coefficients (insertTerm t ts) j = coefficients (t :: ts) j := by
  induction ts with
  | nil => rfl
  | cons s rest ih =>
    unfold insertTerm
    split
    · rfl
    · simp only [coefficients_cons, ih]
      -- Only terms of different columns change places.
      by_cases ht : t.1 = j
      · have hs : s.1 ≠ j := by omega
        simp [ht, hs]
      · simp [ht]

theorem coefficients_sortTerms (ts : List (Term α)) (j : Nat) :
    coefficients (sortTerms ts) j = coefficients ts j := by
  induction ts with
  | nil => rfl
  | cons t ts ih =>
    change coefficients (insertTerm t (sortTerms ts)) j = _
    rw [coefficients_insertTerm, coefficients_cons, coefficients_cons, ih]

end Given

variable {α : Type} [Scalar α]

/-- The sum of the coefficients given for a column, from left to right, if there are any. -/
def total? (ts : List (Term α)) (j : Nat) : Option α :=
  match coefficients ts j with
  | [] => none
  | a :: rest => some (rest.foldl (· + ·) a)

theorem total?_congr {ts ts' : List (Term α)} {j : Nat}
    (h : coefficients ts j = coefficients ts' j) : total? ts j = total? ts' j := by
  unfold total?
  rw [h]

theorem mem_mergeFrom {j : Nat} {a : α} {ts : List (Term α)}
    (h : ((j, a) :: ts).Pairwise fun s t => s.1 ≤ t.1) {k : Nat} {b : α} :
    (k, b) ∈ mergeFrom j a ts ↔ total? ((j, a) :: ts) k = some b := by
  induction ts generalizing j a with
  | nil =>
    by_cases hk : j = k
    · simp [mergeFrom, total?, hk, coefficients, eq_comm]
    · simp [mergeFrom, total?, hk, coefficients, Ne.symm hk]
  | cons s rest ih =>
    obtain ⟨i, c⟩ := s
    obtain ⟨hj, hrest⟩ := List.pairwise_cons.mp h
    unfold mergeFrom
    split
    · subst i
      have hmerged : ((j, a + c) :: rest).Pairwise fun s t => s.1 ≤ t.1 :=
        List.pairwise_cons.mpr ⟨fun t ht => hj t (List.mem_cons_of_mem _ ht),
          (List.pairwise_cons.mp hrest).2⟩
      rw [ih hmerged]
      by_cases hk : j = k <;> simp [total?, coefficients_cons, hk]
    · have hlt : j < i := by
        have hle : j ≤ i := hj (i, c) List.mem_cons_self
        omega
      rw [List.mem_cons, ih hrest]
      by_cases hk : j = k
      · subst k
        -- The columns that follow are all larger.
        have hnone : coefficients ((i, c) :: rest) j = [] := by
          apply coefficients_eq_nil
          intro t ht
          rcases List.mem_cons.mp ht with rfl | ht
          · exact hlt.ne'
          · have hle : i ≤ t.1 := (List.pairwise_cons.mp hrest).1 t ht
            omega
        rw [total?, total?, coefficients_cons (j, a), hnone]
        simp [eq_comm]
      · have hskip :
            coefficients ((j, a) :: (i, c) :: rest) k = coefficients ((i, c) :: rest) k := by
          rw [coefficients_cons, if_neg hk]
        rw [total?_congr hskip]
        simp [Ne.symm hk]

/-- The stored form has a term for each column whose coefficients do not add up to zero. -/
theorem mem_normalize {ts : List (Term α)} {j : Nat} {a : α} :
    (j, a) ∈ normalize ts ↔ total? ts j = some a ∧ (a == 0) = false := by
  have hmerge : (j, a) ∈ mergeTerms (sortTerms ts) ↔ total? ts j = some a := by
    rw [← total?_congr (coefficients_sortTerms ts j)]
    have hordered := sortTerms_ordered ts
    cases hs : sortTerms ts with
    | nil => simp [mergeTerms, total?, coefficients]
    | cons t rest => exact mem_mergeFrom (hs ▸ hordered)
  rw [normalize, List.mem_filter, hmerge, Bool.not_eq_true']

/-- A column that is given once keeps its coefficient. -/
theorem mem_of_total? {ts : List (Term α)} (honce : (ts.map Prod.fst).Nodup) {j : Nat} {a : α}
    (h : total? ts j = some a) : (j, a) ∈ ts := by
  induction ts with
  | nil => cases h
  | cons t rest ih =>
    obtain ⟨hfresh, honce⟩ := List.nodup_cons.mp honce
    by_cases ht : t.1 = j
    · have hrest : coefficients rest j = [] := by
        apply coefficients_eq_nil
        intro s hs hsj
        exact hfresh (List.mem_map.mpr ⟨s, hs, hsj.trans ht.symm⟩)
      rw [total?, coefficients_cons, if_pos ht, hrest] at h
      cases h
      exact ht ▸ List.mem_cons_self
    · have hskip : coefficients (t :: rest) j = coefficients rest j := by
        rw [coefficients_cons, if_neg ht]
      exact List.mem_cons_of_mem _ (ih honce (total?_congr hskip ▸ h))

theorem isNaN_foldl_add [Regular α] {l : List α} {a : α} (ha : isNaN a = false)
    (hl : ∀ b ∈ l, isFinite b = true) : isNaN (l.foldl (· + ·) a) = false := by
  induction l generalizing a with
  | nil => exact ha
  | cons b rest ih =>
    obtain ⟨hb, hrest⟩ := List.forall_mem_cons.mp hl
    exact ih (Regular.add ha hb) hrest

/-- Sums of finite numbers are defined, but they may be infinite. -/
theorem isNaN_total? [Regular α] {ts : List (Term α)} (hts : ∀ t ∈ ts, isFinite t.2 = true)
    {j : Nat} {a : α} (h : total? ts j = some a) : isNaN a = false := by
  have hfinite : ∀ b ∈ coefficients ts j, isFinite b = true := by
    intro b hb
    obtain ⟨t, ht, rfl⟩ := List.mem_map.mp hb
    exact hts t (List.mem_filter.mp ht).1
  unfold total? at h
  split at h
  · cases h
  · rename_i b rest hcoefficients
    rw [hcoefficients] at hfinite
    cases h
    obtain ⟨hb, hrest⟩ := List.forall_mem_cons.mp hfinite
    exact isNaN_foldl_add (Regular.of_isFinite hb) hrest

end Sparse

/-! ## Calls -/

namespace Model

variable {α : Type} [Scalar α]

/-- What can be asked of a model. -/
inductive Call (α : Type) where
  | addRow (terms : List (Term α)) (lower upper : α)
  | addLe (terms : List (Term α)) (rhs : α)
  | addGe (terms : List (Term α)) (rhs : α)
  | addEq (terms : List (Term α)) (rhs : α)
  | setColBounds (j : Nat) (lower upper : α)

/-- The terms of the row that the call adds. -/
def Call.terms? : Call α → Option (List (Term α))
  | .addRow terms _ _ | .addLe terms _ | .addGe terms _ | .addEq terms _ => some terms
  | .setColBounds .. => none

def attempt (m : Model α) : Call α → Except (ModelError α) (Model α)
  | .addRow terms lower upper => m.addRow terms lower upper
  | .addLe terms rhs => m.addLe terms rhs
  | .addGe terms rhs => m.addGe terms rhs
  | .addEq terms rhs => m.addEq terms rhs
  | .setColBounds j lower upper => m.setColBounds j lower upper

/-- The call as a change in place. It gives the index of the row that it adds. -/
def Call.change : Call α → Change (ModelError α) (Model α) (Option Nat)
  | .addRow terms lower upper => some <$> addRowInPlace terms lower upper
  | .addLe terms rhs => some <$> addRowInPlace terms negInf rhs
  | .addGe terms rhs => some <$> addRowInPlace terms rhs posInf
  | .addEq terms rhs => some <$> addRowInPlace terms rhs rhs
  | .setColBounds j lower upper => (fun _ => none) <$> setColBoundsInPlace j lower upper

/-- The model after a call, also after one that fails. -/
def perform (m : Model α) (c : Call α) : Model α := c.change.after m

def performAll (m : Model α) (calls : List (Call α)) : Model α := calls.foldl perform m

theorem Call.change_eq (c : Call α) : c.change =
    Change.atomic (fun m => m.attempt c) fun m => c.terms?.map fun _ => m.numRows - 1 := by
  have hrow (terms : List (Term α)) (lower upper : α) :
      (some <$> addRowInPlace terms lower upper : Change _ _ _)
        = Change.atomic (fun m => m.addRow terms lower upper) fun m => some (m.numRows - 1) := by
    rw [addRowInPlace_eq, Change.map_atomic]
    rfl
  cases c with
  | addRow terms lower upper => exact hrow terms lower upper
  | addLe terms rhs => exact hrow terms negInf rhs
  | addGe terms rhs => exact hrow terms rhs posInf
  | addEq terms rhs => exact hrow terms rhs rhs
  | setColBounds j lower upper =>
    change (fun _ => none) <$> setColBoundsInPlace j lower upper = _
    rw [setColBoundsInPlace_eq, Change.map_atomic]
    rfl

/-- A call that fails has written nothing. -/
theorem perform_eq (m : Model α) (c : Call α) : m.perform c =
    match m.attempt c with
    | .ok m' => m'
    | .error _ => m := by
  unfold perform
  rw [c.change_eq, Change.after_atomic]
  cases m.attempt c <;> rfl

variable {m m' : Model α} {c : Call α}

/-- A call that succeeds adds one row, or sets the range of one column. -/
theorem attempt_ok (h : m.attempt c = .ok m') :
    (∃ terms lower upper, c.terms? = some terms ∧ m.addRow terms lower upper = .ok m') ∨
    ∃ j lower upper, m.setColBounds j lower upper = .ok m' := by
  cases c with
  | addRow terms lower upper => exact .inl ⟨terms, lower, upper, rfl, h⟩
  | addLe terms rhs => exact .inl ⟨terms, negInf, rhs, rfl, h⟩
  | addGe terms rhs => exact .inl ⟨terms, rhs, posInf, rfl, h⟩
  | addEq terms rhs => exact .inl ⟨terms, rhs, rhs, rfl, h⟩
  | setColBounds j lower upper => exact .inr ⟨j, lower, upper, h⟩

/-! ## The invariant -/

/-- The parts fit, each row has a range that passes the check and stores the terms it was given,
which have the property `P`, and binary columns stay within `[0, 1]`. Column ranges may be empty,
and stored coefficients may be infinite. -/
structure Intact (P : List (Term α) → Prop) (m : Model α) : Prop extends m.Shaped where
  height : m.matrix.height = m.numRows
  width : m.matrix.width = m.numCols
  storage : m.matrix.storage = .byRow
  objective : badObjective? m.objective = none
  rows : ∀ i < m.numRows, checkRange (.row i) (m.rowRange i).1 (m.rowRange i).2 = .ok ()
  binary : ∀ j, m.kind j = .binary → 0 ≤ (m.colRange j).1 ∧ (m.colRange j).2 ≤ 1
  stored : ∀ line ∈ m.matrix.lines, ∃ terms, P terms ∧ (∀ t ∈ terms, t.1 < m.numCols) ∧
    (∀ t ∈ terms, isFinite t.2 = true) ∧ line = Sparse.normalize terms

variable {P : List (Term α) → Prop}

theorem Intact.addRow (hm : m.Intact P) {terms : List (Term α)} (hterms : P terms)
    {lower upper : α} (h : m.addRow terms lower upper = .ok m') : m'.Intact P := by
  obtain ⟨hcheck, hnew, hm'⟩ := addRow_ok h
  obtain ⟨hcols, hfin⟩ := checkTerms_ok hcheck
  have hcols' : m'.numCols = m.numCols := by rw [hm']; rfl
  have hrows' := numRows_addRow h
  refine ⟨hm.toShaped.addRow h, ?height, ?width, ?storage, ?objective, ?rows, ?binary, ?stored⟩
  case height => rw [hrows', hm']; simp [Matrix.appendLine, hm.storage, hm.height]
  case width => rw [hcols', hm']; simp [Matrix.appendLine, hm.storage, hm.width]
  case storage => rw [hm']; simp [Matrix.appendLine, hm.storage]
  case objective => rw [hm']; exact hm.objective
  case binary => rw [hm']; exact hm.binary
  case rows =>
    intro i hi
    rw [rowRange_addRow hm.rowUpper h]
    split
    · subst i
      exact hnew
    · exact hm.rows i (by omega)
  case stored =>
    intro line hline
    rw [hm', Matrix.lines_appendLine] at hline
    rw [hcols']
    rcases Array.mem_push.mp hline with hold | rfl
    · exact hm.stored line hold
    · exact ⟨terms, hterms, hcols, hfin, rfl⟩

section Edits

variable [Regular α]

/-- A binary column never leaves `[0, 1]`, whatever range it is given. -/
theorem clampRange_within {lower upper : α} (hlower : isNaN lower = false)
    (hupper : isNaN upper = false) :
    0 ≤ (clampRange .binary lower upper).1 ∧ (clampRange .binary lower upper).2 ≤ 1 :=
  ⟨Regular.le_larger hlower Definite.zero, Regular.smaller_le hupper Definite.one⟩

theorem Intact.setColBounds (hm : m.Intact P) {j : Nat} {lower upper : α}
    (h : m.setColBounds j lower upper = .ok m') : m'.Intact P := by
  have hshaped := hm.toShaped.setColBounds h
  have hrange := colRange_setColBounds hm.colLower hm.colUpper h
  obtain ⟨-, hlower, hupper, rfl⟩ := setColBounds_ok h
  refine ⟨hshaped, ?height, ?width, ?storage, ?objective, ?rows, ?binary, ?stored⟩
  case height => exact hm.height
  case width => exact hm.width
  case storage => exact hm.storage
  case objective => exact hm.objective
  case rows => exact hm.rows
  case stored => exact hm.stored
  case binary =>
    intro k hk
    have hk : m.kind k = .binary := hk
    rw [hrange]
    split
    · subst k
      rw [hk]
      exact clampRange_within hlower hupper
    · exact hm.binary k hk

theorem intact_new {objective : Array α} {kinds : Array Kind} (h : new? objective kinds = .ok m) :
    m.Intact P := by
  have hshaped := (shaped_new h).1
  unfold new? at h
  split at h
  · cases h
  · rename_i hsize
    have hkinds : kinds.size = objective.size := not_not.mp hsize
    cases hbad : badObjective? objective with
    | some j => simp [hbad] at h
    | none =>
      simp only [hbad, Except.ok.injEq] at h
      subst h
      refine ⟨hshaped, ?height, ?width, ?storage, ?objective, ?rows, ?binary, ?stored⟩
      case height => rfl
      case width => rfl
      case storage => rfl
      case objective => exact hbad
      case rows => nofun
      case stored => simp [Matrix.zero]
      case binary =>
        intro j hk
        by_cases hj : j < kinds.size
        · have hj' : j < objective.size := hkinds ▸ hj
          have hkj : kinds[j] = .binary := by
            simpa [kind, Array.getElem?_eq_getElem hj] using hk
          simp [colRange, hj, hj', hkj, Regular.le_refl, Definite.zero, Definite.one]
        · simp [kind, Array.getElem?_eq_none (Nat.le_of_not_lt hj)] at hk

/-- A call keeps the invariant. -/
theorem Intact.perform (hm : m.Intact P) (hc : ∀ terms, c.terms? = some terms → P terms) :
    (m.perform c).Intact P := by
  rw [perform_eq]
  cases h : m.attempt c with
  | error e => exact hm
  | ok m' =>
    rcases attempt_ok h with ⟨terms, lower, upper, hterms, hadd⟩ | ⟨j, lower, upper, hset⟩
    · exact hm.addRow (hc terms hterms) hadd
    · exact hm.setColBounds hset

theorem Intact.performAll (hm : m.Intact P) {calls : List (Call α)}
    (hcalls : ∀ c ∈ calls, ∀ terms, c.terms? = some terms → P terms) :
    (m.performAll calls).Intact P := by
  induction calls generalizing m with
  | nil => exact hm
  | cons c rest ih =>
    obtain ⟨hc, hrest⟩ := List.forall_mem_cons.mp hcalls
    exact ih (hm.perform hc) hrest

end Edits

/-! ## Validation -/

theorem Intact.checkSizes (hm : m.Intact P) : m.checkSizes = .ok () := by
  simp [Model.checkSizes, hm.kinds, hm.colLower, hm.colUpper, hm.rowUpper, hm.height, hm.width,
    hm.storage]

theorem Intact.checkCoefficients_eq_ok_iff (hm : m.Intact P) :
    m.checkCoefficients = .ok () ↔ ∀ a ∈ m.matrix.values, isFinite a = true := by
  simp only [Model.checkCoefficients, hm.objective]
  split
  · rename_i hany
    obtain ⟨a, ha, hinf⟩ := List.any_eq_true.mp hany
    simp only [reduceCtorEq, false_iff]
    intro hfin
    simp [hfin a ha] at hinf
  · rename_i hany
    simpa using hany

/-- Empty ranges and sums that are not finite are all that can be wrong. -/
theorem Intact.validate_eq_ok_iff (hm : m.Intact P) : m.validate = .ok () ↔
    (∀ j < m.numCols, checkRange (.column j) (m.colRange j).1 (m.colRange j).2 = .ok ()) ∧
    ∀ a ∈ m.matrix.values, isFinite a = true := by
  rw [Model.validate_eq_ok_iff, hm.checkCoefficients_eq_ok_iff]
  constructor
  · rintro ⟨-, hfin, -, hcols⟩
    exact ⟨hcols, hfin⟩
  · rintro ⟨hcols, hfin⟩
    exact ⟨hm.checkSizes, hfin, hm.rows, hcols⟩

omit [Scalar α] in
theorem mem_values {a : α} (h : a ∈ m.matrix.values) :
    ∃ line ∈ m.matrix.lines, ∃ j, (j, a) ∈ line := by
  obtain ⟨line, hline, ha⟩ := List.mem_flatMap.mp h
  obtain ⟨⟨j, b⟩, ht, rfl⟩ := List.mem_map.mp ha
  exact ⟨line, Array.mem_toList_iff.mp hline, j, ht⟩

/-- If no column is given twice in one call, then the stored coefficients were given, so they passed
the check. -/
theorem Intact.isFinite_of_nodup (hm : m.Intact P)
    (honce : ∀ terms, P terms → (terms.map Prod.fst).Nodup) :
    ∀ a ∈ m.matrix.values, isFinite a = true := by
  intro a ha
  obtain ⟨line, hline, j, ht⟩ := mem_values ha
  obtain ⟨terms, hterms, -, hfin, rfl⟩ := hm.stored line hline
  exact hfin _ (Sparse.mem_of_total? (honce terms hterms) (Sparse.mem_normalize.mp ht).1)

section Reached

variable [Regular α]

/-- Stored rows are in order, within the columns of the model, without zeros and defined. -/
theorem Intact.row (hm : m.Intact P) {line : List (Term α)} (hline : line ∈ m.matrix.lines) :
    (line.Pairwise fun s t => s.1 < t.1) ∧
    ∀ t ∈ line, t.1 < m.numCols ∧ (t.2 == 0) = false ∧ isNaN t.2 = false := by
  obtain ⟨terms, -, hcols, hfin, rfl⟩ := hm.stored line hline
  refine ⟨Sparse.sorted_normalize terms, ?_⟩
  intro t ht
  obtain ⟨s, hs, hst⟩ := Sparse.fst_mem_normalize ht
  obtain ⟨htotal, hzero⟩ := Sparse.mem_normalize.mp ht
  exact ⟨hst ▸ hcols s hs, hzero, Sparse.isNaN_total? hfin htotal⟩

/-- What a model shows after any calls, failed ones included. A call that fails changes nothing. The
parts fit, stored rows are in order and binary columns stay within `[0, 1]`. A row stores the sums
of the finite coefficients that a call gave for its columns. These sums are defined and not zero,
and finite if no call gives a column twice. The model is valid exactly if all of them are finite and
every column range passes the check. -/
theorem performAll_intact {objective : Array α} {kinds : Array Kind} {start : Model α}
    (hstart : new? objective kinds = .ok start) (calls : List (Call α)) :
    let m := start.performAll calls
    (∀ c e, m.attempt c = .error e → m.perform c = m) ∧
    (m.Shaped ∧ m.checkSizes = .ok ()) ∧
    (∀ line ∈ m.matrix.lines, (line.Pairwise fun s t => s.1 < t.1) ∧
      ∀ t ∈ line, t.1 < m.numCols ∧ (t.2 == 0) = false ∧ isNaN t.2 = false) ∧
    (∀ line ∈ m.matrix.lines, ∃ c ∈ calls, ∃ terms, c.terms? = some terms ∧
      (∀ t ∈ terms, isFinite t.2 = true) ∧
      ∀ j a, (j, a) ∈ line ↔ Sparse.total? terms j = some a ∧ (a == 0) = false) ∧
    ((∀ c ∈ calls, ∀ terms, c.terms? = some terms → (terms.map Prod.fst).Nodup) →
      ∀ a ∈ m.matrix.values, isFinite a = true) ∧
    (∀ j, m.kind j = .binary → 0 ≤ (m.colRange j).1 ∧ (m.colRange j).2 ≤ 1) ∧
    (m.validate = .ok () ↔
      (∀ j < m.numCols, checkRange (.column j) (m.colRange j).1 (m.colRange j).2 = .ok ()) ∧
      ∀ a ∈ m.matrix.values, isFinite a = true) := by
  intro m
  have hm : m.Intact fun terms => ∃ c ∈ calls, c.terms? = some terms :=
    (intact_new hstart).performAll fun c hc terms hterms => ⟨c, hc, hterms⟩
  refine ⟨?_, ⟨hm.toShaped, hm.checkSizes⟩, fun line => hm.row, ?_, ?_, hm.binary,
    hm.validate_eq_ok_iff⟩
  · intro c e herror
    rw [perform_eq, herror]
  · intro line hline
    obtain ⟨terms, ⟨c, hc, hterms⟩, -, hfin, rfl⟩ := hm.stored line hline
    exact ⟨c, hc, terms, hterms, hfin, fun j a => Sparse.mem_normalize⟩
  · intro honce
    apply hm.isFinite_of_nodup
    rintro terms ⟨c, hc, hterms⟩
    exact honce c hc terms hterms

end Reached

/-- A model with one column, which is binary, and no rows yet. -/
def blank : Model Float where
  objective := #[1]
  matrix := .zero 0 1
  rowLower := #[]
  rowUpper := #[]
  colLower := #[0]
  colUpper := #[1]
  kinds := #[.binary]

theorem new_blank : new? #[(1 : Float)] #[.binary] = .ok blank := by
  have hgood : badObjective? #[(1 : Float)] = none := by decide +kernel
  simp [new?, hgood, blank]

/-- A row with a column given twice, a row that is refused, and a range beyond `[0, 1]`. -/
theorem performAll_intact_blank : new? #[(1 : Float)] #[.binary] = .ok blank ∧
    let m := blank.performAll
      [.addLe [(0, 1.5), (0, 2)] 3, .addEq [(4, 1)] 1, .setColBounds 0 (-3) 7]
    m.numRows = 1 ∧ m.validate = .ok () ∧
      0 ≤ (m.colRange 0).1 ∧ (m.colRange 0).2 ≤ 1 ∧ m.perform (.addEq [(4, 1)] 1) = m := by
  obtain ⟨hfailed, -, -, -, -, hbinary, hvalid⟩ := performAll_intact new_blank
    [.addLe [(0, 1.5), (0, 2)] 3, .addEq [(4, 1)] 1, .setColBounds 0 (-3) 7]
  obtain ⟨hlower, hupper⟩ := hbinary 0 rfl
  exact ⟨new_blank, rfl, hvalid.mpr (by decide +kernel), hlower, hupper, hfailed _ _ rfl⟩

/-- Twice `10^308` is accepted in one column, and the sum is infinite. No range is empty, but the
model is not valid. -/
theorem performAll_not_finite : new? #[(1 : Float)] #[.binary] = .ok blank ∧
    let m := blank.performAll [.addLe [(0, 1e308), (0, 1e308)] 1]
    m.numRows = 1 ∧ m.matrix.values = [posInf] ∧
      (∀ j < m.numCols,
        checkRange (.column j) (m.colRange j).1 (m.colRange j).2 = .ok ()) ∧
      m.validate = .error (.nonFinite .matrix) := by
  refine ⟨new_blank, ?_⟩
  decide +kernel

end Model

end MixedInteger
