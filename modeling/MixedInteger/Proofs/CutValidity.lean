import MixedInteger.Proofs.Rounding
import MixedInteger.Proofs.Sparse

/-!
# Generated cuts are valid

A cut made from a tableau row holds at every point that satisfies the row, lies within the bounds of
its entries and is integral where the entries are, up to an error that the tolerance of the
generator accounts for. The error comes from the three places where small numbers are left out.

* `TableauRow.Usable`: what a cut relies on in a row;
* `TableauRow.Meets`: the points that a cut must not remove;
* `accounts_contribution`: what one entry adds to the cut, against what its movement counts;
* `collect_drift`: the same for a whole row;
* `generate_valid`: how far a generated cut can be violated.
-/

namespace MixedInteger

open Exact hiding isFinite isNaN
open Scalar (isFinite isNaN)

/-! ## Rows and points -/

section Points

variable {R : Type} [Relaxation R Exact]

/-- The variable is a row or a column of the relaxation. -/
def TableauVar.InRange (oracle : R) : TableauVar → Prop
  | .row i => i < Relaxation.numRows oracle
  | .column j => j < Relaxation.numVariables oracle

/-- The value of the variable at a point. -/
def TableauVar.valueAt (oracle : R) (x : Point Exact) : TableauVar → Exact
  | .row i => Sparse.dot (Relaxation.rowTerms oracle i) x
  | .column j => x.coord j

/-- The bound that the variable rests at. -/
def TableauEntry.activeBound (e : TableauEntry Exact) : Exact := e.rest.value e.lower e.upper

/-- The rows of the relaxation have rational coefficients in its own columns. -/
def RowsInRange (oracle : R) : Prop :=
  ∀ i < Relaxation.numRows oracle, Sparse.Finite (Relaxation.rowTerms oracle i) ∧
    ∀ t ∈ Relaxation.rowTerms oracle i, t.1 < Relaxation.numVariables oracle

/-- What a cut relies on in an entry: its variable exists and rests at a rational bound. -/
structure TableauEntry.Usable (oracle : R) (e : TableauEntry Exact) : Prop where
  inRange : e.var.InRange oracle
  coefficient : isFinite e.coefficient = true
  activeBound : isFinite e.activeBound = true
  fixed : e.rest = .fixed → e.lower = e.upper

/-- What a cut relies on in a tableau row: the basic value is the one that the entries determine
where they rest. -/
structure TableauRow.Usable (oracle : R) (row : TableauRow Exact) : Prop where
  entries : ∀ e ∈ row.entries, e.Usable oracle
  basicValue : row.basicValue =
    Scalar.sum (row.entries.map fun e => e.coefficient * e.activeBound)

/-- A point that the cut from the row of `column` must not remove: it satisfies the row, is within
the bounds of the entries, and is integral where it has to be. -/
structure TableauRow.Meets (oracle : R) (row : TableauRow Exact) (column : Nat)
    (x : Point Exact) : Prop where
  isRational : x.IsRational
  size : Relaxation.numVariables oracle ≤ x.size
  identity : x.coord column =
    Scalar.sum (row.entries.map fun e => e.coefficient * e.var.valueAt oracle x)
  bounds : ∀ e ∈ row.entries,
    e.lower ≤ e.var.valueAt oracle x ∧ e.var.valueAt oracle x ≤ e.upper
  column_integer : (x.coord column).IsInteger
  entry_integer : ∀ e ∈ row.entries, e.kind.isIntegral = true →
    (e.var.valueAt oracle x).IsInteger

end Points

namespace Gomory

/-! ## One entry -/

/-- What an entry's part of the cut has to do with the movement `r` that the entry causes when its
variable goes from its bound `b` to `y`: up to an integer the part counts the movement, and an entry
that is skipped moves the basic value by little. -/
def Contribution.Accounts (f₀ z b y r : ℚ) : Contribution Exact → Prop
  | .skip => ∃ k : ℤ, |r - k| ≤ z * |y - b|
  | .reject => True
  | .add a shift => ∃ (p q : ℚ) (k : ℤ), a = .fin p ∧ shift = .fin q ∧
      drift f₀ (r - k) = p * y - q

/-- A value `y` on the side of the bound `b` that the status leaves open. -/
def Inside (b y : ℚ) : Resting → Prop
  | .atLower => b ≤ y
  | .atUpper => y ≤ b
  | .fixed => y = b
  | .free => True

theorem inside_self (b : ℚ) (rest : Resting) : Inside b b rest := by
  cases rest <;> simp [Inside]

section Entry

variable {s : GomorySettings Exact} {f₀ z : ℚ} {e : TableauEntry Exact} {b y : ℚ}

theorem inside_of_bounds (hb : e.activeBound = .fin b)
    (hfixed : e.rest = .fixed → e.lower = e.upper) (hlower : e.lower ≤ .fin y)
    (hupper : .fin y ≤ e.upper) : Inside b y e.rest := by
  unfold TableauEntry.activeBound at hb
  cases hrest : e.rest with
  | free => trivial
  | atLower =>
    rw [hrest] at hb
    exact fin_le.mp ((show e.lower = .fin b from hb) ▸ hlower)
  | atUpper =>
    rw [hrest] at hb
    exact fin_le.mp ((show e.upper = .fin b from hb) ▸ hupper)
  | fixed =>
    rw [hrest] at hb
    have hlow : e.lower = .fin b := hb
    rw [hlow, fin_le] at hlower
    rw [← hfixed hrest, hlow, fin_le] at hupper
    exact le_antisymm hupper hlower

/-- The part of every entry accounts for its movement, whatever its status, kind and sign. -/
theorem accounts_contribution (h₀ : 0 ≤ f₀) (h₁ : f₀ < 1) (hz : s.zeroTol = .fin z) {xi : ℚ}
    (hxi : e.coefficient = .fin xi) (hb : e.activeBound = .fin b) (hside : Inside b y e.rest)
    (hint : e.kind.isIntegral = true → (∃ k : ℤ, b = k) → ∃ k : ℤ, y - b = k) :
    (contribution s (.fin f₀) e).Accounts f₀ z b y (-(xi * (y - b))) := by
  unfold TableauEntry.activeBound at hb
  unfold contribution
  simp only [hxi, hz, abs_fin, fin_lt, neg_fin]
  split
  · -- The coefficient is small, so the movement is.
    refine ⟨0, ?_⟩
    rw [Int.cast_zero, sub_zero, abs_neg, abs_mul]
    exact mul_le_mul_of_nonneg_right (by linarith) (abs_nonneg _)
  · split
    · trivial
    · cases hrest : e.rest with
      | free => trivial
      | fixed =>
        rw [hrest] at hside
        exact ⟨0, by simp [show y = b from hside]⟩
      | atLower =>
        rw [hrest] at hb hside
        have hlow : e.lower = .fin b := hb
        have hdist : 0 ≤ y - b := sub_nonneg.mpr hside
        have hw := priced_weight (z := z) h₀ h₁ e.kind (-xi) b hdist hint
        rw [hlow, ← neg_mul]
        dsimp only
        cases hweight : weight? (Exact.fin z) (.fin f₀) e.kind (.fin (-xi)) (.fin b) with
        | none =>
          obtain ⟨k, hk⟩ := hweight ▸ hw
          exact ⟨k, by rwa [abs_of_nonneg hdist]⟩
        | some w =>
          obtain ⟨phi, k, rfl, hdrift⟩ := hweight ▸ hw
          exact ⟨phi, phi * b, k, rfl, rfl, by rw [hdrift]; ring⟩
      | atUpper =>
        rw [hrest] at hb hside
        have hup : e.upper = .fin b := hb
        have hdist : 0 ≤ b - y := sub_nonneg.mpr hside
        have hw := priced_weight (z := z) h₀ h₁ e.kind xi b hdist (by
          intro hk hbk
          obtain ⟨l, hl⟩ := hint hk hbk
          exact ⟨-l, by push_cast; linarith⟩)
        rw [hup, ← mul_neg, neg_sub]
        dsimp only
        cases hweight : weight? (Exact.fin z) (.fin f₀) e.kind (.fin xi) (.fin b) with
        | none =>
          obtain ⟨k, hk⟩ := hweight ▸ hw
          exact ⟨k, by rwa [abs_sub_comm y b, abs_of_nonneg hdist]⟩
        | some w =>
          obtain ⟨phi, k, rfl, hdrift⟩ := hweight ▸ hw
          exact ⟨-phi, -phi * b, k, rfl, rfl, by rw [hdrift]; ring⟩

end Entry

/-! ## The draft of a cut -/

section Draft

variable {R : Type} [Relaxation R Exact] {oracle : R}

/-- The value that a variable of the tableau has at rational coordinates. -/
def varValue (oracle : R) (y : Nat → ℚ) : TableauVar → ℚ
  | .row i => Sparse.value (Relaxation.rowTerms oracle i) y
  | .column j => y j

/-- The draft has a rational coefficient for every row and every column. -/
structure Draft.Fits (oracle : R) (d : Draft Exact) : Prop where
  rows_size : d.rows.size = Relaxation.numRows oracle
  columns_size : d.columns.size = Relaxation.numVariables oracle
  rows : Point.IsRational d.rows
  columns : Point.IsRational d.columns
  rhs : isFinite d.rhs = true

/-- How far the coordinates fall short of the inequality drafted so far. -/
def Draft.gap (oracle : R) (d : Draft Exact) (y : Nat → ℚ) : ℚ :=
  d.rhs.toRat - weighted d.rows (fun i => varValue oracle y (.row i)) - weighted d.columns y

theorem isRational_replicate (n : Nat) : Point.IsRational (Array.replicate n 0) := by
  intro j
  unfold Point.coord
  rw [Array.getElem?_replicate]
  split <;> rfl

theorem weighted_replicate (n : Nat) (y : Nat → ℚ) : weighted (Array.replicate n 0) y = 0 := by
  unfold weighted
  refine Finset.sum_eq_zero fun j hj => ?_
  simp only [Array.size_replicate, Finset.mem_range] at hj
  simp [Point.rat, Point.coord, hj]

theorem fits_start (f₀ : ℚ) : (Draft.start oracle (.fin f₀)).Fits oracle where
  rows_size := Array.size_replicate
  columns_size := Array.size_replicate
  rows := isRational_replicate _
  columns := isRational_replicate _
  rhs := rfl

theorem gap_start (f₀ : ℚ) (y : Nat → ℚ) : (Draft.start oracle (.fin f₀)).gap oracle y = f₀ := by
  unfold Draft.gap Draft.start
  rw [weighted_replicate, weighted_replicate]
  simp

/-- Adding a part to the draft changes the gap by what the part says. -/
theorem addVar_spec {d : Draft Exact} (hd : d.Fits oracle) {var : TableauVar}
    (hvar : var.InRange oracle) (p q : ℚ) :
    let d' := { d with rhs := d.rhs + Exact.fin q }.addVar var (.fin p)
    d'.Fits oracle ∧ ∀ y, d.gap oracle y - d'.gap oracle y = p * varValue oracle y var - q := by
  obtain ⟨r, hr⟩ := isFinite_iff.mp hd.rhs
  cases var with
  | row i =>
    have hi : i < d.rows.size := hd.rows_size ▸ hvar
    refine ⟨⟨?_, hd.columns_size, isRational_modify hd.rows hi p, hd.columns, ?_⟩, ?_⟩
    · exact (Array.size_modify ..).trans hd.rows_size
    · simp [Draft.addVar, hr]
    · intro y
      simp only [Draft.gap, Draft.addVar, weighted_modify hd.rows hi, hr, fin_add, toRat_fin]
      ring
  | column j =>
    have hj : j < d.columns.size := hd.columns_size ▸ hvar
    refine ⟨⟨hd.rows_size, ?_, hd.rows, isRational_modify hd.columns hj p, ?_⟩, ?_⟩
    · exact (Array.size_modify ..).trans hd.columns_size
    · simp [Draft.addVar, hr]
    · intro y
      simp only [Draft.gap, Draft.addVar, weighted_modify hd.columns hj, hr, fin_add, toRat_fin,
        varValue]
      ring

/-! ## A whole row -/

/-- How far the variable of an entry is from its bound. -/
def distance (oracle : R) (y : Nat → ℚ) (e : TableauEntry Exact) : ℚ :=
  varValue oracle y e.var - e.activeBound.toRat

/-- By how much the variable of an entry lowers the basic value. -/
def movement (oracle : R) (y : Nat → ℚ) (e : TableauEntry Exact) : ℚ :=
  -(e.coefficient.toRat * distance oracle y e)

/-- The coordinates leave the bound of the entry only in the direction that its status allows, and
by an integer where the cut relies on it. -/
structure EntryAt (oracle : R) (y : Nat → ℚ) (e : TableauEntry Exact) : Prop where
  usable : e.Usable oracle
  inside : Inside e.activeBound.toRat (varValue oracle y e.var) e.rest
  integral : e.kind.isIntegral = true → (∃ k : ℤ, e.activeBound.toRat = k) →
    ∃ k : ℤ, distance oracle y e = k

/-- The collected draft has rational coefficients. This needs no point: an entry whose variable
stays at its bound accounts for no movement at all. -/
theorem collect_fits {s : GomorySettings Exact} {f₀ z : ℚ} (h₀ : 0 ≤ f₀) (h₁ : f₀ < 1)
    (hz : s.zeroTol = .fin z) {es : List (TableauEntry Exact)}
    (hes : ∀ e ∈ es, e.Usable oracle) {d d' : Draft Exact} (hd : d.Fits oracle)
    (h : Draft.collect s (.fin f₀) d es = some d') : d'.Fits oracle := by
  induction es generalizing d with
  | nil =>
    obtain rfl : d = d' := by simpa [Draft.collect] using h
    exact hd
  | cons e rest ih =>
    obtain ⟨he, hrest⟩ := List.forall_mem_cons.mp hes
    have hacc := accounts_contribution h₀ h₁ hz (eq_fin he.coefficient) (eq_fin he.activeBound)
      (inside_self _ _) (fun _ _ => ⟨0, by simp⟩)
    unfold Draft.collect at h
    cases hc : contribution s (.fin f₀) e with
    | reject =>
      rw [hc] at h
      cases h
    | skip =>
      rw [hc] at h
      exact ih hrest hd h
    | add a shift =>
      rw [hc] at h hacc
      obtain ⟨p, q, -, rfl, rfl, -⟩ := hacc
      exact ih hrest (addVar_spec hd he.inRange p q).1 h

/-- The movements of the entries, up to an integer, count no more than what the collected parts
require, except for the entries that are left out. -/
theorem collect_drift {s : GomorySettings Exact} {f₀ z : ℚ} (h₀ : 0 ≤ f₀) (h₁ : f₀ < 1)
    (hz : s.zeroTol = .fin z) (hz₀ : 0 ≤ z) {y : Nat → ℚ} {es : List (TableauEntry Exact)}
    (hes : ∀ e ∈ es, EntryAt oracle y e) {d d' : Draft Exact} (hd : d.Fits oracle)
    (h : Draft.collect s (.fin f₀) d es = some d') :
    ∃ k : ℤ, drift f₀ ((es.map (movement oracle y)).sum - k)
      ≤ d.gap oracle y - d'.gap oracle y
        + max 1 (ratio f₀) * (z * (es.map fun e => |distance oracle y e|).sum) := by
  induction es generalizing d with
  | nil =>
    obtain rfl : d = d' := by simpa [Draft.collect] using h
    exact ⟨0, by simp [drift]⟩
  | cons e rest ih =>
    obtain ⟨he, hrest⟩ := List.forall_mem_cons.mp hes
    have hacc := accounts_contribution h₀ h₁ hz (eq_fin he.usable.coefficient)
      (eq_fin he.usable.activeBound) he.inside he.integral
    change Contribution.Accounts f₀ z _ _ (movement oracle y e) _ at hacc
    have hmax : 0 ≤ max 1 (ratio f₀) := le_max_of_le_left zero_le_one
    -- One more entry costs what it counts alone: movements combine subadditively.
    have step {d₁ : Draft Exact} {k : ℤ} (hd₁ : d₁.Fits oracle)
        (hk : drift f₀ (movement oracle y e - k) ≤ d.gap oracle y - d₁.gap oracle y
          + max 1 (ratio f₀) * (z * |distance oracle y e|))
        (hcollect : Draft.collect s (.fin f₀) d₁ rest = some d') :
        ∃ k : ℤ, drift f₀ (((e :: rest).map (movement oracle y)).sum - k)
          ≤ d.gap oracle y - d'.gap oracle y
            + max 1 (ratio f₀) * (z * ((e :: rest).map fun e => |distance oracle y e|).sum) := by
      obtain ⟨l, hl⟩ := ih hrest hd₁ hcollect
      refine ⟨k + l, ?_⟩
      have hadd := drift_add_le f₀ (movement oracle y e - k)
        ((rest.map (movement oracle y)).sum - l)
      have hsum : ((e :: rest).map (movement oracle y)).sum - ((k + l : ℤ) : ℚ)
          = movement oracle y e - k + ((rest.map (movement oracle y)).sum - l) := by
        rw [List.map_cons, List.sum_cons]
        push_cast
        ring
      rw [hsum, List.map_cons, List.sum_cons, mul_add, mul_add]
      linarith
    unfold Draft.collect at h
    cases hc : contribution s (.fin f₀) e with
    | reject =>
      rw [hc] at h
      cases h
    | skip =>
      rw [hc] at h hacc
      obtain ⟨k, hk⟩ := hacc
      refine step (k := k) hd ?_ h
      have hsmall := (drift_le_abs h₀ h₁ (movement oracle y e - k)).trans
        (mul_le_mul_of_nonneg_left hk hmax)
      rw [sub_self, zero_add]
      exact hsmall
    | add a shift =>
      rw [hc] at h hacc
      obtain ⟨p, q, k, rfl, rfl, hk⟩ := hacc
      obtain ⟨hd₁, hgap⟩ := addVar_spec hd he.usable.inRange p q
      refine step (k := k) hd₁ ?_ h
      have hslack := mul_nonneg hmax (mul_nonneg hz₀ (abs_nonneg (distance oracle y e)))
      rw [hgap, hk]
      linarith

/-- Once the basic value is integral, the whole movement counts at least `f₀`, so the collected
inequality is missed by no more than what was left out. -/
theorem collect_gap_le {s : GomorySettings Exact} {z beta : ℚ}
    (hz : s.zeroTol = .fin z) (hz₀ : 0 ≤ z) {y : Nat → ℚ} {es : List (TableauEntry Exact)}
    (hes : ∀ e ∈ es, EntryAt oracle y e) {d : Draft Exact}
    (h : Draft.collect s (.fin (Int.fract beta)) (Draft.start oracle (.fin (Int.fract beta))) es
      = some d)
    {l : ℤ} (hbasic : beta - (es.map (movement oracle y)).sum = l) :
    d.gap oracle y ≤ z * (max 1 (ratio (Int.fract beta))
      * (es.map fun e => |distance oracle y e|).sum) := by
  have h₀ := Int.fract_nonneg beta
  have h₁ := Int.fract_lt_one beta
  obtain ⟨k, hk⟩ := collect_drift h₀ h₁ hz hz₀ hes (fits_start _) h
  rw [gap_start] at hk
  have hint : Int.fract beta - ((es.map (movement oracle y)).sum - k)
      = ((l - ⌊beta⌋ + k : ℤ) : ℚ) := by
    rw [← Int.self_sub_floor]
    push_cast
    linarith
  have hf₀ := le_drift h₀ h₁ hint
  rw [mul_left_comm]
  linarith

/-! ## From the draft to a cut over the columns -/

/-- Rows that are replaced by their terms one after the other: what is done is in the columns, and
the list holds the rows still to be replaced. -/
theorem substitute_rows (hrows : RowsInRange oracle) {l : List (Exact × Nat)}
    (hl : ∀ t ∈ l, isFinite t.1 = true ∧ t.2 < Relaxation.numRows oracle) {v : Point Exact}
    (hv : v.IsRational) (hsize : v.size = Relaxation.numVariables oracle) :
    let w := l.foldl (fun columns (p, i) =>
      if p == 0 then columns
      else (Relaxation.rowTerms oracle i).foldl (fun columns t =>
        columns.modify t.1 (· + p * t.2)) columns) v
    Point.IsRational w ∧ w.size = Relaxation.numVariables oracle ∧
      ∀ y, weighted w y = weighted v y
        + (l.map fun t => t.1.toRat * varValue oracle y (.row t.2)).sum := by
  induction l generalizing v with
  | nil => exact ⟨hv, hsize, by simp⟩
  | cons t rest ih =>
    obtain ⟨p, i⟩ := t
    obtain ⟨⟨hp, hi⟩, hrest⟩ := List.forall_mem_cons.mp hl
    obtain ⟨q, rfl⟩ := isFinite_iff.mp hp
    obtain ⟨hts, hcols⟩ := hrows i hi
    by_cases hq : q = 0
    · obtain ⟨hw, hwsize, hvalue⟩ := ih hrest hv hsize
      simpa [hq] using And.intro hw ⟨hwsize, hvalue⟩
    · obtain ⟨hv', hsize', hvalue'⟩ := weighted_addForm (p := q) hv hts (by rwa [hsize])
      obtain ⟨hw, hwsize, hvalue⟩ := ih hrest hv' (hsize'.trans hsize)
      have hskip : (Exact.fin q == 0) = false := by simpa using hq
      simp only [List.foldl_cons, hskip, Bool.false_eq_true, ↓reduceIte]
      refine ⟨hw, hwsize, ?_⟩
      intro y
      rw [hvalue, hvalue', List.map_cons, List.sum_cons, toRat_fin, varValue]
      ring

/-- Row values are replaced by their terms without changing the inequality. -/
theorem substitute_spec {d : Draft Exact} (hrows : RowsInRange oracle) (hd : d.Fits oracle) :
    let w := d.substitute oracle
    Point.IsRational w ∧ w.size = Relaxation.numVariables oracle ∧
      ∀ y, d.gap oracle y = d.rhs.toRat - weighted w y := by
  have entries : ∀ t ∈ d.rows.toList.zipIdx, isFinite t.1 = true ∧
      t.2 < Relaxation.numRows oracle := by
    intro t ht
    rw [← hd.rows_size]
    exact hd.rows.of_mem_zipIdx ht
  obtain ⟨hw, hsize, hvalue⟩ := substitute_rows hrows entries hd.columns hd.columns_size
  refine ⟨hw, hsize, ?_⟩
  intro y
  unfold Draft.gap Draft.substitute
  rw [hvalue y, weighted_eq_sum d.rows]
  ring

theorem finite_significantTerms {v : Point Exact} (hv : v.IsRational) (zeroTol : Exact) :
    Sparse.Finite (significantTerms zeroTol v) := by
  intro t ht
  obtain ⟨u, hu, rfl⟩ := List.mem_map.mp (List.mem_filter.mp ht).1
  exact (hv.of_mem_zipIdx hu).1

/-- Leaving out small terms loses at most the tolerance times the size of the point. -/
theorem value_significantTerms {v : Point Exact} (hv : v.IsRational) {z : ℚ} (hz₀ : 0 ≤ z)
    (y : Nat → ℚ) :
    weighted v y - Sparse.value (significantTerms (.fin z) v) y
      ≤ z * ((List.range v.size).map fun j => |y j|).sum := by
  have hrange : (List.range v.size).map (fun j => |y j|)
      = v.toList.zipIdx.map fun t => |y t.2| := by
    rw [← Array.length_toList, List.range_eq_range', ← List.zipIdx_map_snd, List.map_map]
    rfl
  have hfin : ∀ t ∈ v.toList.zipIdx, isFinite t.1 = true := fun t ht => (hv.of_mem_zipIdx ht).1
  rw [hrange, weighted_eq_sum]
  unfold significantTerms
  generalize v.toList.zipIdx = l at hfin
  induction l with
  | nil => simp
  | cons t rest ih =>
    obtain ⟨a, j⟩ := t
    obtain ⟨ha, hrest⟩ := List.forall_mem_cons.mp hfin
    obtain ⟨q, rfl⟩ := isFinite_iff.mp ha
    have ih := ih hrest
    simp only [List.map_cons, List.filter_cons, abs_fin, gt_iff_lt, fin_lt, decide_eq_true_eq,
      List.sum_cons, toRat_fin, mul_add]
    split
    · have := mul_nonneg hz₀ (abs_nonneg (y j))
      rw [Sparse.value_cons, toRat_fin]
      linarith
    · rename_i hsmall
      have hterm : q * y j ≤ z * |y j| := by
        refine (le_abs_self _).trans ?_
        rw [abs_mul]
        exact mul_le_mul_of_nonneg_right (not_lt.mp hsmall) (abs_nonneg _)
      linarith

end Draft

/-! ## The generated cut -/

section Generate

variable {R : Type} [Relaxation R Exact] {oracle : R} {g : Gomory Exact} {row : TableauRow Exact}
  {column node : Nat} {cut : Cut Exact} {x : Point Exact}

/-- A cut comes from a tableau row whose entries could all be collected. -/
theorem generate_eq_some (h : (g.generate oracle column node).1 = some cut) :
    ∃ (row : TableauRow Exact) (d : Draft Exact),
      Relaxation.tableauRow? oracle column = some row ∧
      (Relaxation.kind oracle column).isIntegral = true ∧
      Draft.collect g.settings (fractionalPart row.basicValue)
        (Draft.start oracle (fractionalPart row.basicValue)) row.entries = some d ∧
      cut = ⟨SparseRow.ofTerms (Relaxation.numVariables oracle)
        (significantTerms g.settings.zeroTol (d.substitute oracle)), d.rhs,
        .gomory column node⟩ := by
  unfold generate at h
  cases hsource : sourceRow? oracle column with
  | none => simp [hsource] at h
  | some row =>
    have hrow : Relaxation.tableauRow? oracle column = some row ∧
        (Relaxation.kind oracle column).isIntegral = true := by
      unfold sourceRow? at hsource
      split at hsource
      · rename_i hkind
        exact ⟨hsource, (Bool.and_eq_true _ _ ▸ hkind).1⟩
      · cases hsource
    rw [hsource] at h
    dsimp only at h
    split at h
    · cases h
    · split at h
      · cases h
      · rename_i d hcollect
        split at h
        · cases h
        · exact ⟨row, d, hrow.1, hrow.2, hcollect, (Option.some.inj h).symm⟩

/-- By how much a cut can be violated at a point that it must not remove: the tolerance times what
was left out of the tableau row and of the cut. -/
def allowance (g : Gomory Exact) (oracle : R) (row : TableauRow Exact) (x : Point Exact) : Exact :=
  let f₀ := fractionalPart row.basicValue
  g.settings.zeroTol *
    (Scalar.larger 1 (f₀ / (1 - f₀)) * Scalar.sum (row.entries.map fun e =>
        Scalar.abs (e.var.valueAt oracle x - e.activeBound))
      + Scalar.sum ((List.range (Relaxation.numVariables oracle)).map fun j =>
        Scalar.abs (x.coord j)))

theorem valueAt_eq (hrows : RowsInRange oracle) (hx : x.IsRational) {var : TableauVar}
    (hvar : var.InRange oracle) : var.valueAt oracle x = .fin (varValue oracle x.rat var) := by
  cases var with
  | row i => exact Sparse.dot_eq (hrows i hvar).1 hx
  | column j => exact x.coord_eq hx j

theorem entryAt (hrows : RowsInRange oracle) (hrow : row.Usable oracle)
    (hx : row.Meets oracle column x) {e : TableauEntry Exact} (he : e ∈ row.entries) :
    EntryAt oracle x.rat e := by
  have hu := hrow.entries e he
  have hy := valueAt_eq hrows hx.isRational hu.inRange
  obtain ⟨hlower, hupper⟩ := hx.bounds e he
  refine ⟨hu, ?_, ?_⟩
  · rw [hy] at hlower hupper
    exact inside_of_bounds (eq_fin hu.activeBound) hu.fixed hlower hupper
  · rintro hk ⟨k, hb⟩
    obtain ⟨l, hl⟩ := hx.entry_integer e he hk
    rw [hy, Exact.fin.injEq] at hl
    exact ⟨l - k, by unfold distance; rw [hl, hb]; push_cast; ring⟩

/-- The value of the basic column, where the entries rest and at the point. -/
theorem basicValue_eq (hrow : row.Usable oracle) : row.basicValue = .fin
    (row.entries.map fun e => e.coefficient.toRat * e.activeBound.toRat).sum := by
  refine hrow.basicValue.trans (sum_eq ?_)
  intro e he
  rw [eq_fin (hrow.entries e he).coefficient, eq_fin (hrow.entries e he).activeBound]
  simp

theorem sum_movement (hrows : RowsInRange oracle) (hrow : row.Usable oracle)
    (hx : row.Meets oracle column x) :
    (row.entries.map fun e => e.coefficient.toRat * e.activeBound.toRat).sum
      - (row.entries.map (movement oracle x.rat)).sum = x.rat column := by
  have hid : x.coord column = .fin
      (row.entries.map fun e => e.coefficient.toRat * varValue oracle x.rat e.var).sum := by
    refine hx.identity.trans (sum_eq ?_)
    intro e he
    rw [eq_fin (hrow.entries e he).coefficient,
      valueAt_eq hrows hx.isRational (hrow.entries e he).inRange]
    simp
  rw [Point.rat, hid, toRat_fin, sub_eq_iff_eq_add, ← List.sum_map_add]
  congr 1
  refine List.map_congr_left fun e _ => ?_
  unfold movement distance
  ring

/-- Cuts are rational. -/
theorem generate_finite {z : ℚ} (hz : g.settings.zeroTol = .fin z) (hrows : RowsInRange oracle)
    (hrow : Relaxation.tableauRow? oracle column = some row) (hu : row.Usable oracle)
    (h : (g.generate oracle column node).1 = some cut) :
    Sparse.Finite cut.coefficients.terms ∧ isFinite cut.lowerBound = true := by
  obtain ⟨row', d, hrow', -, hcollect, rfl⟩ := generate_eq_some h
  obtain rfl : row = row' := Option.some.inj (hrow.symm.trans hrow')
  rw [basicValue_eq hu, fractionalPart_fin] at hcollect
  have hd := collect_fits (Int.fract_nonneg _) (Int.fract_lt_one _) hz hu.entries (fits_start _)
    hcollect
  obtain ⟨hw, -, -⟩ := substitute_spec hrows hd
  exact ⟨Sparse.finite_normalize (finite_significantTerms hw _), hd.rhs⟩

/-- The allowance is the tolerance times a rational number. -/
theorem allowance_eq {z beta : ℚ} (hz : g.settings.zeroTol = .fin z) (hrows : RowsInRange oracle)
    (hu : row.Usable oracle) (hbeta : row.basicValue = .fin beta) (hx : x.IsRational) :
    g.allowance oracle row x = .fin (z * (max 1 (ratio (Int.fract beta))
      * (row.entries.map fun e => |distance oracle x.rat e|).sum
        + ((List.range (Relaxation.numVariables oracle)).map fun j => |x.rat j|).sum)) := by
  have hdistance : Scalar.sum (row.entries.map fun e =>
      Scalar.abs (e.var.valueAt oracle x - e.activeBound))
      = .fin (row.entries.map fun e => |distance oracle x.rat e|).sum := by
    refine sum_eq fun e he => ?_
    rw [valueAt_eq hrows hx (hu.entries e he).inRange, eq_fin (hu.entries e he).activeBound]
    simp [distance]
  have hcoords : Scalar.sum ((List.range (Relaxation.numVariables oracle)).map fun j =>
      Scalar.abs (x.coord j))
      = .fin ((List.range (Relaxation.numVariables oracle)).map fun j => |x.rat j|).sum := by
    refine sum_eq fun j _ => ?_
    rw [x.coord_eq hx, abs_fin]
  simp only [allowance]
  rw [hbeta, fractionalPart_fin, hz, hdistance, hcoords, one_eq, fin_sub,
    fin_ratio (Int.fract_lt_one _), larger_fin, fin_mul, fin_add, fin_mul]

theorem violation?_eq {d : Draft Exact} (hrows : RowsInRange oracle) (hd : d.Fits oracle)
    (hx : x.IsRational) (hsize : Relaxation.numVariables oracle ≤ x.size) {zeroTol : Exact}
    (hcut : cut = ⟨SparseRow.ofTerms (Relaxation.numVariables oracle)
        (significantTerms zeroTol (d.substitute oracle)), d.rhs, .gomory column node⟩) :
    cut.violation? x = some (.fin (d.rhs.toRat
      - Sparse.value (significantTerms zeroTol (d.substitute oracle)) x.rat)) := by
  have hterms := finite_significantTerms (substitute_spec hrows hd).1 zeroTol
  subst hcut
  simp only [Cut.violation?, Cut.activity?, SparseRow.ofTerms, hsize, ↓reduceIte, Option.map_some]
  rw [Sparse.dot_eq (Sparse.finite_normalize hterms) hx, Sparse.value_normalize _ hterms,
    eq_fin hd.rhs, fin_sub, toRat_fin]

/-- A point that the cut must not remove falls short of it by at most the allowance. -/
theorem violation?_le_allowance {z : ℚ} (hz : g.settings.zeroTol = .fin z) (hz₀ : 0 ≤ z)
    (hrows : RowsInRange oracle) (hrow : Relaxation.tableauRow? oracle column = some row)
    (hu : row.Usable oracle) (h : (g.generate oracle column node).1 = some cut)
    (hx : row.Meets oracle column x) :
    ∃ v t : ℚ, cut.violation? x = some (.fin v) ∧ g.allowance oracle row x = .fin (z * t) ∧
      v ≤ z * t := by
  obtain ⟨row', d, hrow', -, hcollect, hcut⟩ := generate_eq_some h
  obtain rfl : row = row' := Option.some.inj (hrow.symm.trans hrow')
  have hbeta := basicValue_eq hu
  rw [hbeta, fractionalPart_fin] at hcollect
  have hd := collect_fits (Int.fract_nonneg _) (Int.fract_lt_one _) hz hu.entries (fits_start _)
    hcollect
  obtain ⟨l, hl⟩ := hx.column_integer
  rw [x.coord_eq hx.isRational, Exact.fin.injEq] at hl
  refine ⟨_, _, violation?_eq hrows hd hx.isRational hx.size hcut,
    allowance_eq hz hrows hu hbeta hx.isRational, ?_⟩
  -- The gap of the draft is within the first part, the small terms within the second.
  have hgap := collect_gap_le hz hz₀ (fun e he => entryAt hrows hu hx he) hcollect
    ((sum_movement hrows hu hx).trans hl)
  obtain ⟨hw, hsize, hvalue⟩ := substitute_spec hrows hd
  have hdrop := value_significantTerms hw hz₀ x.rat
  rw [hvalue] at hgap
  rw [hsize] at hdrop
  rw [hz, mul_add]
  linarith

theorem isSatisfied_of_meets (hz : g.settings.zeroTol = .fin 0) (hrows : RowsInRange oracle)
    (hrow : Relaxation.tableauRow? oracle column = some row) (hu : row.Usable oracle)
    (h : (g.generate oracle column node).1 = some cut) (hx : row.Meets oracle column x) :
    cut.isSatisfied x 0 = true := by
  obtain ⟨v, t, hv, -, hle⟩ := violation?_le_allowance hz le_rfl hrows hrow hu h hx
  rw [zero_mul] at hle
  simpa [Cut.isSatisfied, hv] using hle

/-- Cuts are valid up to the tolerance: at every point that satisfies the tableau row within the
bounds of its entries and is integral where it has to be, the violation is at most the allowance,
and with tolerance zero the point satisfies the cut. -/
theorem generate_valid {z : ℚ} (hz : g.settings.zeroTol = .fin z) (hz₀ : 0 ≤ z)
    (hrows : RowsInRange oracle) (hrow : Relaxation.tableauRow? oracle column = some row)
    (hu : row.Usable oracle) (h : (g.generate oracle column node).1 = some cut)
    (hx : row.Meets oracle column x) :
    (∃ v, cut.violation? x = some v ∧ v ≤ g.allowance oracle row x) ∧
      (z = 0 → cut.isSatisfied x 0 = true) := by
  obtain ⟨v, t, hv, hallow, hle⟩ := violation?_le_allowance hz hz₀ hrows hrow hu h hx
  refine ⟨⟨.fin v, hv, ?_⟩, ?_⟩
  · rw [hallow]
    exact fin_le.mpr hle
  · rintro rfl
    exact isSatisfied_of_meets hz hrows hrow hu h hx

/-- The row of the first column, where `2 x₀ + x₁ ≤ 5` is active and the second column is zero. -/
def pairRow : TableauRow Exact where
  basicValue := .fin (5 / 2)
  entries := [⟨.row 0, .fin (1 / 2), .atUpper, .negInf, .fin 5, .continuous⟩,
    ⟨.column 1, .fin (-1 / 2), .atLower, 0, .posInf, .integer⟩]

/-- Two integral columns with `2 x₀ + x₁ ≤ 5`, solved at `x₀ = 5/2` and `x₁ = 0`. -/
def pairOracle : Scripted Exact where
  verdict := .optimal
  objectiveValue := .fin (5 / 2)
  columns := #[⟨.integer, 1, .fin (5 / 2)⟩, ⟨.integer, 0, 0⟩]
  rows := #[[(0, .fin 2), (1, 1)]]
  tableau := [(0, pairRow)]
  refusal := ""

theorem rowsInRange_pairOracle : RowsInRange pairOracle := by
  intro i hi
  obtain rfl : i = 0 := Nat.lt_one_iff.mp hi
  constructor
  · unfold Sparse.Finite
    decide
  · decide

theorem usable_pairRow : pairRow.Usable pairOracle where
  entries := by
    simp only [pairRow, List.forall_mem_cons, List.not_mem_nil, false_implies, implies_true,
      and_true]
    exact ⟨⟨Nat.zero_lt_one, rfl, rfl, by decide⟩, ⟨Nat.one_lt_two, rfl, rfl, by decide⟩⟩
  basicValue := by decide +kernel

theorem meets_pairRow : pairRow.Meets pairOracle 0 #[.fin 2, .fin 1] where
  isRational := Point.isRational_of_lt (by decide)
  size := by decide
  identity := by decide +kernel
  bounds := by
    simp only [pairRow, List.forall_mem_cons, List.not_mem_nil, false_implies, implies_true,
      and_true]
    decide +kernel
  column_integer := ⟨2, rfl⟩
  entry_integer := by
    simp only [pairRow, List.forall_mem_cons, List.not_mem_nil, false_implies, implies_true,
      and_true]
    exact ⟨fun h => absurd h (by decide), fun _ => ⟨1, rfl⟩⟩

theorem generate_valid_pairOracle : ∃ cut v,
    ((Gomory.new .default).generate pairOracle 0 0).1 = some cut ∧
    cut.violation? #[.fin 2, .fin 1] = some v ∧
    v ≤ (Gomory.new .default).allowance pairOracle pairRow #[.fin 2, .fin 1] := by
  obtain ⟨cut, hcut⟩ := Option.isSome_iff_exists.mp
    (show ((Gomory.new .default).generate pairOracle 0 0).1.isSome = true by decide +kernel)
  obtain ⟨⟨v, hv, hle⟩, -⟩ := generate_valid (z := 1e-10) rfl (by norm_num)
    rowsInRange_pairOracle rfl usable_pairRow hcut meets_pairRow
  exact ⟨cut, v, hcut, hv, hle⟩

end Generate

end Gomory

end MixedInteger
