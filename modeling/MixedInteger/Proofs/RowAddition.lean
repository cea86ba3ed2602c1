import MixedInteger.Proofs.ModelIntegrity

/-!
# What an added row asks for

The terms of a row are sorted, those of one column are added up, and what cancels to zero is left
out. In exact arithmetic none of this shows in what a row asks of a point: it is what the terms ask
that were given, in whatever order. Whether a point meets the other rows is not touched.

* `Sparse.total?_eq`, `Sparse.normalize_eq_of_perm`: the order of the terms does not matter;
* `Model.addRow_eq_ok_iff`, `Model.exists_addRow_iff`: which rows are accepted;
* `Model.addRow_constrains`: what a row that is accepted adds to the model.
-/

namespace MixedInteger

open Exact hiding isFinite isNaN
open Scalar (isFinite isNaN)

/-! ## The order of the terms -/

namespace Sparse

variable {ts ts' : List (Term Exact)}

theorem isFinite_of_mem_coefficients (hts : Finite ts) {j : Nat} {a : Exact}
    (ha : a ∈ coefficients ts j) : isFinite a = true := by
  obtain ⟨t, ht, rfl⟩ := List.mem_map.mp ha
  exact hts t (List.mem_filter.mp ht).1

/-- In exact arithmetic the order in which coefficients are added does not matter. -/
theorem total?_eq (hts : Finite ts) (j : Nat) :
    total? ts j = if coefficients ts j = [] then none
      else some (.fin ((coefficients ts j).map toRat).sum) := by
  have hfinite {a : Exact} (ha : a ∈ coefficients ts j) : isFinite a = true :=
    isFinite_of_mem_coefficients hts ha
  unfold total?
  cases hc : coefficients ts j with
  | nil => rfl
  | cons a rest =>
    rw [hc] at hfinite
    have hstep : ∀ b ∈ rest, ∀ q : ℚ, Exact.fin q + b = .fin (q + b.toRat) := by
      intro b hb q
      rw [eq_fin (hfinite (List.mem_cons_of_mem a hb))]
      rfl
    have hsum := foldl_fin hstep a.toRat
    rw [← eq_fin (hfinite List.mem_cons_self)] at hsum
    simpa using hsum

theorem total?_perm (hts : Finite ts) (hperm : ts.Perm ts') (j : Nat) :
    total? ts j = total? ts' j := by
  have hts' : Finite ts' := fun t ht => hts t (hperm.mem_iff.mpr ht)
  have hcoefficients : (coefficients ts j).Perm (coefficients ts' j) :=
    (hperm.filter _).map _
  have hnil : coefficients ts j = [] ↔ coefficients ts' j = [] := by
    rw [← List.length_eq_zero_iff, hcoefficients.length_eq, List.length_eq_zero_iff]
  rw [total?_eq hts, total?_eq hts', (hcoefficients.map toRat).sum_eq]
  simp only [hnil]

/-- Terms are stored in one form, in whatever order they are given. -/
theorem normalize_eq_of_perm (hts : Finite ts) (hperm : ts.Perm ts') :
    normalize ts = normalize ts' := by
  have hnodup (us : List (Term Exact)) : (normalize us).Nodup := by
    apply (sorted_normalize us).imp
    rintro s t hlt rfl
    exact Nat.lt_irrefl _ hlt
  have hsame : (normalize ts).Perm (normalize ts') := by
    apply (List.perm_ext_iff_of_nodup (hnodup ts) (hnodup ts')).mpr
    rintro ⟨j, a⟩
    rw [mem_normalize, mem_normalize, total?_perm hts hperm]
  apply hsame.eq_of_pairwise _ (sorted_normalize ts) (sorted_normalize ts')
  intro s t _ _ hst hts
  omega

end Sparse

/-! ## Rows that are accepted -/

namespace Model

section Accepted

variable {α : Type} [Scalar α] {m m' : Model α} {terms : List (Term α)} {lower upper : α}

theorem checkTerms_eq_ok_iff {i n : Nat} : checkTerms i n terms = .ok () ↔
    ∀ t ∈ terms, t.1 < n ∧ isFinite t.2 = true := by
  constructor
  · intro h t ht
    obtain ⟨hcols, hfin⟩ := checkTerms_ok h
    exact ⟨hcols t ht, hfin t ht⟩
  · intro h
    induction terms with
    | nil => rfl
    | cons t rest ih =>
      obtain ⟨j, a⟩ := t
      obtain ⟨⟨hj, ha⟩, hrest⟩ := List.forall_mem_cons.mp h
      have hj : ¬ n ≤ j := Nat.not_le.mpr hj
      simp [checkTerms, hj, ha, ih hrest]

/-- A row is added as soon as its terms and its range pass their checks. -/
theorem addRow_eq_ok_iff : m.addRow terms lower upper = .ok m' ↔
    checkTerms m.numRows m.numCols terms = .ok () ∧
    checkRange (.row m.numRows) lower upper = .ok () ∧
    m' = { m with
      matrix := m.matrix.appendLine (SparseRow.ofTerms m.numCols terms)
      rowLower := m.rowLower.push lower
      rowUpper := m.rowUpper.push upper } := by
  constructor
  · exact addRow_ok
  · rintro ⟨hterms, hrange, rfl⟩
    unfold addRow
    rw [hterms, hrange]
    rfl

end Accepted

theorem checkRange_eq_ok_iff {line : Line} {lower upper : Exact} :
    checkRange line lower upper = .ok () ↔
      lower < .posInf ∧ .negInf < upper ∧ lower ≤ upper := by
  constructor
  · intro h
    obtain ⟨hlower, hupper⟩ := checkRange_ok h
    refine ⟨hlower, hupper, ?_⟩
    unfold checkRange at h
    split at h
    · cases h
    · rename_i hdefined
      split at h
      · cases h
      · rename_i hends
        simp only [Bool.or_eq_true, not_or, Bool.not_eq_true, decide_eq_true_eq] at hdefined hends
        exact (le_or_lt hdefined.1 hdefined.2).resolve_right hends.2
  · rintro ⟨hlower, hupper, hle⟩
    obtain ⟨hl, hu⟩ := isNaN_of_le hle
    have hcrossed : ¬ lower > upper := not_lt_of_le hle
    have hends : (lower == Scalar.posInf) = false ∧ (upper == Scalar.negInf) = false := by
      constructor
      · cases lower with
        | posInf => cases hlower
        | undefined | negInf | fin => rfl
      · cases upper with
        | negInf => cases hupper
        | undefined | fin | posInf => rfl
    simp [checkRange, hl, hu, hends, hcrossed]

variable {m m' : Model Exact} {terms terms' : List (Term Exact)} {lower upper : Exact}

theorem exists_addRow_iff : (∃ m', m.addRow terms lower upper = .ok m') ↔
    (∀ t ∈ terms, t.1 < m.numCols ∧ isFinite t.2 = true) ∧
    lower < .posInf ∧ .negInf < upper ∧ lower ≤ upper := by
  simp only [addRow_eq_ok_iff, checkTerms_eq_ok_iff, checkRange_eq_ok_iff]
  constructor
  · rintro ⟨m', hterms, hrange, -⟩
    exact ⟨hterms, hrange⟩
  · rintro ⟨hterms, hrange⟩
    exact ⟨_, hterms, hrange, rfl⟩

/-- The same terms in another order make the same row. -/
theorem addRow_perm (hperm : terms.Perm terms') (h : m.addRow terms lower upper = .ok m') :
    m.addRow terms' lower upper = .ok m' := by
  obtain ⟨hterms, hrange, hm'⟩ := addRow_eq_ok_iff.mp h
  have hfin := (checkTerms_ok hterms).2
  refine addRow_eq_ok_iff.mpr ⟨?_, hrange, ?_⟩
  · rw [checkTerms_eq_ok_iff] at hterms ⊢
    intro t ht
    exact hterms t (hperm.mem_iff.mpr ht)
  · rw [hm', SparseRow.ofTerms, SparseRow.ofTerms, Sparse.normalize_eq_of_perm hfin hperm]

/-! ## What is added -/

/-- In exact arithmetic a row is accepted just if its terms are finite and within the columns and
its range is not empty and does not lie at infinity. It comes after the others, which stay as they
are, and its value at a point is that of the terms that were given. In another order they make the
same model. A point passes the check exactly if it did before and this value lies in the range, give
or take the tolerance. -/
theorem addRow_constrains (built : m.Built) (terms : List (Term Exact)) (lower upper : Exact) :
    ((∃ m', m.addRow terms lower upper = .ok m') ↔
      (∀ t ∈ terms, t.1 < m.numCols ∧ isFinite t.2 = true) ∧
      lower < .posInf ∧ .negInf < upper ∧ lower ≤ upper) ∧
    ∀ m', m.addRow terms lower upper = .ok m' →
      m'.numRows - 1 = m.numRows ∧ m'.numRows = m.numRows + 1 ∧
      m'.rowRange m.numRows = (lower, upper) ∧
      (∀ i < m.numRows, m'.rowTerms i = m.rowTerms i ∧ m'.rowRange i = m.rowRange i ∧
        ∀ x, m'.rowActivity i x = m.rowActivity i x) ∧
      (∀ terms', terms.Perm terms' → m.addRow terms' lower upper = .ok m') ∧
      ∀ x : Point Exact, x.IsRational →
        let value := (terms.map fun t => t.2.toRat * x.rat t.1).sum
        m'.rowActivity m.numRows x = .fin value ∧
        ∀ tol, m'.isFeasible x tol = true ↔
          m.isFeasible x tol = true ∧ lower - tol ≤ .fin value ∧ .fin value ≤ upper + tol := by
  refine ⟨exists_addRow_iff, ?_⟩
  intro m' h
  have wf := built.wellFormed
  have hrows := numRows_addRow h
  have hlines := lines_addRow wf.lines h
  have hactivity := rowActivity_addRow wf.lines h
  have hrange := rowRange_addRow wf.rowUpper h
  have hfin := (checkTerms_ok (addRow_ok h).1).2
  refine ⟨by omega, hrows, by rw [hrange, if_pos rfl], ?_, fun _ hperm => addRow_perm hperm h, ?_⟩
  · intro i hi
    refine ⟨?_, by rw [hrange, if_neg hi.ne], fun x => by rw [hactivity, if_neg hi.ne]⟩
    have hline : i < m.matrix.lines.size := wf.lines.symm ▸ hi
    simp [rowTerms, hlines, hi.ne, Array.getElem?_eq_getElem hline]
  · intro x hx value
    have hdot : Sparse.dot (Sparse.normalize terms) x = .fin value := by
      rw [Sparse.dot_eq (Sparse.finite_normalize hfin) hx, Sparse.value_normalize _ hfin]
      rfl
    constructor
    · rw [hactivity, if_pos rfl, hdot]
    · intro tol
      rw [isFeasible_addRow wf.lines wf.rowUpper h, hdot, withinRange_iff]

/-- The points with `x₀ + x₁ ≤ 4` in the quadrant. -/
def triangle : Model Exact where
  objective := #[1, 1]
  matrix := ⟨1, 2, .byRow, #[[(0, 1), (1, 1)]]⟩
  rowLower := #[.negInf]
  rowUpper := #[.fin 4]
  colLower := #[0, 0]
  colUpper := #[.posInf, .posInf]
  kinds := #[.continuous, .continuous]

theorem built_triangle : triangle.Built :=
  .ofRows #[1, 1] #[.continuous, .continuous] [([(0, 1), (1, 1)], .negInf, .fin 4)] (by cbv)

/-- The terms of `x₁` cancel, and those of `x₀` add up to `3 x₀`. -/
def cancelling : List (Term Exact) := [(1, .fin 2), (0, 1), (1, .fin (-2)), (0, .fin 2)]

/-- At `(1, 2)` the value of the row is 3, which is within its range just with the tolerance. -/
theorem addRow_constrains_triangle : triangle.Built ∧
    ∃ m', triangle.addRow cancelling (.fin 4) .posInf = .ok m' ∧
      triangle.addRow cancelling.reverse (.fin 4) .posInf = .ok m' ∧
      m'.rowActivity 1 #[1, .fin 2] = .fin 3 ∧
      m'.isFeasible #[1, .fin 2] 1 = true ∧ m'.isFeasible #[1, .fin 2] 0 = false := by
  obtain ⟨haccepts, hadds⟩ := addRow_constrains built_triangle cancelling (.fin 4) .posInf
  obtain ⟨m', hm'⟩ := haccepts.mpr (by decide)
  obtain ⟨-, -, -, -, hperm, hpoint⟩ := hadds m' hm'
  obtain ⟨hactivity, hfeasible⟩ := hpoint #[1, .fin 2] (Point.isRational_of_lt (by decide))
  have hvalue : (cancelling.map fun t => t.2.toRat * Point.rat #[1, .fin 2] t.1).sum = 3 := by
    decide +kernel
  rw [hvalue] at hactivity hfeasible
  refine ⟨built_triangle, m', hm', hperm _ cancelling.reverse_perm.symm, hactivity, ?_, ?_⟩
  · exact (hfeasible 1).mpr (by decide +kernel)
  · rw [Bool.eq_false_iff, Ne, hfeasible]
    decide +kernel

end Model

end MixedInteger
