import Mathlib.Algebra.BigOperators.Intervals
import Mathlib.Algebra.BigOperators.Ring.Finset
import Mathlib.Data.List.Perm.Basic
import Mathlib.Tactic.Ring
import MixedInteger.Proofs.Exact
import MixedInteger.Sparse

/-!
# Linear forms at rational points

At a point with rational coordinates a form with finite coefficients has a rational value. Putting
terms into stored form does not change that value.

* `Point.IsRational`, `Point.rat`: points with rational coordinates;
* `Sparse.value`: the rational value of a form;
* `Sparse.value_normalize`: the stored form of any terms has their value;
* `Sparse.sorted_normalize`: it has one term a column, in increasing order;
* `Sparse.normalize_normalize`: putting it into stored form again changes nothing;
* `weighted`: the value of a form that is given by all its coefficients.
-/

namespace MixedInteger

open Exact hiding isFinite
open Scalar (isFinite)

/-- Every coordinate is a rational number. -/
def Point.IsRational (x : Point Exact) : Prop := ∀ j, isFinite (x.coord j) = true

/-- The coordinates as rational numbers. -/
def Point.rat (x : Point Exact) (j : Nat) : ℚ := (x.coord j).toRat

theorem Point.coord_eq {x : Point Exact} (hx : x.IsRational) (j : Nat) :
    x.coord j = .fin (x.rat j) :=
  eq_fin (hx j)

/-- Rational coordinates up to the end of a point are rational coordinates. -/
theorem Point.isRational_of_lt {x : Point Exact} (h : ∀ j < x.size, isFinite (x.coord j) = true) :
    x.IsRational := by
  intro j
  by_cases hj : j < x.size
  · exact h j hj
  · simp [Point.coord, Array.getElem?_eq_none (Nat.le_of_not_lt hj)]

namespace Sparse

/-- The coefficients are rational numbers. -/
def Finite (ts : List (Term Exact)) : Prop := ∀ t ∈ ts, isFinite t.2 = true

/-- The value of a form at rational coordinates. -/
def value (ts : List (Term Exact)) (y : Nat → ℚ) : ℚ := (ts.map fun t => t.2.toRat * y t.1).sum

/-- The columns increase from term to term. -/
def Sorted (ts : List (Term Exact)) : Prop := ts.Pairwise fun s t => s.1 < t.1

@[simp] theorem value_nil (y : Nat → ℚ) : value [] y = 0 := rfl

@[simp] theorem value_cons (t : Term Exact) (ts : List (Term Exact)) (y : Nat → ℚ) :
    value (t :: ts) y = t.2.toRat * y t.1 + value ts y := by
  simp [value]

/-- A value depends on the columns that occur. -/
theorem value_congr {ts : List (Term Exact)} {y y' : Nat → ℚ} (h : ∀ t ∈ ts, y t.1 = y' t.1) :
    value ts y = value ts y' := by
  unfold value
  rw [List.map_congr_left fun t ht => by rw [h t ht]]

theorem finite_cons {t : Term Exact} {ts : List (Term Exact)} :
    Finite (t :: ts) ↔ isFinite t.2 = true ∧ Finite ts := by
  simp [Finite]

theorem dot_eq {ts : List (Term Exact)} {x : Point Exact} (hts : Finite ts) (hx : x.IsRational) :
    dot ts x = .fin (value ts x.rat) := by
  apply sum_eq
  intro t ht
  rw [eq_fin (hts t ht), x.coord_eq hx]
  simp

/-! ## Stored form -/

section Stored

variable {α : Type}

theorem insertTerm_perm (t : Term α) (ts : List (Term α)) :
    (insertTerm t ts).Perm (t :: ts) := by
  induction ts with
  | nil => exact .refl _
  | cons s rest ih =>
    unfold insertTerm
    split
    · exact .refl _
    · exact (ih.cons s).trans (.swap t s rest)

theorem sortTerms_perm (ts : List (Term α)) : (sortTerms ts).Perm ts := by
  induction ts with
  | nil => exact .refl _
  | cons t ts ih => exact (insertTerm_perm t _).trans (ih.cons t)

theorem insertTerm_ordered {t : Term α} {ts : List (Term α)}
    (h : ts.Pairwise fun a b => a.1 ≤ b.1) :
    (insertTerm t ts).Pairwise fun a b => a.1 ≤ b.1 := by
  induction ts with
  | nil => simp [insertTerm]
  | cons s rest ih =>
    obtain ⟨hs, hrest⟩ := List.pairwise_cons.mp h
    unfold insertTerm
    split
    · refine List.pairwise_cons.mpr ⟨?_, h⟩
      intro b hb
      rcases List.mem_cons.mp hb with rfl | hb
      · assumption
      · exact Nat.le_trans ‹_› (hs b hb)
    · refine List.pairwise_cons.mpr ⟨?_, ih hrest⟩
      intro b hb
      rcases List.mem_cons.mp ((insertTerm_perm t rest).mem_iff.mp hb) with rfl | hb
      · omega
      · exact hs b hb

theorem sortTerms_ordered (ts : List (Term α)) :
    (sortTerms ts).Pairwise fun a b => a.1 ≤ b.1 := by
  induction ts with
  | nil => exact .nil
  | cons t ts ih => exact insertTerm_ordered ih

/-- Sorting leaves what is in order. -/
theorem sortTerms_of_ordered {ts : List (Term α)} (h : ts.Pairwise fun s t => s.1 < t.1) :
    sortTerms ts = ts := by
  induction ts with
  | nil => rfl
  | cons t rest ih =>
    obtain ⟨ht, hrest⟩ := List.pairwise_cons.mp h
    change insertTerm t (sortTerms rest) = t :: rest
    rw [ih hrest]
    cases rest with
    | nil => rfl
    | cons s rest => exact if_pos (Nat.le_of_lt (ht s List.mem_cons_self))

variable [Scalar α]

/-- Merging invents no column. -/
theorem fst_mem_mergeFrom {j : Nat} {a : α} {ts : List (Term α)} {t : Term α}
    (h : t ∈ mergeFrom j a ts) : t.1 = j ∨ ∃ s ∈ ts, s.1 = t.1 := by
  induction ts generalizing j a with
  | nil => simp_all [mergeFrom]
  | cons s rest ih =>
    obtain ⟨k, b⟩ := s
    unfold mergeFrom at h
    split at h
    · rcases ih h with h | ⟨s, hs, h⟩
      · exact .inl h
      · exact .inr ⟨s, List.mem_cons_of_mem _ hs, h⟩
    · rcases List.mem_cons.mp h with rfl | h
      · exact .inl rfl
      · rcases ih h with h | ⟨s, hs, h⟩
        · exact .inr ⟨(k, b), List.mem_cons_self, h.symm⟩
        · exact .inr ⟨s, List.mem_cons_of_mem _ hs, h⟩

theorem sorted_mergeFrom {j : Nat} {a : α} {ts : List (Term α)}
    (h : ((j, a) :: ts).Pairwise fun s t => s.1 ≤ t.1) :
    (mergeFrom j a ts).Pairwise fun s t => s.1 < t.1 := by
  induction ts generalizing j a with
  | nil => simp [mergeFrom]
  | cons s rest ih =>
    obtain ⟨k, b⟩ := s
    obtain ⟨hj, hrest⟩ := List.pairwise_cons.mp h
    unfold mergeFrom
    split
    · subst k
      exact ih (List.pairwise_cons.mpr ⟨fun t ht => hj t (List.mem_cons_of_mem _ ht),
        (List.pairwise_cons.mp hrest).2⟩)
    · refine List.pairwise_cons.mpr ⟨?_, ih hrest⟩
      intro t ht
      have hjk : j ≤ k := hj (k, b) List.mem_cons_self
      rcases fst_mem_mergeFrom ht with ht | ⟨s, hs, ht⟩
      · change j < t.1
        omega
      · have hks : k ≤ s.1 := (List.pairwise_cons.mp hrest).1 s hs
        change j < t.1
        omega

theorem sorted_normalize (ts : List (Term α)) :
    (normalize ts).Pairwise fun s t => s.1 < t.1 := by
  refine List.Pairwise.filter _ ?_
  have h := sortTerms_ordered ts
  cases hs : sortTerms ts with
  | nil => exact .nil
  | cons t rest =>
    rw [hs] at h
    exact sorted_mergeFrom h

/-- Every column of the stored form is a column of the given terms. -/
theorem fst_mem_normalize {ts : List (Term α)} {t : Term α} (h : t ∈ normalize ts) :
    ∃ s ∈ ts, s.1 = t.1 := by
  have ht := (List.mem_filter.mp h).1
  cases hs : sortTerms ts with
  | nil => simp [hs, mergeTerms] at ht
  | cons s rest =>
    rw [hs] at ht
    have old {u : Term α} (hu : u ∈ s :: rest) : u ∈ ts :=
      (sortTerms_perm ts).mem_iff.mp (hs ▸ hu)
    rcases fst_mem_mergeFrom ht with ht | ⟨u, hu, ht⟩
    · exact ⟨s, old List.mem_cons_self, ht.symm⟩
    · exact ⟨u, old (List.mem_cons_of_mem _ hu), ht⟩

/-- Merging leaves terms of different columns. -/
theorem mergeFrom_of_ordered {j : Nat} {a : α} {ts : List (Term α)}
    (h : ((j, a) :: ts).Pairwise fun s t => s.1 < t.1) : mergeFrom j a ts = (j, a) :: ts := by
  induction ts generalizing j a with
  | nil => rfl
  | cons s rest ih =>
    obtain ⟨k, b⟩ := s
    obtain ⟨hj, hrest⟩ := List.pairwise_cons.mp h
    have hne : k ≠ j := Nat.ne_of_gt (hj (k, b) List.mem_cons_self)
    unfold mergeFrom
    rw [if_neg hne, ih hrest]

/-- The stored form of a stored form is itself. -/
theorem normalize_normalize (ts : List (Term α)) : normalize (normalize ts) = normalize ts := by
  have hordered := sorted_normalize ts
  have hmerged : mergeTerms (sortTerms (normalize ts)) = normalize ts := by
    rw [sortTerms_of_ordered hordered]
    cases hts : normalize ts with
    | nil => rfl
    | cons t rest => exact mergeFrom_of_ordered (hts ▸ hordered)
  rw [normalize, hmerged, List.filter_eq_self]
  intro t ht
  exact (List.mem_filter.mp ht).2

end Stored

theorem finite_mergeFrom {j : Nat} {a : Exact} {ts : List (Term Exact)}
    (ha : isFinite a = true) (hts : Finite ts) : Finite (mergeFrom j a ts) := by
  induction ts generalizing j a with
  | nil => simpa [mergeFrom, Finite] using ha
  | cons t rest ih =>
    obtain ⟨k, b⟩ := t
    obtain ⟨hb, hrest⟩ := finite_cons.mp hts
    unfold mergeFrom
    split
    · refine ih ?_ hrest
      obtain ⟨p, rfl⟩ := isFinite_iff.mp ha
      obtain ⟨q, rfl⟩ := isFinite_iff.mp hb
      rfl
    · exact finite_cons.mpr ⟨ha, ih hb hrest⟩

theorem value_mergeFrom {j : Nat} {a : Exact} {ts : List (Term Exact)} (y : Nat → ℚ)
    (ha : isFinite a = true) (hts : Finite ts) :
    value (mergeFrom j a ts) y = a.toRat * y j + value ts y := by
  induction ts generalizing j a with
  | nil => simp [mergeFrom]
  | cons t rest ih =>
    obtain ⟨k, b⟩ := t
    obtain ⟨hb, hrest⟩ := finite_cons.mp hts
    unfold mergeFrom
    split
    · subst k
      obtain ⟨p, rfl⟩ := isFinite_iff.mp ha
      obtain ⟨q, rfl⟩ := isFinite_iff.mp hb
      rw [ih (by rfl) hrest]
      simp only [fin_add, toRat_fin, value_cons]
      ring
    · rw [value_cons, ih hb hrest, value_cons]

theorem finite_mergeTerms {ts : List (Term Exact)} (h : Finite ts) : Finite (mergeTerms ts) := by
  cases ts with
  | nil => exact h
  | cons t rest => exact finite_mergeFrom (finite_cons.mp h).1 (finite_cons.mp h).2

theorem finite_sortTerms {ts : List (Term Exact)} (h : Finite ts) : Finite (sortTerms ts) :=
  fun t ht => h t ((sortTerms_perm ts).mem_iff.mp ht)

/-- Dropping the terms with coefficient zero leaves the value. -/
theorem value_filter_ne_zero {ts : List (Term Exact)} (y : Nat → ℚ) (h : Finite ts) :
    value (ts.filter fun t => !(t.2 == 0)) y = value ts y := by
  induction ts with
  | nil => rfl
  | cons t rest ih =>
    obtain ⟨j, a⟩ := t
    obtain ⟨ha, hrest⟩ := finite_cons.mp h
    obtain ⟨q, rfl⟩ := isFinite_iff.mp ha
    have ih := ih hrest
    by_cases hq : q = 0
    · simpa [hq] using ih
    · simpa [hq] using ih

theorem finite_normalize {ts : List (Term Exact)} (h : Finite ts) : Finite (normalize ts) := by
  intro t ht
  exact finite_mergeTerms (finite_sortTerms h) t (List.mem_filter.mp ht).1

theorem value_normalize {ts : List (Term Exact)} (y : Nat → ℚ) (h : Finite ts) :
    value (normalize ts) y = value ts y := by
  have hsort := finite_sortTerms h
  calc value (normalize ts) y
      = value (mergeTerms (sortTerms ts)) y := value_filter_ne_zero y (finite_mergeTerms hsort)
    _ = value (sortTerms ts) y := by
        cases hs : sortTerms ts with
        | nil => rfl
        | cons t rest =>
          rw [hs] at hsort
          exact value_mergeFrom y (finite_cons.mp hsort).1 (finite_cons.mp hsort).2
    _ = value ts y := ((sortTerms_perm ts).map _).sum_eq

end Sparse

/-! ## Forms given by all their coefficients -/

/-- The combination of `y` with the coefficients in `v`. -/
def weighted (v : Point Exact) (y : Nat → ℚ) : ℚ := ∑ j ∈ Finset.range v.size, v.rat j * y j

theorem coord_modify (v : Point Exact) (i j : Nat) (f : Exact → Exact) (hi : i < v.size) :
    Point.coord (v.modify i f) j = if j = i then f (v.coord i) else v.coord j := by
  simp only [Point.coord, Array.getElem?_modify]
  by_cases h : j = i
  · subst h
    simp [Array.getElem?_eq_getElem hi]
  · simp [h, Ne.symm h]

theorem isRational_modify {v : Point Exact} (hv : v.IsRational) {i : Nat} (hi : i < v.size)
    (a : ℚ) : Point.IsRational (v.modify i (· + .fin a)) := by
  intro j
  rw [coord_modify v i j _ hi]
  split
  · rw [v.coord_eq hv i]
    rfl
  · exact hv j

/-- Adding `a` to the coefficient of one variable adds `a` times that variable. -/
theorem weighted_modify {v : Point Exact} (hv : v.IsRational) {i : Nat} (hi : i < v.size) (a : ℚ)
    (y : Nat → ℚ) : weighted (v.modify i (· + .fin a)) y = weighted v y + a * y i := by
  have entry (j : Nat) : Point.rat (v.modify i (· + .fin a)) j * y j
      = v.rat j * y j + if j = i then a * y i else 0 := by
    unfold Point.rat
    rw [coord_modify v i j _ hi]
    split
    · subst j
      rw [v.coord_eq hv i]
      simp only [fin_add, toRat_fin]
      ring
    · simp
  unfold weighted
  rw [Array.size_modify, Finset.sum_congr rfl fun j _ => entry j, Finset.sum_add_distrib,
    Finset.sum_ite_eq' (Finset.range v.size)]
  simp [hi]

/-- The coefficients in a numbered list are rational, and their numbers are those of the point. -/
theorem Point.IsRational.of_mem_zipIdx {v : Point Exact} (hv : v.IsRational) {t : Exact × Nat}
    (ht : t ∈ v.toList.zipIdx) : isFinite t.1 = true ∧ t.2 < v.size := by
  have hget := List.mk_mem_zipIdx_iff_getElem?.mp ht
  rw [Array.getElem?_toList] at hget
  have hfin := hv t.2
  rw [Point.coord, hget] at hfin
  exact ⟨hfin, (Array.getElem?_eq_some_iff.mp hget).1⟩

/-- The combination of `y` with a list of coefficients, one for each index. -/
theorem weighted_eq_sum (v : Point Exact) (y : Nat → ℚ) :
    weighted v y = (v.toList.zipIdx.map fun t => t.1.toRat * y t.2).sum := by
  obtain ⟨l⟩ := v
  induction l using List.reverseRecOn with
  | nil => rfl
  | append_singleton l a ih =>
    have init (j : Nat) (hj : j < l.length) :
        Point.rat (l ++ [a]).toArray j = Point.rat l.toArray j := by
      simp [Point.rat, Point.coord, List.getElem?_append_left hj]
    have last : Point.rat (l ++ [a]).toArray l.length = a.toRat := by
      simp [Point.rat, Point.coord]
    have ih : ∑ j ∈ Finset.range l.length, Point.rat l.toArray j * y j = _ := ih
    unfold weighted
    rw [List.size_toArray, List.length_append, List.length_singleton, Finset.sum_range_succ, last,
      Finset.sum_congr rfl fun j hj => by rw [init j (Finset.mem_range.mp hj)], ih]
    simp [List.zipIdx_append]

/-- Adding a multiple of a form term by term adds that multiple of its value. -/
theorem weighted_addForm {ts : List (Term Exact)} {v : Point Exact} {p : ℚ}
    (hv : v.IsRational) (hts : Sparse.Finite ts) (hcols : ∀ t ∈ ts, t.1 < v.size) :
    let w := ts.foldl (fun v t => v.modify t.1 (· + .fin p * t.2)) v
    Point.IsRational w ∧ w.size = v.size ∧
      ∀ y, weighted w y = weighted v y + p * Sparse.value ts y := by
  induction ts generalizing v with
  | nil => exact ⟨hv, rfl, by simp⟩
  | cons t rest ih =>
    obtain ⟨j, a⟩ := t
    obtain ⟨ha, hrest⟩ := Sparse.finite_cons.mp hts
    obtain ⟨q, rfl⟩ := isFinite_iff.mp ha
    have hj : j < v.size := hcols _ List.mem_cons_self
    obtain ⟨hw, hsize, hvalue⟩ := ih (isRational_modify hv hj (p * q)) hrest (by
      intro t ht
      rw [Array.size_modify]
      exact hcols t (List.mem_cons_of_mem _ ht))
    refine ⟨hw, hsize.trans (Array.size_modify ..), ?_⟩
    intro y
    rw [List.foldl_cons]
    refine (hvalue y).trans ?_
    rw [weighted_modify hv hj, Sparse.value_cons, toRat_fin]
    ring

end MixedInteger
