import Mathlib.Algebra.BigOperators.Field
import Mathlib.Algebra.BigOperators.Fin
import MixedInteger.Proofs.Feasibility
import MixedInteger.Simplex.Pivoting

/-!
# What a tableau says

The rows of a tableau are linear equations over all variables. A pivot replaces them by others with
the same solutions and exchanges two variables between the basis and the rest, so that the equations
go on saying that every row variable is the value of its row.

* `Tableau.Paired`: basic variables and rows belong to each other one to one, in any arithmetic;
* `Tableau.Canonical`: so they do, and the basic variables have unit columns;
* `Tableau.Solves`: the equations; `Tableau.solves_iff` solves them for the basic variables;
* `Tableau.solves_slackBasis`: what the first tableau says;
* `Tableau.canonical_pivot`, `Tableau.solves_pivot`: pivots change neither;
* `Tableau.solves_point`: the point of a tableau satisfies the equations;
* `Tableau.sum_cost`: a cost in terms of the resting variables alone.
-/

namespace MixedInteger.Tableau

open Exact hiding isFinite isNaN
open Scalar (isFinite isNaN)

variable {m n : Nat}

/-! ## Places and heads -/

section Pairing

variable {α : Type} {t : Tableau α m n}

/-- A variable has its place in a row exactly if it is the basic variable of that row. -/
structure Paired (t : Tableau α m n) : Prop where
  place_head : ∀ r, t.place.get (t.head.get r) = .basic r
  head_place : ∀ k r, t.place.get k = .basic r → t.head.get r = k

theorem Paired.head_ne (ht : t.Paired) {q : Fin (m + n)} {rest : Resting}
    (hq : t.place.get q = .nonbasic rest) (r : Fin m) : t.head.get r ≠ q := by
  rintro rfl
  rw [ht.place_head] at hq
  cases hq

theorem Paired.head_injective (ht : t.Paired) {r r' : Fin m} (h : t.head.get r = t.head.get r') :
    r = r' := by
  have hplace := ht.place_head r
  rw [h, ht.place_head] at hplace
  exact (Place.basic.inj hplace).symm

theorem paired_flip (ht : t.Paired) {q : Fin (m + n)} {rest : Resting}
    (hq : t.place.get q = .nonbasic rest) (target : Resting) : (t.flip q target).Paired := by
  constructor
  · intro r
    change (t.flip q target).place.get (t.head.get r) = .basic r
    rw [place_flip, if_neg (ht.head_ne hq r)]
    exact ht.place_head r
  · intro k r hk
    rw [place_flip] at hk
    split at hk
    · cases hk
    · exact ht.head_place k r hk

variable [Scalar α]

theorem place_pivot (t : Tableau α m n) (dropTol : α) (p : Fin m) (q k : Fin (m + n))
    (leave : Resting) : (t.pivot dropTol p q leave).place.get k =
      if k = q then .basic p
      else if k = t.head.get p then .nonbasic
        (if t.lower.get (t.head.get p) == t.upper.get (t.head.get p) then .fixed else leave)
      else t.place.get k := by
  simp only [pivot, get_ofFn]

/-- A pivot on a resting variable exchanges it for one basic variable and keeps the others. -/
theorem paired_pivot (ht : t.Paired) {q : Fin (m + n)} {rest : Resting}
    (hq : t.place.get q = .nonbasic rest) (dropTol : α) (p : Fin m) (leave : Resting) :
    (t.pivot dropTol p q leave).Paired := by
  constructor
  · intro r
    rw [head_pivot, place_pivot]
    by_cases hr : r = p
    · simp [hr]
    · rw [if_neg hr, if_neg (ht.head_ne hq r), if_neg fun h => hr (ht.head_injective h)]
      exact ht.place_head r
  · intro k r hk
    rw [place_pivot] at hk
    rw [head_pivot]
    split at hk
    · obtain rfl := Place.basic.inj hk
      simp [*]
    · split at hk
      · cases hk
      · rename_i hleave
        have hhead := ht.head_place k r hk
        rw [if_neg, hhead]
        rintro rfl
        exact hleave hhead.symm

theorem paired_slackBasis (model : Model α) : (slackBasis model).Paired := by
  constructor
  · intro r
    simp only [slackBasis, get_ofFn, Fin.val_castAdd, Fin.is_lt, ↓reduceDIte, Fin.eta]
  · intro k r hk
    simp only [slackBasis, get_ofFn] at hk ⊢
    split at hk
    · obtain rfl := Place.basic.inj hk
      rfl
    · cases hk

end Pairing

/-! ## Equations -/

/-- The entry of variable `k` in row `r` as a rational number. -/
def rat (t : Tableau Exact m n) (r : Fin m) (k : Fin (m + n)) : ℚ := (t.coef r k).toRat

/-- The values satisfy the equation of every row. -/
def Solves (t : Tableau Exact m n) (z : Fin (m + n) → ℚ) : Prop := ∀ r, ∑ k, t.rat r k * z k = 0

/-- The entries are rational, places and heads agree, and the basic variables have unit columns. -/
structure Canonical (t : Tableau Exact m n) : Prop where
  finite : ∀ r k, isFinite (t.coef r k) = true
  place_head : ∀ r, t.place.get (t.head.get r) = .basic r
  head_place : ∀ k r, t.place.get k = .basic r → t.head.get r = k
  unit : ∀ r r', t.rat r (t.head.get r') = if r = r' then 1 else 0

theorem Canonical.paired {t : Tableau Exact m n} (ht : t.Canonical) : t.Paired :=
  ⟨ht.place_head, ht.head_place⟩

/-- The sum over the resting variables. -/
def restingSum (t : Tableau Exact m n) (g : Fin (m + n) → ℚ) : ℚ :=
  ∑ k, if (t.place.get k).isBasic then 0 else g k

theorem restingSum_congr {t : Tableau Exact m n} {g h : Fin (m + n) → ℚ}
    (hgh : ∀ k, (t.place.get k).isBasic = false → g k = h k) :
    t.restingSum g = t.restingSum h := by
  refine Finset.sum_congr rfl fun k _ => ?_
  cases hk : (t.place.get k).isBasic with
  | true => rfl
  | false => exact hgh k hk

section Equations

variable {t : Tableau Exact m n}

theorem coef_eq (ht : t.Canonical) (r : Fin m) (k : Fin (m + n)) : t.coef r k = .fin (t.rat r k) :=
  eq_fin (ht.finite r k)

/-- Every variable is basic in one row, or it rests. -/
theorem sum_split (ht : t.Canonical) (g : Fin (m + n) → ℚ) :
    ∑ k, g k = ∑ r, g (t.head.get r) + t.restingSum g := by
  have basic (k : Fin (m + n)) : (if (t.place.get k).isBasic then g k else 0)
      = ∑ r, if t.head.get r = k then g (t.head.get r) else 0 := by
    cases hk : t.place.get k with
    | nonbasic rest =>
      refine (Finset.sum_eq_zero fun r _ => if_neg ?_).symm
      rintro rfl
      rw [ht.place_head] at hk
      cases hk
    | basic r₀ =>
      have hiff (r : Fin m) : t.head.get r = k ↔ r₀ = r := by
        constructor
        · rintro rfl
          rw [ht.place_head] at hk
          exact (Place.basic.inj hk).symm
        · rintro rfl
          exact ht.head_place k r₀ hk
      have hterm (r : Fin m) : (if t.head.get r = k then g (t.head.get r) else 0)
          = if r₀ = r then g k else 0 := by
        by_cases h : t.head.get r = k
        · rw [if_pos h, if_pos ((hiff r).mp h), h]
        · rw [if_neg h, if_neg fun h' => h ((hiff r).mpr h')]
      simp [hterm, Place.isBasic]
  have hbasic : ∑ r, g (t.head.get r) = ∑ k, if (t.place.get k).isBasic then g k else 0 := by
    rw [Finset.sum_congr rfl fun k _ => basic k, Finset.sum_comm]
    simp
  rw [hbasic, restingSum, ← Finset.sum_add_distrib]
  refine Finset.sum_congr rfl fun k _ => ?_
  cases (t.place.get k).isBasic <;> simp

/-- The equations say what the basic variables are once the others rest somewhere. -/
theorem solves_iff (ht : t.Canonical) {z : Fin (m + n) → ℚ} :
    t.Solves z ↔ ∀ r, z (t.head.get r) = -t.restingSum fun k => t.rat r k * z k := by
  refine forall_congr' fun r => ?_
  rw [sum_split ht]
  have hunit : ∑ r', t.rat r (t.head.get r') * z (t.head.get r') = z (t.head.get r) := by
    simp [ht.unit]
  rw [hunit]
  exact add_eq_zero_iff_eq_neg

/-- What the cost gains with variable `k`, the basic variables following it. -/
def reduced (t : Tableau Exact m n) (c : Fin (m + n) → ℚ) (k : Fin (m + n)) : ℚ :=
  c k - ∑ r, c (t.head.get r) * t.rat r k

/-- At a solution the cost depends on the resting variables alone. -/
theorem sum_cost (ht : t.Canonical) {z : Fin (m + n) → ℚ} (hz : t.Solves z)
    (c : Fin (m + n) → ℚ) : ∑ k, c k * z k = t.restingSum fun k => t.reduced c k * z k := by
  have hbasic : ∑ r, c (t.head.get r) * z (t.head.get r)
      = -t.restingSum fun k => (∑ r, c (t.head.get r) * t.rat r k) * z k := by
    unfold restingSum
    rw [← Finset.sum_neg_distrib]
    simp only [(solves_iff ht).mp hz, restingSum, mul_neg, Finset.mul_sum, ← Finset.sum_neg_distrib]
    rw [Finset.sum_comm]
    refine Finset.sum_congr rfl fun k _ => ?_
    split
    · simp
    · rw [Finset.sum_mul, ← Finset.sum_neg_distrib]
      exact Finset.sum_congr rfl fun r _ => by ring
  rw [sum_split ht, hbasic]
  unfold restingSum
  rw [neg_add_eq_sub, ← Finset.sum_sub_distrib]
  refine Finset.sum_congr rfl fun k _ => ?_
  split
  · simp
  · unfold reduced
    ring

end Equations

/-! ## The first tableau -/

/-- The stored terms of a form, looked up column by column, have its value. -/
theorem sum_lookup {ts : List (Term Exact)} (hsorted : Sparse.Sorted ts) {n : Nat}
    (hcols : ∀ t ∈ ts, t.1 < n) (y : Nat → ℚ) :
    ∑ j : Fin n, ((ts.lookup j.val).getD 0).toRat * y j = Sparse.value ts y := by
  induction ts with
  | nil => simp
  | cons t rest ih =>
    obtain ⟨j₀, a⟩ := t
    obtain ⟨hj₀, hrest⟩ := List.forall_mem_cons.mp hcols
    obtain ⟨hfirst, hsorted⟩ := List.pairwise_cons.mp hsorted
    have hnone : rest.lookup j₀ = none := by
      rw [List.lookup_eq_none_iff]
      intro t ht
      have := hfirst t ht
      simp only [bne_iff_ne, ne_eq]
      omega
    have hterm (j : Fin n) : ((((j₀, a) :: rest).lookup j.val).getD 0).toRat * y j
        = (if j = ⟨j₀, hj₀⟩ then a.toRat * y j₀ else 0)
          + ((rest.lookup j.val).getD 0).toRat * y j := by
      by_cases h : j = ⟨j₀, hj₀⟩
      · subst h
        simp [hnone]
      · have hne : (j.val == j₀) = false := by
          simpa [Fin.ext_iff] using h
        simp [List.lookup_cons, hne, h]
    rw [Finset.sum_congr rfl fun j _ => hterm j, Finset.sum_add_distrib, ih hsorted hrest]
    simp

/-- The values of the columns among those of all variables. -/
def columnPart (z : Fin (m + n) → ℚ) (j : Nat) : ℚ :=
  if h : j < n then z (Fin.natAdd m ⟨j, h⟩) else 0

section SlackBasis

variable {model : Model Exact}

theorem coef_slackBasis (i : Fin model.numRows) (k : Fin (model.numRows + model.numCols)) :
    (slackBasis model).coef i k = model.definingEntry i k := by
  simp only [slackBasis, coef, get_ofFn]

theorem rat_slackBasis_row (i k : Fin model.numRows) :
    (slackBasis model).rat i (k.castAdd model.numCols) = if k = i then 1 else 0 := by
  rw [rat, coef_slackBasis, Model.definingEntry, if_pos (by simp)]
  by_cases h : k = i
  · simp [h]
  · simp [h, show k.val ≠ i.val from fun h' => h (Fin.ext h')]

theorem coef_slackBasis_column (wf : model.WellFormed) (i : Fin model.numRows)
    (j : Fin model.numCols) :
    (slackBasis model).coef i (Fin.natAdd model.numRows j)
      = .fin (-(((model.line i).lookup j.val).getD 0).toRat) := by
  have hcoef : model.coefficient? i j = (model.line i).lookup j.val := rfl
  rw [coef_slackBasis, Model.definingEntry, if_neg (by simp)]
  simp only [Fin.val_natAdd, Nat.add_sub_cancel_left, hcoef]
  cases hlookup : (model.line i).lookup j.val with
  | none => simp
  | some a =>
    obtain ⟨before, after, hline, -⟩ := List.lookup_eq_some_iff.mp hlookup
    have hfin : isFinite a = true := wf.finite i (j.val, a) (by simp [hline])
    obtain ⟨q, rfl⟩ := isFinite_iff.mp hfin
    simp

/-- The first tableau defines every row variable as the value of its row. -/
theorem solves_slackBasis (wf : model.WellFormed)
    (z : Fin (model.numRows + model.numCols) → ℚ) :
    (slackBasis model).Solves z ↔ ∀ i : Fin model.numRows,
      z (i.castAdd model.numCols) = Sparse.value (model.line i) (columnPart z) := by
  refine forall_congr' fun i => ?_
  have hrows : ∑ k : Fin model.numRows, (slackBasis model).rat i (k.castAdd model.numCols)
      * z (k.castAdd model.numCols) = z (i.castAdd model.numCols) := by
    simp [rat_slackBasis_row]
  have hcols : ∑ j : Fin model.numCols, (slackBasis model).rat i (Fin.natAdd model.numRows j)
      * z (Fin.natAdd model.numRows j) = -Sparse.value (model.line i) (columnPart z) := by
    rw [← sum_lookup (wf.sorted i) (wf.columns i), ← Finset.sum_neg_distrib]
    refine Finset.sum_congr rfl fun j _ => ?_
    rw [rat, coef_slackBasis_column wf, toRat_fin, columnPart, dif_pos j.isLt]
    ring
  rw [Fin.sum_univ_add, hrows, hcols, ← sub_eq_add_neg, sub_eq_zero]

theorem canonical_slackBasis (wf : model.WellFormed) : (slackBasis model).Canonical := by
  have hhead (r : Fin model.numRows) :
      (slackBasis model).head.get r = r.castAdd model.numCols := by
    simp only [slackBasis, get_ofFn]
  constructor
  case finite =>
    intro r k
    refine Fin.addCases (fun i => ?_) (fun j => ?_) k
    · rw [coef_slackBasis, Model.definingEntry, if_pos (by simp)]
      split <;> rfl
    · rw [coef_slackBasis_column wf]
      rfl
  case place_head => exact (paired_slackBasis model).place_head
  case head_place => exact (paired_slackBasis model).head_place
  case unit =>
    intro r r'
    rw [hhead, rat_slackBasis_row]
    simp only [eq_comm]

end SlackBasis

/-! ## The point of a tableau -/

section Point

variable {t : Tableau Exact m n}

/-- The point of the tableau as rational numbers. -/
def point (t : Tableau Exact m n) (k : Fin (m + n)) : ℚ := (t.values.get k).toRat

/-- Every resting variable rests at a rational number. -/
def RestsFinite (t : Tableau Exact m n) : Prop := ∀ k, isFinite (t.restValue k) = true

theorem basicValue_eq (ht : t.Canonical) (hrest : t.RestsFinite) (r : Fin m) :
    t.basicValue r = .fin (-t.restingSum fun k => t.rat r k * (t.restValue k).toRat) := by
  unfold basicValue
  rw [zero_eq, foldl_fin (f := fun k =>
    -(if (t.place.get k).isBasic then 0 else t.rat r k * (t.restValue k).toRat))]
  · rw [← Fin.sum_univ_def, Finset.sum_neg_distrib, zero_add, restingSum]
  · intro k _ q
    rw [coef_eq ht, eq_fin (hrest k)]
    cases (t.place.get k).isBasic with
    | true => simp
    | false =>
      by_cases hzero : t.rat r k = 0
      · simp [hzero]
      · simp [hzero, sub_eq_add_neg]

theorem values_eq (ht : t.Canonical) (hrest : t.RestsFinite) (k : Fin (m + n)) :
    t.values.get k = .fin (t.point k) := by
  apply eq_fin
  have hk := hrest k
  unfold values
  rw [get_ofFn]
  unfold restValue at hk
  cases hplace : t.place.get k with
  | basic r =>
    dsimp only
    rw [basicValue_eq ht hrest]
    rfl
  | nonbasic rest =>
    rw [hplace] at hk
    exact hk

/-- A resting variable is where it rests. -/
theorem point_resting (t : Tableau Exact m n) {k : Fin (m + n)} {rest : Resting}
    (hk : t.place.get k = .nonbasic rest) :
    t.values.get k = rest.value (t.lower.get k) (t.upper.get k) := by
  unfold values
  rw [get_ofFn, hk]

theorem solves_point (ht : t.Canonical) (hrest : t.RestsFinite) : t.Solves t.point := by
  rw [solves_iff ht]
  intro r
  have hhead : t.values.get (t.head.get r) = t.basicValue r := by
    unfold values
    rw [get_ofFn, ht.place_head]
  rw [point, hhead, basicValue_eq ht hrest, toRat_fin, neg_inj]
  refine Finset.sum_congr rfl fun k _ => ?_
  cases hk : t.place.get k with
  | basic r' => rfl
  | nonbasic rest =>
    have hvalue : t.restValue k = t.values.get k := by
      rw [point_resting t hk, restValue, hk]
    simp only [Place.isBasic, Bool.false_eq_true, ↓reduceIte]
    rw [hvalue, point]

end Point

/-! ## Pivots and flips -/

section Step

variable {t : Tableau Exact m n}

/-- Without a drop tolerance nothing is dropped. -/
theorem flush_zero (q : ℚ) : flush 0 (Exact.fin q) = .fin q := by
  have hnot : ¬ Scalar.abs (Exact.fin q) < 0 := by simp [abs_nonneg]
  rw [flush, if_neg hnot]

/-- A pivot divides its row by the pivot and subtracts multiples of it from the others. -/
theorem coef_pivot (ht : t.Canonical) {p : Fin m} {q : Fin (m + n)} (hpq : t.rat p q ≠ 0)
    (leave : Resting) (r : Fin m) (k : Fin (m + n)) :
    (t.pivot 0 p q leave).coef r k = .fin (if r = p then t.rat p k / t.rat p q
      else t.rat r k - t.rat r q * (t.rat p k / t.rat p q)) := by
  have hrow (k : Fin (m + n)) : (t.pivotRow p q).get k = .fin (t.rat p k / t.rat p q) := by
    unfold pivotRow
    rw [get_ofFn]
    split
    · subst k
      rw [div_self hpq]
      rfl
    · rw [coef_eq ht, coef_eq ht, fin_div _ hpq]
  by_cases hr : r = p
  · subst r
    simp only [pivot, coef, get_ofFn, ↓reduceIte]
    exact hrow k
  · have hentry (k : Fin (m + n)) : (t.entry.get r).get k = .fin (t.rat r k) := coef_eq ht r k
    simp only [pivot, coef, get_ofFn, hr, ↓reduceIte]
    unfold eliminate
    rw [hentry q]
    by_cases hzero : t.rat r q = 0
    · simp [hzero, hentry k]
    · have hfactor : (Exact.fin (t.rat r q) == 0) = false := by simpa using hzero
      simp only [hfactor, Bool.false_eq_true, ↓reduceIte, get_ofFn]
      split
      · subst k
        rw [div_self hpq, mul_one, sub_self]
        rfl
      · rw [hentry k, hrow k, fin_mul, fin_sub, flush_zero]

theorem rat_pivot (ht : t.Canonical) {p : Fin m} {q : Fin (m + n)} (hpq : t.rat p q ≠ 0)
    (leave : Resting) (r : Fin m) (k : Fin (m + n)) :
    (t.pivot 0 p q leave).rat r k = if r = p then t.rat p k / t.rat p q
      else t.rat r k - t.rat r q * (t.rat p k / t.rat p q) := by
  rw [rat, coef_pivot ht hpq, toRat_fin]

/-- Pivoting on an entry other than zero keeps the solutions. -/
theorem solves_pivot (ht : t.Canonical) {p : Fin m} {q : Fin (m + n)} (hpq : t.rat p q ≠ 0)
    (leave : Resting) (z : Fin (m + n) → ℚ) :
    (t.pivot 0 p q leave).Solves z ↔ t.Solves z := by
  have hp : ∑ k, (t.pivot 0 p q leave).rat p k * z k
      = (∑ k, t.rat p k * z k) / t.rat p q := by
    rw [Finset.sum_div]
    refine Finset.sum_congr rfl fun k _ => ?_
    rw [rat_pivot ht hpq, if_pos rfl]
    ring
  have hr (r : Fin m) (hne : r ≠ p) : ∑ k, (t.pivot 0 p q leave).rat r k * z k
      = ∑ k, t.rat r k * z k - t.rat r q * ((∑ k, t.rat p k * z k) / t.rat p q) := by
    rw [Finset.sum_div, Finset.mul_sum, ← Finset.sum_sub_distrib]
    refine Finset.sum_congr rfl fun k _ => ?_
    rw [rat_pivot ht hpq, if_neg hne]
    ring
  constructor
  · intro h r
    have hzero : ∑ k, t.rat p k * z k = 0 := by
      have := h p
      rw [hp, div_eq_zero_iff] at this
      exact this.resolve_right hpq
    by_cases hne : r = p
    · exact hne ▸ hzero
    · have hsum := h r
      rw [hr r hne, hzero, zero_div, mul_zero, sub_zero] at hsum
      exact hsum
  · intro h r
    by_cases hne : r = p
    · rw [hne, hp, h p, zero_div]
    · rw [hr r hne, h r, h p, zero_div, mul_zero, sub_zero]

/-- Pivoting keeps basic variables and rows in line. -/
theorem canonical_pivot (ht : t.Canonical) {p : Fin m} {q : Fin (m + n)} (hpq : t.rat p q ≠ 0)
    {rest : Resting} (hq : t.place.get q = .nonbasic rest) (leave : Resting) :
    (t.pivot 0 p q leave).Canonical := by
  have hpaired := paired_pivot ht.paired hq 0 p leave
  constructor
  case finite =>
    intro r k
    rw [coef_pivot ht hpq]
    rfl
  case place_head => exact hpaired.place_head
  case head_place => exact hpaired.head_place
  case unit =>
    intro r r'
    rw [head_pivot, rat_pivot ht hpq]
    by_cases hr : r = p <;> by_cases hr' : r' = p
    · simp [hr, hr', div_self hpq]
    · simp [hr, hr', ht.unit, Ne.symm hr']
    · simp [hr, hr', div_self hpq]
    · simp [hr, hr', ht.unit, Ne.symm hr']

theorem canonical_flip (ht : t.Canonical) {q : Fin (m + n)} {rest : Resting}
    (hq : t.place.get q = .nonbasic rest) (target : Resting) : (t.flip q target).Canonical := by
  have hpaired := paired_flip ht.paired hq target
  exact ⟨ht.finite, hpaired.place_head, hpaired.head_place, ht.unit⟩

end Step

end MixedInteger.Tableau
