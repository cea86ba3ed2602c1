import MixedInteger.Proofs.CutValidity

/-!
# Generated cuts separate the vertex

At the point where every variable of a tableau row rests, the parts that the entries add to a cut
cancel: each shifts the right side by what its coefficient makes of the bound. What is left is the
fractional part of the basic value, so that the point is cut off by just that, up to the terms that
are too small to be kept.

* `TableauRow.Rational`, `TableauRow.RestsAt`: the rows and points this is said of;
* `contribution_shift`: what one entry adds on both sides;
* `collect_rest`: a whole row leaves the gap of the draft as it was;
* `generate_separates`: how far the vertex falls short of the cut.
-/

namespace MixedInteger

open Exact hiding isFinite isNaN
open Scalar (isFinite isNaN)

section Vertices

variable {R : Type} [Relaxation R Exact]

/-- The numbers of the row are rational, and its variables exist. Of the bounds nothing is asked. -/
structure TableauRow.Rational (oracle : R) (row : TableauRow Exact) : Prop where
  basicValue : isFinite row.basicValue = true
  coefficient : ∀ e ∈ row.entries, isFinite e.coefficient = true
  inRange : ∀ e ∈ row.entries, e.var.InRange oracle

/-- A rational point at which every variable of the row has the value that it rests at. -/
structure TableauRow.RestsAt (oracle : R) (row : TableauRow Exact) (x : Point Exact) : Prop where
  isRational : x.IsRational
  size : Relaxation.numVariables oracle ≤ x.size
  rests : ∀ e ∈ row.entries, e.var.valueAt oracle x = e.activeBound

end Vertices

/-! ## Forms at the opposite point -/

theorem weighted_neg (v : Point Exact) (y : Nat → ℚ) :
    weighted v (fun j => -y j) = -weighted v y := by
  simp [weighted]

theorem Sparse.value_neg (ts : List (Term Exact)) (y : Nat → ℚ) :
    value ts (fun j => -y j) = -value ts y := by
  induction ts with
  | nil => simp
  | cons t rest ih =>
    rw [value_cons, value_cons, ih]
    ring

namespace Gomory

/-! ## Entries at rest -/

/-- The right side moves by what the coefficient makes of the bound that the variable rests at. -/
theorem contribution_shift {s : GomorySettings Exact} {f₀ : Exact} {e : TableauEntry Exact}
    {a shift : Exact} (h : contribution s f₀ e = .add a shift) : shift = a * e.activeBound := by
  unfold contribution at h
  dsimp only at h
  split at h
  · cases h
  · split at h
    · cases h
    · cases hrest : e.rest with
      | fixed | free =>
        rw [hrest] at h
        cases h
      | atLower =>
        rw [hrest] at h
        dsimp only at h
        split at h
        · cases h
        · cases h
          simp [TableauEntry.activeBound, hrest, Resting.value]
      | atUpper =>
        rw [hrest] at h
        dsimp only at h
        split at h
        · cases h
        · cases h
          simp [TableauEntry.activeBound, hrest, Resting.value]

section Rest

variable {R : Type} [Relaxation R Exact] {oracle : R}

/-- An entry that is at rest adds as much to the left of the draft as to the right, so collecting
leaves the gap. The induction carries along that the draft stays rational. -/
theorem collect_rest {s : GomorySettings Exact} {f₀ z : ℚ} (h₀ : 0 ≤ f₀) (h₁ : f₀ < 1)
    (hz : s.zeroTol = .fin z) {y : Nat → ℚ} {es : List (TableauEntry Exact)}
    (hcoefficient : ∀ e ∈ es, isFinite e.coefficient = true)
    (hrange : ∀ e ∈ es, e.var.InRange oracle)
    (hrests : ∀ e ∈ es, e.activeBound = .fin (varValue oracle y e.var))
    {d d' : Draft Exact} (hd : d.Fits oracle)
    (h : Draft.collect s (.fin f₀) d es = some d') :
    d'.Fits oracle ∧ d'.gap oracle y = d.gap oracle y := by
  induction es generalizing d with
  | nil =>
    obtain rfl : d = d' := by simpa [Draft.collect] using h
    exact ⟨hd, rfl⟩
  | cons e rest ih =>
    obtain ⟨hxi, hcoefficient⟩ := List.forall_mem_cons.mp hcoefficient
    obtain ⟨hvar, hrange⟩ := List.forall_mem_cons.mp hrange
    obtain ⟨hbound, hrests⟩ := List.forall_mem_cons.mp hrests
    unfold Draft.collect at h
    cases hc : contribution s (.fin f₀) e with
    | reject =>
      rw [hc] at h
      cases h
    | skip =>
      rw [hc] at h
      exact ih hcoefficient hrange hrests hd h
    | add a shift =>
      have hacc := accounts_contribution h₀ h₁ hz (eq_fin hxi) hbound (inside_self _ _)
        (fun _ _ => ⟨0, by simp⟩)
      rw [hc] at h hacc
      obtain ⟨p, q, -, rfl, rfl, -⟩ := hacc
      have hshift : q = p * varValue oracle y e.var := by
        have hq := contribution_shift hc
        rwa [hbound, fin_mul, Exact.fin.injEq] at hq
      obtain ⟨hd₁, hgap₁⟩ := addVar_spec hd hvar p q
      obtain ⟨hd', hgap⟩ := ih hcoefficient hrange hrests hd₁ h
      refine ⟨hd', hgap.trans ?_⟩
      have hstep := hgap₁ y
      rw [hshift, sub_self] at hstep
      rw [hshift]
      exact (sub_eq_zero.mp hstep).symm

/-- Leaving out small terms changes the value by at most the tolerance times the size of the point,
in either direction. -/
theorem abs_significantTerms {v : Point Exact} (hv : v.IsRational) {z : ℚ} (hz₀ : 0 ≤ z)
    (y : Nat → ℚ) :
    |weighted v y - Sparse.value (significantTerms (.fin z) v) y|
      ≤ z * ((List.range v.size).map fun j => |y j|).sum := by
  have hbelow := value_significantTerms hv hz₀ y
  have habove := value_significantTerms hv hz₀ fun j => -y j
  simp only [weighted_neg, Sparse.value_neg, abs_neg] at habove
  rw [abs_le]
  constructor <;> linarith

end Rest

/-! ## The generated cut -/

section Generate

variable {R : Type} [Relaxation R Exact] {oracle : R} {g : Gomory Exact} {row : TableauRow Exact}
  {column node : Nat} {cut : Cut Exact} {x : Point Exact}

/-- Only rows whose basic value is far enough from the integers give cuts. -/
theorem isCuttable_of_generate (hrow : Relaxation.tableauRow? oracle column = some row)
    (h : (g.generate oracle column node).1 = some cut) :
    isCuttable g.settings (fractionalPart row.basicValue) = true := by
  unfold generate at h
  cases hsource : sourceRow? oracle column with
  | none => simp [hsource] at h
  | some found =>
    have hfound : row = found := by
      unfold sourceRow? at hsource
      split at hsource
      · exact Option.some.inj (hrow.symm.trans hsource)
      · cases hsource
    subst hfound
    rw [hsource] at h
    dsimp only at h
    split at h
    · cases h
    · rename_i hcuttable
      simpa using hcuttable

/-- A fraction that may be cut is positive if the settings ask for a positive one. -/
theorem pos_of_isCuttable {s : GomorySettings Exact} {f₀ : ℚ}
    (h : isCuttable s (.fin f₀) = true) (hmin : 0 < s.minFraction) : 0 < f₀ := by
  have hlow : ¬ Exact.fin f₀ < s.minFraction := by
    simp only [isCuttable, Bool.not_eq_true', Bool.or_eq_false_iff, decide_eq_false_iff_not] at h
    exact h.1
  cases hs : s.minFraction with
  | undefined | negInf =>
    rw [hs] at hmin
    cases hmin
  | posInf =>
    rw [hs] at hlow
    exact absurd rfl hlow
  | fin q =>
    rw [hs, zero_eq, fin_lt] at hmin
    rw [hs, fin_lt, not_lt] at hlow
    exact hmin.trans_le hlow

/-- A cut removes the point at which the entries of its row rest: that point falls short of it by
the fractional part of the basic value, up to the tolerance times the size of the point. With
tolerance zero it is just the fractional part, which is positive if fractions have to be. -/
theorem generate_separates {z : ℚ} (hz : g.settings.zeroTol = .fin z) (hz₀ : 0 ≤ z)
    (hrows : RowsInRange oracle) (hrow : Relaxation.tableauRow? oracle column = some row)
    (hrational : row.Rational oracle) (h : (g.generate oracle column node).1 = some cut)
    (hx : row.RestsAt oracle x) :
    ∃ v, cut.violation? x = some v ∧
      Scalar.abs (v - fractionalPart row.basicValue) ≤ g.settings.zeroTol *
        Scalar.sum ((List.range (Relaxation.numVariables oracle)).map fun j =>
          Scalar.abs (x.coord j)) ∧
      (z = 0 → v = fractionalPart row.basicValue ∧ (0 < g.settings.minFraction → 0 < v)) := by
  obtain ⟨row', d, hrow', -, hcollect, hcut⟩ := generate_eq_some h
  obtain rfl : row = row' := Option.some.inj (hrow.symm.trans hrow')
  have hcuttable := isCuttable_of_generate hrow h
  obtain ⟨beta, hbeta⟩ := isFinite_iff.mp hrational.basicValue
  rw [hbeta, fractionalPart_fin] at hcollect hcuttable ⊢
  obtain ⟨hd, hgap⟩ := collect_rest (Int.fract_nonneg _) (Int.fract_lt_one _) hz
    hrational.coefficient hrational.inRange (fun e he => (hx.rests e he).symm.trans
      (valueAt_eq hrows hx.isRational (hrational.inRange e he))) (fits_start _) hcollect
  obtain ⟨hw, hsize, hvalue⟩ := substitute_spec hrows hd
  rw [gap_start, hvalue] at hgap
  have hcoords : Scalar.sum ((List.range (Relaxation.numVariables oracle)).map fun j =>
      Scalar.abs (x.coord j))
      = .fin ((List.range (Relaxation.numVariables oracle)).map fun j => |x.rat j|).sum := by
    refine sum_eq fun j _ => ?_
    rw [x.coord_eq hx.isRational, abs_fin]
  -- The violation differs from the gap of the draft, which is `f₀`, by the terms left out.
  have hclose := abs_significantTerms hw hz₀ x.rat
  rw [hsize] at hclose
  set kept := Sparse.value (significantTerms (.fin z) (d.substitute oracle)) x.rat with hkept
  have hdiff : d.rhs.toRat - kept - Int.fract beta
      = weighted (d.substitute oracle) x.rat - kept := by
    rw [← hgap]
    ring
  rw [← hdiff] at hclose
  refine ⟨_, violation?_eq hrows hd hx.isRational hx.size hcut, ?_, ?_⟩
  · rw [hz, hcoords, fin_sub, abs_fin, fin_mul, fin_le]
    exact hclose
  · rintro rfl
    rw [zero_mul, abs_nonpos_iff, sub_eq_zero] at hclose
    rw [hz, ← hkept, hclose]
    refine ⟨rfl, fun hmin => ?_⟩
    exact fin_lt.mpr (pos_of_isCuttable hcuttable hmin)

theorem rational_pairRow : pairRow.Rational pairOracle where
  basicValue := rfl
  coefficient := by
    simp only [pairRow, List.forall_mem_cons, List.not_mem_nil, false_implies, implies_true,
      and_true]
    exact ⟨rfl, rfl⟩
  inRange := by
    simp only [pairRow, List.forall_mem_cons, List.not_mem_nil, false_implies, implies_true,
      and_true]
    exact ⟨Nat.zero_lt_one, Nat.one_lt_two⟩

theorem restsAt_pairRow : pairRow.RestsAt pairOracle #[.fin (5 / 2), 0] where
  isRational := Point.isRational_of_lt (by decide)
  size := by decide
  rests := by
    simp only [pairRow, List.forall_mem_cons, List.not_mem_nil, false_implies, implies_true,
      and_true]
    decide +kernel

/-- The cut from the row of `x₀ = 5/2` removes that point by one half. -/
theorem generate_separates_pairOracle : ∃ cut,
    ((Gomory.new ⟨.fin (1 / 10), 0, .fin 10⟩).generate pairOracle 0 0).1 = some cut ∧
    cut.violation? #[.fin (5 / 2), 0] = some (fractionalPart (.fin (5 / 2))) ∧
    0 < fractionalPart (Exact.fin (5 / 2)) := by
  obtain ⟨cut, hcut⟩ := Option.isSome_iff_exists.mp
    (show ((Gomory.new ⟨.fin (1 / 10), 0, .fin 10⟩).generate pairOracle 0 0).1.isSome = true by
      decide +kernel)
  obtain ⟨v, hv, -, hexact⟩ := generate_separates (z := 0) rfl le_rfl rowsInRange_pairOracle rfl
    rational_pairRow hcut restsAt_pairRow
  obtain ⟨heq, hpos⟩ := hexact rfl
  have hpos := hpos (by decide +kernel)
  rw [heq] at hv hpos
  exact ⟨cut, hcut, hv, hpos⟩

end Generate

end Gomory

end MixedInteger
