import MixedInteger.Proofs.SimplexOptimality

/-!
# Tableau rows as identities

Pivots and flips may be made in any order and number: the equations of the tableau stay those that
define the rows of the model. A row of the tableau is therefore true of every point, feasible or
not, and not only of the point at which a solve ends.

* `Tableau.Reached`: the tableaux that pivots and flips lead to;
* `Tableau.Encodes`, `Tableau.Reached.encodes`: what they have in common with the first one;
* `Simplex.reached_run`: a solve comes to no other tableaux;
* `Simplex.tableau_rows_identities`: what tableaux say, and the rows that a solve shows.
-/

namespace MixedInteger

open Exact hiding isFinite isNaN
open Scalar (isFinite isNaN)

namespace Tableau

/-- Tableaux that arise from the first one by letting resting variables rest elsewhere and by
pivots on entries other than zero in their columns, nothing being dropped. -/
inductive Reached (model : Model Exact) : Tableau Exact model.numRows model.numCols → Prop where
  | start : Reached model (slackBasis model)
  | flip {t : Tableau Exact model.numRows model.numCols}
      {q : Fin (model.numRows + model.numCols)} {rest : Resting} (reached : Reached model t)
      (hq : t.place.get q = .nonbasic rest) (target : Resting) : Reached model (t.flip q target)
  | pivot {t : Tableau Exact model.numRows model.numCols} {p : Fin model.numRows}
      {q : Fin (model.numRows + model.numCols)} {rest : Resting} (reached : Reached model t)
      (hq : t.place.get q = .nonbasic rest) (hpq : t.coef p q ≠ 0) (leave : Resting) :
      Reached model (t.pivot 0 p q leave)

variable {model : Model Exact} {t : Tableau Exact model.numRows model.numCols}

/-- The tableau has the solutions and the ranges of the first one, in canonical form. -/
structure Encodes (model : Model Exact) (t : Tableau Exact model.numRows model.numCols) :
    Prop where
  canonical : t.Canonical
  solves : ∀ z, t.Solves z ↔ (slackBasis model).Solves z
  lower : ∀ k, t.lower.get k = (model.varRange k).1
  upper : ∀ k, t.upper.get k = (model.varRange k).2

theorem Reached.encodes (wf : model.WellFormed) (h : Reached model t) : t.Encodes model := by
  induction h with
  | start =>
    refine ⟨canonical_slackBasis wf, fun _ => Iff.rfl, ?_, ?_⟩
    · intro k
      simp only [slackBasis, get_ofFn]
    · intro k
      simp only [slackBasis, get_ofFn]
  | flip _ hq target ih =>
    exact ⟨canonical_flip ih.canonical hq target, ih.solves, ih.lower, ih.upper⟩
  | @pivot t p q rest _ hq hpq leave ih =>
    have hrat : t.rat p q ≠ 0 := by
      intro hzero
      apply hpq
      rw [coef_eq ih.canonical, hzero]
      rfl
    refine ⟨canonical_pivot ih.canonical hrat hq leave, fun z => ?_, ih.lower, ih.upper⟩
    exact (solves_pivot ih.canonical hrat leave z).trans (ih.solves z)

/-- A step leads from a reached tableau to a reached one. -/
theorem Reached.move {s : SimplexSettings Exact} (hdrop : s.dropTol = 0) (hpivot : 0 ≤ s.tolPivot)
    (wf : model.WellFormed) (h : Reached model t) {q : Fin (model.numRows + model.numCols)}
    {dir : Heading} {rest : Resting} (hq : t.place.get q = .nonbasic rest)
    {next : Tableau Exact model.numRows model.numCols}
    (hmove : t.move s t.values q dir = some next) : Reached model next := by
  rcases move_cases hmove with ⟨-, rfl⟩ | ⟨r, b, hb, rfl⟩
  · exact h.flip hq dir.target
  · obtain ⟨rfl, hentry, -⟩ := candidate_eq_some hb
    have hcanonical := (h.encodes wf).canonical
    have hrat := rat_ne_zero hcanonical hpivot hentry
    have hcoef : t.coef b.row q ≠ 0 := by
      rw [coef_eq hcanonical]
      simpa using hrat
    rw [hdrop]
    exact h.pivot hq hcoef b.leave

/-- The terms of a tableau row: the resting variables that occur, with their rates. -/
def rowTerms (t : Tableau Exact model.numRows model.numCols) (r : Fin model.numRows) :
    List (Term Exact) :=
  (List.finRange (model.numRows + model.numCols)).filterMap fun j =>
    if (t.place.get j).isBasic || t.rate r j == 0 then none else some (j.val, t.rate r j)

theorem mem_rowTerms (ht : t.Canonical) {r : Fin model.numRows} {e : Term Exact}
    (he : e ∈ t.rowTerms r) :
    e.1 < model.numRows + model.numCols ∧ isFinite e.2 = true := by
  obtain ⟨j, -, hj⟩ := List.mem_filterMap.mp he
  split at hj
  · cases hj
  · cases hj
    refine ⟨j.isLt, ?_⟩
    rw [rate, coef_eq ht]
    rfl

/-- At a solution the terms of a row add up to its basic variable. -/
theorem value_rowTerms (ht : t.Canonical) {y : Nat → ℚ} (hy : t.Solves fun k => y k)
    (r : Fin model.numRows) : Sparse.value (t.rowTerms r) y = y (t.head.get r) := by
  have hterms (l : List (Fin (model.numRows + model.numCols))) :
      Sparse.value (l.filterMap fun j => if (t.place.get j).isBasic || t.rate r j == 0 then none
        else some (j.val, t.rate r j)) y
      = (l.map fun j => -if (t.place.get j).isBasic then 0 else t.rat r j * y j).sum := by
    induction l with
    | nil => rfl
    | cons j rest ih =>
      have hrate : t.rate r j = .fin (-t.rat r j) := by
        rw [rate, coef_eq ht, neg_fin]
      rw [List.filterMap_cons, List.map_cons, List.sum_cons, ← ih]
      cases hbasic : (t.place.get j).isBasic with
      | true => simp
      | false =>
        by_cases hzero : t.rat r j = 0
        · simp [hrate, hzero]
        · simp [hrate, hzero]
  rw [rowTerms, hterms, ← Fin.sum_univ_def, (solves_iff ht).mp hy r, restingSum,
    Finset.sum_neg_distrib]

end Tableau

namespace Simplex

/-- A solve that drops nothing comes to reached tableaux only. -/
theorem reached_run (s : Simplex Exact) (wf : s.model.WellFormed) (hdrop : s.settings.dropTol = 0)
    (hpivot : 0 ≤ s.settings.tolPivot) : Tableau.Reached s.model s.run.tableau := by
  unfold run
  dsimp only
  split
  · exact .start
  · refine Tableau.iterate_invariant ?_ .start
    intro t q dir next ht henter hmove
    obtain ⟨rest, hq⟩ := Tableau.entering_eq_some henter
    exact ht.move hdrop hpivot wf hq hmove

/-- The row that an optimal solve shows for a basic variable. -/
theorem tableauRow?_solve {s : Simplex Exact} (hopt : s.solve.status = .optimal) {k : Nat}
    {r : Fin s.model.numRows} (hk : s.solve.varPlace? k = some (.basic r)) :
    s.solve.tableauRow? k = some (s.run.tableau.rowTerms r) := by
  have hbasis : s.solve.optimalBasis? = some (Basis.ofTableau s.run.tableau) := if_pos hopt
  rw [varPlace?_eq_lastPlace? hopt, lastPlace?_solve] at hk
  unfold tableauRow?
  rw [hbasis]
  change (s.run.tableau.place[k]?.bind fun p => p.row?.bind fun r => _) = _
  rw [hk]
  rfl

/-- A row that is shown holds at every rational point. -/
theorem varAt_eq_sum {s : Simplex Exact} (wf : s.model.WellFormed)
    (hrun : s.run.tableau.Encodes s.model) (hopt : s.solve.status = .optimal) {k : Nat}
    {r : Fin s.model.numRows} (hk : s.solve.varPlace? k = some (.basic r)) {x : Point Exact}
    (hx : x.IsRational) : s.model.varAt x k
      = Scalar.sum ((s.run.tableau.rowTerms r).map fun e => e.2 * s.model.varAt x e.1) := by
  have hvar (j : Nat) (hj : j < s.model.numRows + s.model.numCols) :
      s.model.varAt x j = .fin (s.model.varAt x j).toRat :=
    Model.varAt_eq wf hx ⟨j, hj⟩
  rw [varPlace?_eq_lastPlace? hopt, lastPlace?_solve] at hk
  obtain ⟨hlt, hplace⟩ := Vector.getElem?_eq_some_iff.mp hk
  have hhead : s.run.tableau.head.get r = ⟨k, hlt⟩ :=
    hrun.canonical.head_place ⟨k, hlt⟩ r hplace
  have hsolves : s.run.tableau.Solves fun j => (s.model.varAt x j).toRat :=
    (hrun.solves _).mpr (Model.solves_spread wf hx)
  have hvalue := Tableau.value_rowTerms hrun.canonical
    (y := fun j => (s.model.varAt x j).toRat) hsolves r
  rw [hhead] at hvalue
  rw [hvar k hlt, ← hvalue, sum_eq]
  · rfl
  · intro e he
    obtain ⟨hcol, hfin⟩ := Tableau.mem_rowTerms hrun.canonical he
    rw [eq_fin hfin, hvar e.1 hcol]
    rfl

/-- Tableaux encode the rows of the model and nothing else. However a tableau is reached, its basic
variables have unit columns, its equations define every row variable by its row, and where all
variables rest at rational bounds its point satisfies these equations. The row that an optimal solve
shows for a basic variable is therefore an identity: it holds at every point. -/
theorem tableau_rows_identities (s : Simplex Exact) (built : s.model.Built) :
    (∀ t, Tableau.Reached s.model t →
      (∀ r k, isFinite (t.coef r k) = true) ∧
      (∀ r r', t.coef r' (t.head.get r) = if r' = r then 1 else 0) ∧
      (∀ z, t.Solves z ↔ ∀ i : Fin s.model.numRows,
        z (i.castAdd s.model.numCols) = Sparse.value (s.model.line i) (Tableau.columnPart z)) ∧
      (t.RestsFinite → t.Solves t.point ∧ (∀ k, t.values.get k = .fin (t.point k)) ∧
        ∀ k rest, t.place.get k = .nonbasic rest →
          t.values.get k = rest.value (s.model.varRange k).1 (s.model.varRange k).2)) ∧
    (s.settings.dropTol = 0 → 0 ≤ s.settings.tolPivot →
      Tableau.Reached s.model s.run.tableau) ∧
    (Tableau.Reached s.model s.run.tableau → s.solve.status = .optimal →
      ∀ k r, s.solve.varPlace? k = some (.basic r) →
        ∃ terms, s.solve.tableauRow? k = some terms ∧ ∀ x : Point Exact, x.IsRational →
          s.model.varAt x k = Scalar.sum (terms.map fun e => e.2 * s.model.varAt x e.1)) := by
  have wf := built.wellFormed
  refine ⟨fun t ht => ?_, reached_run s wf, fun hrun hopt k r hk => ?_⟩
  · have henc := ht.encodes wf
    refine ⟨henc.canonical.finite, fun r r' => ?_, fun z => ?_, fun hrest => ?_⟩
    · rw [Tableau.coef_eq henc.canonical, henc.canonical.unit]
      split <;> rfl
    · rw [henc.solves, Tableau.solves_slackBasis wf]
    · refine ⟨Tableau.solves_point henc.canonical hrest,
        Tableau.values_eq henc.canonical hrest, fun k rest hk => ?_⟩
      rw [Tableau.point_resting t hk, henc.lower, henc.upper]
  · exact ⟨_, tableauRow?_solve hopt hk, fun x hx =>
      varAt_eq_sum wf (hrun.encodes wf) hopt hk hx⟩

/-- At the corner `x₀ = -1/5 r₀ + 2/5 r₁`, where `r₀` and `r₁` are the values of the two rows. -/
theorem tableau_rows_identities_corner :
    corner.solve.tableauRow? 2 = some [(0, .fin (-1 / 5)), (1, .fin (2 / 5))] ∧
    ∀ x : Point Exact, x.IsRational → corner.model.varAt x 2
      = Scalar.sum ([(0, .fin (-1 / 5)), (1, .fin (2 / 5))].map fun e : Term Exact =>
          e.2 * corner.model.varAt x e.1) := by
  have hrow : corner.solve.tableauRow? 2 = some [(0, .fin (-1 / 5)), (1, .fin (2 / 5))] := by
    decide +kernel
  obtain ⟨-, hreach, hshown⟩ := tableau_rows_identities corner built_corner
  have hplace : corner.solve.varPlace? 2 = some (.basic ⟨1, by decide⟩) := by decide +kernel
  obtain ⟨terms, hterms, hx⟩ := hshown (hreach rfl (by decide)) (by decide +kernel) 2 _ hplace
  rw [hrow, Option.some.injEq] at hterms
  exact ⟨hrow, hterms ▸ hx⟩

end Simplex

end MixedInteger
