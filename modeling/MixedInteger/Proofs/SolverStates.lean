import MixedInteger.Proofs.Infinities
import MixedInteger.Proofs.NodeModels
import MixedInteger.Proofs.SimplexRun

/-!
# The states of a solver

A solver is solved, edited and solved again. It has a basis exactly if it was solved after the last
edit, the basis belongs to the model beside it, and all queries read that one basis.

* `Model.Shaped`, `Model.Tidy`: the parts of a model fit each other, and no range lies at infinity;
* `Tableau.Describes`: a tableau belongs to a model; `Simplex.describes_run`: a solve ends so;
* `Simplex.Call`, `Simplex.attempt`: what can be asked of a solver;
* `Simplex.Coherent`: the invariant; `Simplex.coherent_attempt`: calls keep it;
* `Simplex.varPlace?_eq_some`, `Simplex.tableauRow?_eq_some`: what the queries show.
-/

namespace MixedInteger

open Scalar

variable {α : Type} [Scalar α]

/-! ## Models -/

namespace Model

/-- The parts of the model have the sizes that the model goes by. -/
structure Shaped (m : Model α) : Prop where
  kinds : m.kinds.size = m.numCols
  colLower : m.colLower.size = m.numCols
  colUpper : m.colUpper.size = m.numCols
  rowUpper : m.rowUpper.size = m.numRows
  lines : m.matrix.lines.size = m.numRows

/-- The parts fit, and no range lies at infinity. -/
structure Tidy (m : Model α) : Prop extends m.Shaped where
  rows : ∀ i, ProperRange (m.rowRange i)
  columns : ∀ j, ProperRange (m.colRange j)

variable {m m' : Model α} {j : Nat} {terms : List (Term α)} {lower upper : α}

theorem shaped_new {objective : Array α} {kinds : Array Kind} (h : new? objective kinds = .ok m) :
    m.Shaped ∧ m.numRows = 0 := by
  unfold new? at h
  split at h
  · cases h
  · rename_i hsize
    cases hbad : badObjective? objective with
    | some j => simp [hbad] at h
    | none =>
      simp only [hbad, Except.ok.injEq] at h
      subst h
      have hkinds : kinds.size = objective.size := by omega
      refine ⟨⟨hkinds, by simp [numCols], by simpa [numCols] using hkinds, rfl, rfl⟩, rfl⟩

theorem Shaped.addRow (hm : m.Shaped) (h : m.addRow terms lower upper = .ok m') : m'.Shaped := by
  have hrows := numRows_addRow h
  obtain ⟨-, -, rfl⟩ := addRow_ok h
  constructor
  · exact hm.kinds
  · exact hm.colLower
  · exact hm.colUpper
  · simp [hrows, hm.rowUpper]
  · simp [hrows, hm.lines, Matrix.lines_appendLine]

theorem Shaped.setColBounds (hm : m.Shaped) (h : m.setColBounds j lower upper = .ok m') :
    m'.Shaped := by
  obtain ⟨-, -, -, rfl⟩ := setColBounds_ok h
  constructor
  · exact hm.kinds
  · exact Array.size_setIfInBounds.trans hm.colLower
  · exact Array.size_setIfInBounds.trans hm.colUpper
  · exact hm.rowUpper
  · exact hm.lines

theorem Built.shaped (h : m.Built) : m.Shaped := by
  induction h with
  | new h => exact (shaped_new h).1
  | addRow _ h ih => exact ih.addRow h
  | setColBounds _ h ih => exact ih.setColBounds h

theorem Tidy.varRange (hm : m.Tidy) (k : Nat) : ProperRange (m.varRange k) := by
  unfold Model.varRange
  split
  · exact hm.rows k
  · exact hm.columns _

variable [Extended α]

theorem properRange_whole : ProperRange ((negInf : α), (posInf : α)) :=
  ⟨Extended.negInf_lt_posInf, Extended.negInf_lt_posInf⟩

/-- A row that is accepted does not lie at infinity. -/
theorem properRange_addRow (hupper : m.rowUpper.size = m.numRows)
    (hrows : ∀ i, ProperRange (m.rowRange i)) (h : m.addRow terms lower upper = .ok m') (i : Nat) :
    ProperRange (m'.rowRange i) := by
  rw [rowRange_addRow hupper h]
  split
  · exact properRange_of_checkRange (addRow_ok h).2.1
  · exact hrows i

theorem Built.rows (h : m.Built) (i : Nat) : ProperRange (m.rowRange i) := by
  induction h generalizing i with
  | @new _ _ m h =>
    obtain ⟨hshaped, hrows⟩ := shaped_new h
    have hlower : m.rowLower.size = 0 := hrows
    have hupper : m.rowUpper.size = 0 := hshaped.rowUpper.trans hrows
    simpa [rowRange, hlower, hupper] using properRange_whole
  | addRow built h ih => exact properRange_addRow built.shaped.rowUpper ih h i
  | setColBounds _ h ih =>
    obtain ⟨-, -, -, rfl⟩ := setColBounds_ok h
    exact ih i

theorem Built.tidy (h : m.Built) (hcols : ∀ j < m.numCols, ProperRange (m.colRange j)) :
    m.Tidy where
  toShaped := h.shaped
  rows := h.rows
  columns j := by
    by_cases hj : j < m.numCols
    · exact hcols j hj
    · have hlower : m.colLower[j]? = none := by simp [h.shaped.colLower, Nat.le_of_not_lt hj]
      have hupper : m.colUpper[j]? = none := by simp [h.shaped.colUpper, Nat.le_of_not_lt hj]
      simpa [colRange, hlower, hupper] using properRange_whole

theorem Tidy.addRow (hm : m.Tidy) (h : m.addRow terms lower upper = .ok m') : m'.Tidy where
  toShaped := hm.toShaped.addRow h
  rows := properRange_addRow hm.rowUpper hm.rows h
  columns j := by
    obtain ⟨-, -, rfl⟩ := addRow_ok h
    exact hm.columns j

theorem Tidy.setColBounds (hm : m.Tidy) (hproper : ProperRange (lower, upper))
    (h : m.setColBounds j lower upper = .ok m') : m'.Tidy where
  toShaped := hm.toShaped.setColBounds h
  rows i := by
    obtain ⟨-, -, -, rfl⟩ := setColBounds_ok h
    exact hm.rows i
  columns k := by
    rw [colRange_setColBounds hm.colLower hm.colUpper h]
    split
    · exact hproper.clampRange _
    · exact hm.columns k

end Model

/-! ## Tableaux -/

namespace Tableau

omit [Scalar α] in
/-- A vector that is read off one array and then off another. -/
theorem toArray_eq_append {m n : Nat} {v : Vector α (m + n)} {xs ys : Array α} {x y : α}
    (hx : xs.size = m) (hy : ys.size = n)
    (h : ∀ k : Fin (m + n), v.get k = if k < m then xs[k.val]?.getD x else ys[k.val - m]?.getD y) :
    v.toArray = xs ++ ys := by
  apply Array.ext
  · simp [hx, hy]
  · intro k hk hk'
    have hlt : k < m + n := by simpa using hk
    have hget : v.toArray[k] = v.get ⟨k, hlt⟩ := rfl
    rw [hget, h, Array.getElem_append]
    subst hx hy
    by_cases hrow : k < xs.size
    · simp [hrow]
    · have hcol : k - xs.size < ys.size := by omega
      simp [hrow, hcol]

/-- The tableau has the ranges of the model, each of its rows has its own basic variable, and every
other variable rests where its range allows it to. -/
structure Describes (model : Model α) (t : Tableau α model.numRows model.numCols) : Prop where
  paired : t.Paired
  lower : ∀ k, t.lower.get k = (model.varRange k).1
  upper : ∀ k, t.upper.get k = (model.varRange k).2
  suits : ∀ k rest, t.place.get k = .nonbasic rest → rest.Suits (t.lower.get k) (t.upper.get k)

variable {model : Model α} {t : Tableau α model.numRows model.numCols}
  {q : Fin (model.numRows + model.numCols)} {rest : Resting}

/-- The lower ends of the ranges are those of the rows, then those of the columns. -/
theorem toArray_lower (hm : model.Shaped) (h : ∀ k, t.lower.get k = (model.varRange k).1) :
    t.lower.toArray = model.rowLower ++ model.colLower := by
  have hrows : model.rowLower.size = model.numRows := rfl
  apply toArray_eq_append hrows hm.colLower
  intro k
  rw [h, Model.varRange, apply_ite Prod.fst]
  rfl

theorem toArray_upper (hm : model.Shaped) (h : ∀ k, t.upper.get k = (model.varRange k).2) :
    t.upper.toArray = model.rowUpper ++ model.colUpper := by
  apply toArray_eq_append hm.rowUpper hm.colUpper
  intro k
  rw [h, Model.varRange, apply_ite Prod.snd]
  rfl

theorem describes_flip (ht : t.Describes) (hq : t.place.get q = .nonbasic rest) {target : Resting}
    (htarget : target.Suits (t.lower.get q) (t.upper.get q)) : (t.flip q target).Describes := by
  refine ⟨paired_flip ht.paired hq target, ht.lower, ht.upper, ?_⟩
  intro k rest' hk
  rw [place_flip] at hk
  split at hk
  · cases hk
    subst k
    exact htarget
  · exact ht.suits k rest' hk

theorem describes_pivot (ht : t.Describes) (hq : t.place.get q = .nonbasic rest) (dropTol : α)
    {p : Fin model.numRows} {leave : Resting}
    (hleave : leave.Suits (t.lower.get (t.head.get p)) (t.upper.get (t.head.get p))) :
    (t.pivot dropTol p q leave).Describes := by
  refine ⟨paired_pivot ht.paired hq dropTol p leave, ht.lower, ht.upper, ?_⟩
  intro k rest' hk
  rw [place_pivot] at hk
  split at hk
  · cases hk
  · split at hk
    · subst k
      cases hk
      change Resting.Suits (t.lower.get (t.head.get p)) (t.upper.get (t.head.get p)) _
      split
      · assumption
      · exact hleave
    · exact ht.suits k rest' hk

variable [Extended α]

theorem describes_slackBasis (hm : model.Tidy) : (slackBasis model).Describes := by
  refine ⟨paired_slackBasis model, ?_, ?_, ?_⟩
  · intro k
    simp only [slackBasis, get_ofFn]
  · intro k
    simp only [slackBasis, get_ofFn]
  · intro k rest hk
    simp only [slackBasis, get_ofFn] at hk ⊢
    split at hk
    · cases hk
    · cases hk
      exact (hm.varRange k).initial

/-- A step leads from a tableau of the model to a tableau of the model. A variable that leaves the
basis has a finite bound on the side where it stops, even if it was outside its range. -/
theorem describes_move (hm : model.Tidy) (ht : t.Describes) {s : SimplexSettings α}
    {x : Vector α (model.numRows + model.numCols)} {dir : Heading}
    (hq : t.place.get q = .nonbasic rest) {next : Tableau α model.numRows model.numCols}
    (h : t.move s x q dir = some next) : next.Describes := by
  have hrange (k : Fin (model.numRows + model.numCols)) :
      ProperRange (t.lower.get k, t.upper.get k) := by
    rw [ht.lower, ht.upper]
    exact hm.varRange k
  rcases move_cases h with ⟨hspan, rfl⟩ | ⟨r, b, hb, rfl⟩
  · obtain ⟨hupper, hlower⟩ := Extended.of_span hspan
    apply describes_flip ht hq
    cases dir with
    | up => exact hupper
    | down => exact hlower
  · obtain ⟨rfl, -, hleave⟩ := candidate_eq_some hb
    apply describes_pivot ht hq
    rcases hleave with ⟨hleave, hbelow | hfin⟩ | ⟨hleave, habove | hfin⟩
    · rw [hleave]
      exact (hrange _).isFinite_of_below (of_decide_eq_true hbelow)
    · rw [hleave]
      exact hfin
    · rw [hleave]
      exact (hrange _).isFinite_of_above (of_decide_eq_true habove)
    · rw [hleave]
      exact hfin

end Tableau

/-! ## Calls -/

namespace Simplex

/-- What can be asked of a solver. -/
inductive Call (α : Type) where
  | solve
  | setColBounds (j : Nat) (lower upper : α)
  | addRow (terms : List (Term α)) (lower upper : α)

/-- The call sets no bounds at infinity. Rows are checked when they are added. -/
def Call.Proper : Call α → Prop
  | .setColBounds _ lower upper => ProperRange (lower, upper)
  | .solve | .addRow .. => True

instance : (c : Call α) → Decidable c.Proper
  | .setColBounds _ lower upper => inferInstanceAs (Decidable (ProperRange (lower, upper)))
  | .solve | .addRow .. => instDecidableTrue

def attempt (s : Simplex α) : Call α → Except (ModelError α) (Simplex α)
  | .solve => .ok s.solve
  | .setColBounds j lower upper => s.setColBounds j lower upper
  | .addRow terms lower upper => do return (← s.addRow terms lower upper).2

/-- A call that succeeds solves the model, or replaces it by an edited one. -/
theorem attempt_ok {s s' : Simplex α} {c : Call α} (h : s.attempt c = .ok s') :
    (c = .solve ∧ s' = s.solve) ∨
    ∃ m, s' = s.withModel m ∧
      ((∃ j lower upper, c = .setColBounds j lower upper ∧
          s.model.setColBounds j lower upper = .ok m) ∨
        ∃ terms lower upper, c = .addRow terms lower upper ∧
          s.model.addRow terms lower upper = .ok m) := by
  cases c with
  | solve =>
    cases h
    exact .inl ⟨rfl, rfl⟩
  | setColBounds j lower upper =>
    obtain ⟨m, hm, hdone⟩ := exists_ok_of_bind h
    cases hdone
    exact .inr ⟨m, rfl, .inl ⟨j, lower, upper, rfl, hm⟩⟩
  | addRow terms lower upper =>
    obtain ⟨added, hadd, hdone⟩ := exists_ok_of_bind h
    cases hdone
    obtain ⟨m, hm, hadded⟩ := exists_ok_of_bind hadd
    cases hadded
    exact .inr ⟨m, rfl, .inr ⟨terms, lower, upper, rfl, hm⟩⟩

/-- Every run ends with a verdict. -/
theorem status_run_ne (s : Simplex α) : s.run.status ≠ .notSolved := by
  rcases run_cases s with ⟨-, hrun⟩ | ⟨-, hrun⟩
  · rw [hrun]
    nofun
  · obtain ⟨left, hstops⟩ := Tableau.iterate_stops (Tableau.slackBasis s.model) s.settings
      s.model.objective s.settings.maxPivots 0
    rw [hrun]
    intro hstatus
    rw [hstatus] at hstops
    exact hstops

/-- There is a basis exactly after a solve, and it belongs to the model. -/
structure Coherent (s : Simplex α) : Prop where
  tidy : s.model.Tidy
  solved : s.basis.isSome = true ↔ s.status ≠ .notSolved
  describes : ∀ b, s.basis = some b → b.tableau.Describes

theorem coherent_withModel (s : Simplex α) {m : Model α} (hm : m.Tidy) :
    (s.withModel m).Coherent where
  tidy := hm
  solved := by simp [withModel]
  describes := nofun

variable [Extended α] {s : Simplex α}

/-- A solve ends with a tableau of its model. -/
theorem describes_run (hm : s.model.Tidy) : s.run.tableau.Describes := by
  have hstart := Tableau.describes_slackBasis hm
  rcases run_cases s with ⟨-, hrun⟩ | ⟨-, hrun⟩
  · rw [hrun]
    exact hstart
  · rw [hrun]
    apply Tableau.iterate_invariant _ hstart
    intro t q dir next ht henter hmove
    obtain ⟨rest, hq⟩ := Tableau.entering_eq_some henter
    exact Tableau.describes_move hm ht hq hmove

theorem coherent_solve (hm : s.model.Tidy) : s.solve.Coherent where
  tidy := hm
  solved := iff_of_true rfl s.status_run_ne
  describes b hb := by
    cases hb
    exact describes_run hm

theorem coherent_attempt (hs : s.Coherent) {c : Call α} (hc : c.Proper) {s' : Simplex α}
    (h : s.attempt c = .ok s') : s'.Coherent := by
  rcases attempt_ok h with ⟨-, rfl⟩ | ⟨m, rfl, ⟨j, lower, upper, rfl, hm⟩ | ⟨_, _, _, rfl, hm⟩⟩
  · exact coherent_solve hs.tidy
  · exact coherent_withModel s (hs.tidy.setColBounds hc hm)
  · exact coherent_withModel s (hs.tidy.addRow hm)

end Simplex

/-! ## Queries -/

namespace Simplex
variable {s : Simplex α} {k : Nat}

theorem optimalBasis?_eq_some {b : Basis α s.model.numRows s.model.numCols} :
    s.optimalBasis? = some b ↔ s.status = .optimal ∧ s.basis = some b := by
  unfold optimalBasis?
  split <;> simp [*]

/-- Where a variable stands is read off the basis. -/
theorem varPlace?_eq_some {place : Place s.model.numRows} :
    s.varPlace? k = some place ↔ s.status = .optimal ∧ ∃ b, s.basis = some b ∧
      ∃ h : k < s.model.numRows + s.model.numCols, b.tableau.place.get ⟨k, h⟩ = place := by
  have hget (b : Basis α s.model.numRows s.model.numCols) : b.tableau.place[k]? = some place ↔
      ∃ h : k < s.model.numRows + s.model.numCols, b.tableau.place.get ⟨k, h⟩ = place :=
    Vector.getElem?_eq_some_iff
  simp only [varPlace?, Option.bind_eq_bind, Option.bind_eq_some_iff, optimalBasis?_eq_some, hget,
    and_assoc, exists_and_left]

theorem basisRow?_eq_some {r : Fin s.model.numRows} :
    s.basisRow? k = some r ↔ s.varPlace? k = some (.basic r) := by
  unfold basisRow?
  rw [Option.bind_eq_some_iff]
  constructor
  · rintro ⟨place, hplace, hr⟩
    cases place with
    | nonbasic rest => cases hr
    | basic r' =>
      cases hr
      exact hplace
  · intro h
    exact ⟨_, h, rfl⟩

/-- Exactly the basic variables have a tableau row. -/
theorem isSome_tableauRow? (s : Simplex α) (k : Nat) :
    (s.tableauRow? k).isSome = (s.basisRow? k).isSome := by
  unfold tableauRow? basisRow? varPlace?
  cases s.optimalBasis? with
  | none => rfl
  | some b =>
    simp only [Option.bind_eq_bind, Option.bind_some]
    cases b.tableau.place[k]? with
    | none => rfl
    | some place => cases place <;> rfl

/-- A tableau row lists resting variables in increasing order. -/
theorem tableauRow?_eq_some {row : List (Term α)} (h : s.tableauRow? k = some row) :
    (row.map Prod.fst).Pairwise (· < ·) ∧
      ∀ t ∈ row, ∃ rest, s.varPlace? t.1 = some (.nonbasic rest) := by
  obtain ⟨b, hb, h⟩ := Option.bind_eq_some_iff.mp h
  obtain ⟨place, -, h⟩ := Option.bind_eq_some_iff.mp h
  obtain ⟨r, -, h⟩ := Option.bind_eq_some_iff.mp h
  obtain rfl := Option.some.inj h
  constructor
  · rw [List.pairwise_map, List.pairwise_filterMap]
    refine (List.pairwise_lt_finRange _).imp ?_
    intro j j' hlt t ht t' ht'
    split at ht
    · cases ht
    · split at ht'
      · cases ht'
      · cases ht
        cases ht'
        exact hlt
  · intro t ht
    obtain ⟨j, -, hj⟩ := List.mem_filterMap.mp ht
    split at hj
    · cases hj
    · rename_i hrests
      cases hj
      obtain ⟨hopt, hbasis⟩ := optimalBasis?_eq_some.mp hb
      simp only [Bool.or_eq_true, not_or] at hrests
      cases hplace : b.tableau.place.get j with
      | basic r =>
        rw [hplace] at hrests
        exact absurd rfl hrests.1
      | nonbasic rest => exact ⟨rest, varPlace?_eq_some.mpr ⟨hopt, b, hbasis, j.isLt, hplace⟩⟩

theorem isBasic_eq (s : Simplex α) (j : Nat) :
    Relaxation.isBasic s j = (s.basisRow? (s.model.numRows + j)).isSome := by
  change ((s.varPlace? (s.model.numRows + j)).map Place.isBasic).getD false = _
  unfold basisRow?
  cases s.varPlace? (s.model.numRows + j) with
  | none => rfl
  | some place => cases place <;> rfl

theorem isSome_columnRow? (s : Simplex α) (j : Nat) :
    (Relaxation.tableauRow? s j).isSome = Relaxation.isBasic s j := by
  rw [isBasic_eq, ← isSome_tableauRow?]
  change (s.columnRow? j).isSome = _
  unfold columnRow?
  cases s.tableauRow? (s.model.numRows + j) <;> rfl

/-- After an optimal solve all variables have a place, and nothing else has one. -/
theorem Coherent.isSome_varPlace? (hs : s.Coherent) (k : Nat) :
    (s.varPlace? k).isSome = true ↔ s.status = .optimal ∧ k < s.numVars := by
  rw [Option.isSome_iff_exists]
  constructor
  · rintro ⟨place, hplace⟩
    obtain ⟨hopt, b, -, hk, -⟩ := varPlace?_eq_some.mp hplace
    exact ⟨hopt, hk⟩
  · rintro ⟨hopt, hk⟩
    obtain ⟨b, hb⟩ := Option.isSome_iff_exists.mp (hs.solved.mpr (by rw [hopt]; nofun))
    exact ⟨_, varPlace?_eq_some.mpr ⟨hopt, b, hb, hk, rfl⟩⟩

/-- The variable that a row is shown for is the basic variable of the row. -/
theorem Coherent.basisRow?_eq_some_iff (hs : s.Coherent) {k : Nat} {r : Fin s.model.numRows} :
    s.basisRow? k = some r ↔
      s.status = .optimal ∧ ∃ b, s.basis = some b ∧ (b.tableau.head.get r).val = k := by
  rw [basisRow?_eq_some, varPlace?_eq_some]
  apply and_congr_right
  intro _
  apply exists_congr
  intro b
  apply and_congr_right
  intro hb
  have hpaired := (hs.describes b hb).paired
  constructor
  · rintro ⟨hk, hplace⟩
    exact congrArg Fin.val (hpaired.head_place _ _ hplace)
  · rintro rfl
    exact ⟨_, hpaired.place_head r⟩

end Simplex

end MixedInteger
