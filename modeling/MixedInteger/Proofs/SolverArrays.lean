import MixedInteger.Proofs.SolverStates
import MixedInteger.Proofs.TableauArrays

/-!
# Solvers in memory

A solver in memory is solved and edited write by write, and edits may fail on the way. From a solver
whose basis fits its model every call ends at such a solver again, so the arrays of every reachable
solver agree with each other and with the model beside them.

* `Simplex.run_change`: a call in memory ends where it leads, and a failure leaves nothing behind;
* `Solver.Coherent`: the invariant; `Solver.coherent_performAll`: it holds after any calls;
* `ArrayTableau.Fits`: what a tableau has to do with a model;
* `Solver.QueriesAgree`: what the queries have to do with each other;
* `Solver.performAll_consistent`: what every reachable solver shows.
-/

namespace MixedInteger

open Scalar

variable {α β : Type} [Scalar α]

/-! ## Solving -/

namespace Tableau

/-- The first tableau is written out of the arrays of the model. -/
theorem slackBasis_arrays {model : Model α} (hm : model.Shaped) :
    ArrayTableau.slackBasis model
      = (slackBasis model).arrays (slackBasis model).values := by
  have hlower : (slackBasis model).lower.toArray = model.rowLower ++ model.colLower :=
    toArray_lower hm fun k => get_ofFn _ k
  have hupper : (slackBasis model).upper.toArray = model.rowUpper ++ model.colUpper :=
    toArray_upper hm fun k => get_ofFn _ k
  rw [← updateValues_arrays (paired_slackBasis model) (x := Vector.replicate _ 0)]
  unfold ArrayTableau.slackBasis
  dsimp only
  congr 1
  apply ArrayTableau.ext
  case entry =>
    apply eq_map_toArray (by simp)
    intro r
    rw [Array.getElem?_ofFn, dif_pos r.isLt, slackBasis, get_ofFn, Vector.toArray_ofFn]
  case head =>
    apply eq_map_toArray Array.size_range
    intro r
    rw [Array.getElem?_range, if_pos r.isLt, slackBasis, get_ofFn]
    rfl
  case status =>
    apply eq_map_toArray Array.size_ofFn
    intro k
    rw [Array.getElem?_ofFn, dif_pos k.isLt, ← hlower, ← hupper, getElem?_toArray, getElem?_toArray]
    simp only [slackBasis, get_ofFn]
    split <;> rfl
  case lower => exact hlower.symm
  case upper => exact hupper.symm
  case value => rfl
  case rowOf =>
    apply eq_map_toArray Array.size_ofFn
    intro k
    rw [Array.getElem?_ofFn, dif_pos k.isLt, slackBasis, get_ofFn]
    split <;> rfl

theorem paired_iterate {m n : Nat} {t : Tableau α m n} (ht : t.Paired) (s : SimplexSettings α)
    (objective : Array α) (remaining done : Nat) :
    (t.iterate s objective remaining done).tableau.Paired := by
  apply iterate_invariant _ ht
  intro t q dir next ht henter hmove
  obtain ⟨rest, hq⟩ := entering_eq_some henter
  exact paired_move ht hq hmove

end Tableau

namespace Simplex

variable {s : Simplex α}

theorem paired_run (s : Simplex α) : s.run.tableau.Paired := by
  have hstart := Tableau.paired_slackBasis s.model
  rcases run_cases s with ⟨-, hrun⟩ | ⟨-, hrun⟩
  · rw [hrun]
    exact hstart
  · rw [hrun]
    exact Tableau.paired_iterate hstart _ _ _ _

theorem run_toSolver (hm : s.model.Shaped) :
    s.toSolver.run (ArrayTableau.slackBasis s.model) = s.run.arrays := by
  unfold Solver.run
  rw [Tableau.slackBasis_arrays hm, Tableau.hasEmptyRange_arrays]
  rcases run_cases s with ⟨hempty, hrun⟩ | ⟨hempty, hrun⟩
  · rw [hrun]
    exact if_pos hempty
  · rw [hrun, ← Tableau.iterate_arrays (Tableau.paired_slackBasis s.model)]
    exact if_neg (Bool.eq_false_iff.mp hempty)

/-- A solve in memory ends where the solve leads. -/
theorem run_solve_toSolver (hm : s.model.Shaped) :
    Solver.solve.run s.toSolver = .ok s.run.status s.solve.toSolver := by
  have hvalues := Tableau.updateValues_arrays (x := s.run.tableau.values) s.paired_run
  let ended := s.toSolver.run (ArrayTableau.slackBasis s.model)
  have hended : ended = s.run.arrays := run_toSolver hm
  change EStateM.Result.ok ended.status (⟨s.model, s.settings, some ended.tableau.updateValues,
    ended.status, ended.pivots⟩ : Solver α) = _
  rw [hended]
  dsimp only [Tableau.Run.arrays]
  rw [hvalues]
  rfl

/-- Puts a changed model in place. -/
theorem run_edit_toSolver (s : Simplex α) (step : Model α → Except (ModelError α) (Model α))
    (answer : Model α → β) : (Solver.edit (Change.atomic step answer)).run s.toSolver =
      match step s.model with
      | .ok m => .ok (answer m) (s.withModel m).toSolver
      | .error e => .error e s.toSolver := by
  unfold Solver.edit
  rw [EStateM.run_bind, Change.run_onPart, Change.run_atomic]
  dsimp only [toSolver]
  cases step s.model with
  | ok m => rfl
  | error e => rfl

theorem run_setColBounds_toSolver (s : Simplex α) (j : Nat) (lower upper : α) :
    (Solver.setColBounds j lower upper).run s.toSolver =
      match s.setColBounds j lower upper with
      | .ok s' => .ok () s'.toSolver
      | .error e => .error e s.toSolver := by
  unfold Solver.setColBounds setColBounds
  rw [Model.setColBoundsInPlace_eq, run_edit_toSolver]
  cases s.model.setColBounds j lower upper with
  | ok m => rfl
  | error e => rfl

theorem run_addRow_toSolver (s : Simplex α) (terms : List (Term α)) (lower upper : α) :
    (Solver.addRow terms lower upper).run s.toSolver =
      match s.addRow terms lower upper with
      | .ok added => .ok added.1 added.2.toSolver
      | .error e => .error e s.toSolver := by
  unfold Solver.addRow addRow
  rw [Model.addRowInPlace_eq, run_edit_toSolver]
  cases s.model.addRow terms lower upper with
  | ok m => rfl
  | error e => rfl

/-! ## Calls -/

/-- The writes of a call. -/
def Call.change : Call α → Change (ModelError α) (Solver α) Unit
  | .solve => (fun _ => ()) <$> Solver.solve
  | .setColBounds j lower upper => Solver.setColBounds j lower upper
  | .addRow terms lower upper => (fun _ => ()) <$> Solver.addRow terms lower upper

/-- A call in memory ends where it leads, and one that fails leaves nothing behind. -/
theorem run_change (hm : s.model.Shaped) (c : Call α) : c.change.run s.toSolver =
    match s.attempt c with
    | .ok s' => .ok () s'.toSolver
    | .error e => .error e s.toSolver := by
  cases c with
  | solve =>
    unfold Call.change
    rw [Change.run_map, run_solve_toSolver hm]
    rfl
  | setColBounds j lower upper => exact run_setColBounds_toSolver s j lower upper
  | addRow terms lower upper =>
    unfold Call.change
    rw [Change.run_map, run_addRow_toSolver]
    simp only [attempt]
    cases s.addRow terms lower upper with
    | ok added => rfl
    | error e => rfl

end Simplex

namespace Solver

/-- The solver after a call, also after one that fails. -/
def perform (s : Solver α) (c : Simplex.Call α) : Solver α := c.change.after s

def performAll (s : Solver α) (calls : List (Simplex.Call α)) : Solver α := calls.foldl perform s

/-- There is a tableau exactly after a solve, and its arrays are those of a basis of the model. -/
def Coherent (s : Solver α) : Prop := ∃ t : Simplex α, t.Coherent ∧ t.toSolver = s

theorem coherent_new {model : Model α} (hm : model.Tidy) (settings : SimplexSettings α) :
    (new model settings).Coherent :=
  ⟨Simplex.new model settings, Simplex.coherent_withModel (Simplex.new model settings) hm, rfl⟩

section Calls

variable {s s' : Solver α} {c : Simplex.Call α}

/-- A call either ends where it leads or fails with nothing written. -/
theorem Coherent.run_cases (hs : s.Coherent) (c : Simplex.Call α) :
    ∃ t : Simplex α, t.Coherent ∧ t.toSolver = s ∧
      ((∃ t', t.attempt c = .ok t' ∧ c.change.run s = .ok () t'.toSolver) ∨
        ∃ e, c.change.run s = .error e s) := by
  obtain ⟨t, ht, rfl⟩ := hs
  refine ⟨t, ht, rfl, ?_⟩
  rw [Simplex.run_change ht.tidy.toShaped]
  cases t.attempt c with
  | ok t' => exact .inl ⟨t', rfl, rfl⟩
  | error e => exact .inr ⟨e, rfl⟩

/-- An edit that succeeds forgets the last solve. -/
theorem Coherent.run_edit (hs : s.Coherent) (hedit : c ≠ .solve)
    (h : c.change.run s = .ok () s') :
    s'.tableau = none ∧ s'.status = .notSolved ∧ s'.pivots = s.pivots := by
  obtain ⟨t, -, rfl, ⟨t', hattempt, hrun⟩ | ⟨e, hrun⟩⟩ := hs.run_cases c
  · cases hrun.symm.trans h
    rcases Simplex.attempt_ok hattempt with ⟨hsolve, -⟩ | ⟨m, rfl, -⟩
    · exact absurd hsolve hedit
    · exact ⟨rfl, rfl, rfl⟩
  · cases hrun.symm.trans h

/-- A call that fails leaves nothing behind. -/
theorem Coherent.run_error (hs : s.Coherent) {e : ModelError α}
    (h : c.change.run s = .error e s') : s' = s := by
  obtain ⟨-, -, -, ⟨t', -, hrun⟩ | ⟨e', hrun⟩⟩ := hs.run_cases c
  · cases hrun.symm.trans h
  · cases hrun.symm.trans h
    rfl

variable [Extended α]

theorem coherent_perform (hs : s.Coherent) (hc : c.Proper) : (s.perform c).Coherent := by
  unfold perform Change.after
  obtain ⟨t, ht, rfl, ⟨t', hattempt, hrun⟩ | ⟨e, hrun⟩⟩ := hs.run_cases c
  · rw [hrun]
    exact ⟨t', Simplex.coherent_attempt ht hc hattempt, rfl⟩
  · rw [hrun]
    exact hs

theorem coherent_performAll (hs : s.Coherent) {calls : List (Simplex.Call α)}
    (hcalls : ∀ c ∈ calls, c.Proper) : (s.performAll calls).Coherent := by
  induction calls generalizing s with
  | nil => exact hs
  | cons c rest ih =>
    obtain ⟨hc, hrest⟩ := List.forall_mem_cons.mp hcalls
    exact ih (coherent_perform hs hc) hrest

end Calls

end Solver

/-! ## The tableau and the model -/

/-- The arrays have the sizes and the ranges of the model. Each row has a basic variable of its own,
what a variable does agrees with the row that it has, and it rests only where its range allows it
to. -/
structure ArrayTableau.Fits (model : Model α) (t : ArrayTableau α) : Prop where
  entry_size : t.entry.size = model.numRows
  row_size : ∀ (r : Nat) (row : Array α), t.entry[r]? = some row →
    row.size = model.numRows + model.numCols
  head_size : t.head.size = model.numRows
  status_size : t.status.size = model.numRows + model.numCols
  rowOf_size : t.rowOf.size = model.numRows + model.numCols
  value_size : t.value.size = model.numRows + model.numCols
  lower : t.lower = model.rowLower ++ model.colLower
  upper : t.upper = model.rowUpper ++ model.colUpper
  nodup : t.head.toList.Nodup
  basic : ∀ k : Nat, t.status[k]? = some VarStatus.basic ↔
    ∃ r, t.rowOf[k]? = some (some r) ∧ t.head[r]? = some k
  heads : ∀ r k : Nat, t.head[r]? = some k → t.rowOf[k]? = some (some r)
  suits : ∀ (k : Nat) (rest : Resting), t.status[k]? = some (VarStatus.resting rest) →
    t.rowOf[k]? = some none ∧ rest.Suits (t.lowerOf k) (t.upperOf k)

namespace Tableau

variable {m n : Nat} {t : Tableau α m n} {x : Vector α (m + n)}

omit [Scalar α] in
/-- What stands in a row is the basic variable of the row. -/
theorem getElem?_head_eq_some {r k : Nat} (h : (t.arrays x).head[r]? = some k) :
    ∃ (i : Fin m), i.val = r ∧ (t.head.get i).val = k := by
  have hr : r < m := by simpa [arrays] using (Array.getElem?_eq_some_iff.mp h).1
  rw [getElem?_head ⟨r, hr⟩] at h
  exact ⟨⟨r, hr⟩, rfl, Option.some.inj h⟩

omit [Scalar α] in
theorem getElem?_status_eq_some {k : Nat} {status : VarStatus}
    (h : (t.arrays x).status[k]? = some status) :
    ∃ i : Fin (m + n), i.val = k ∧ (t.place.get i).status = status := by
  have hk : k < m + n := by simpa [arrays] using (Array.getElem?_eq_some_iff.mp h).1
  rw [getElem?_status ⟨k, hk⟩] at h
  exact ⟨⟨k, hk⟩, rfl, Option.some.inj h⟩

omit [Scalar α] in
theorem getElem?_rowOf_eq_some {k r : Nat} (h : (t.arrays x).rowOf[k]? = some (some r)) :
    ∃ (i : Fin (m + n)) (p : Fin m), i.val = k ∧ p.val = r ∧ t.place.get i = .basic p := by
  have hk : k < m + n := by simpa [arrays] using (Array.getElem?_eq_some_iff.mp h).1
  rw [getElem?_rowOf ⟨k, hk⟩] at h
  obtain ⟨p, hp, hr⟩ := Option.map_eq_some_iff.mp (Option.some.inj h)
  cases hplace : t.place.get ⟨k, hk⟩ with
  | nonbasic rest =>
    rw [hplace] at hp
    cases hp
  | basic p' =>
    rw [hplace] at hp
    cases hp
    exact ⟨⟨k, hk⟩, p, rfl, hr, hplace⟩

omit [Scalar α] in
theorem nodup_head_arrays (ht : t.Paired) : (t.arrays x).head.toList.Nodup := by
  rw [toList_head]
  apply (List.nodup_finRange m).map
  intro r r' h
  exact ht.head_injective (Fin.ext h)

theorem fits_arrays {model : Model α} {t : Tableau α model.numRows model.numCols}
    {x : Vector α (model.numRows + model.numCols)} (hm : model.Shaped) (ht : t.Describes) :
    (t.arrays x).Fits model where
  entry_size := by simp [arrays]
  row_size r row hrow := by
    obtain ⟨row', -, rfl⟩ : ∃ row', t.entry.toArray[r]? = some row' ∧ row'.toArray = row := by
      simpa [arrays] using hrow
    exact row'.size_toArray
  head_size := by simp [arrays]
  status_size := by simp [arrays]
  rowOf_size := by simp [arrays]
  value_size := by simp [arrays]
  lower := toArray_lower hm ht.lower
  upper := toArray_upper hm ht.upper
  nodup := nodup_head_arrays ht.paired
  basic k := by
    constructor
    · intro hk
      obtain ⟨i, rfl, hstatus⟩ := getElem?_status_eq_some hk
      cases hplace : t.place.get i with
      | nonbasic rest =>
        rw [hplace] at hstatus
        cases hstatus
      | basic r =>
        refine ⟨r, ?_, ?_⟩
        · rw [getElem?_rowOf, hplace]
          rfl
        · rw [getElem?_head, ht.paired.head_place i r hplace]
    · rintro ⟨r, hrow, -⟩
      obtain ⟨i, p, rfl, -, hplace⟩ := getElem?_rowOf_eq_some hrow
      rw [getElem?_status, hplace]
      rfl
  heads r k hr := by
    obtain ⟨i, rfl, rfl⟩ := getElem?_head_eq_some hr
    rw [getElem?_rowOf, ht.paired.place_head]
    rfl
  suits k rest hk := by
    obtain ⟨i, rfl, hstatus⟩ := getElem?_status_eq_some hk
    cases hplace : t.place.get i with
    | basic r =>
      rw [hplace] at hstatus
      cases hstatus
    | nonbasic rest' =>
      rw [hplace] at hstatus
      cases hstatus
      rw [getElem?_rowOf, hplace, lowerOf_arrays, upperOf_arrays]
      exact ⟨rfl, ht.suits i rest hplace⟩

end Tableau

/-! ## Queries -/

namespace Simplex

section ToSolver

variable (s : Simplex α) (k j : Nat)

theorem optimalTableau?_toSolver : s.toSolver.optimalTableau?
    = s.optimalBasis?.map fun b => b.tableau.arrays b.values := by
  unfold Solver.optimalTableau? optimalBasis?
  rw [apply_ite (Option.map _)]
  rfl

omit [Scalar α] in
theorem getElem?_map_toArray {β γ : Type} {n : Nat} (v : Vector β n) (f : β → γ) :
    (v.toArray.map f)[k]? = v[k]?.map f := by
  rw [Array.getElem?_map, Vector.getElem?_toArray]

theorem varStatus?_toSolver : s.toSolver.varStatus? k = (s.varPlace? k).map Place.status := by
  unfold Solver.varStatus? varPlace?
  rw [optimalTableau?_toSolver]
  cases s.optimalBasis? with
  | none => rfl
  | some b => exact getElem?_map_toArray k b.tableau.place Place.status

theorem basisRow?_toSolver : s.toSolver.basisRow? k = (s.basisRow? k).map Fin.val := by
  unfold Solver.basisRow? basisRow? varPlace?
  rw [optimalTableau?_toSolver]
  cases s.optimalBasis? with
  | none => rfl
  | some b =>
    change ((b.tableau.place.toArray.map fun place => place.row?.map Fin.val)[k]?).bind id
      = ((b.tableau.place[k]?).bind Place.row?).map Fin.val
    rw [getElem?_map_toArray]
    cases b.tableau.place[k]? <;> rfl

/-- The entries of a row are listed alike. -/
theorem filterMap_arrays {m n : Nat} (t : Tableau α m n) (x : Vector α (m + n)) (r : Fin m) :
    ((List.range (t.arrays x).numVars).filter fun j => !((t.arrays x).statusOf j).isBasic).filterMap
        (fun j => if (t.arrays x).rate r j == 0 then none else some (j, (t.arrays x).rate r j))
      = (List.finRange (m + n)).filterMap fun j =>
        if (t.place.get j).isBasic || t.rate r j == 0 then none else some (j.val, t.rate r j) := by
  rw [Tableau.numVars_arrays, ← List.map_coe_finRange_eq_range, List.filter_map,
    List.filterMap_map, List.filterMap_filter]
  congr 1
  funext j
  simp only [Function.comp, Tableau.statusOf_arrays, Tableau.rate_arrays, Place.isBasic_status]
  cases (t.place.get j).isBasic <;> rfl

theorem tableauRow?_toSolver : s.toSolver.tableauRow? k = s.tableauRow? k := by
  unfold Solver.tableauRow? tableauRow?
  rw [optimalTableau?_toSolver]
  cases s.optimalBasis? with
  | none => rfl
  | some b =>
    change ((b.tableau.place.toArray.map fun place => place.row?.map Fin.val)[k]?).bind _
      = (b.tableau.place[k]?).bind _
    rw [getElem?_map_toArray]
    cases b.tableau.place[k]? with
    | none => rfl
    | some place =>
      cases place with
      | nonbasic rest => rfl
      | basic r => exact congrArg some (filterMap_arrays b.tableau b.values r)

omit [Scalar α] in
theorem decide_status {m : Nat} (place : Option (Place m)) :
    decide (place.map Place.status = some .basic) = (place.map Place.isBasic).getD false := by
  cases place with
  | none => rfl
  | some place => cases place <;> rfl

theorem isBasic_toSolver : s.toSolver.isBasic j = Relaxation.isBasic s j := by
  unfold Solver.isBasic
  rw [varStatus?_toSolver]
  exact decide_status _

theorem varValue_toSolver : s.toSolver.varValue k = s.varValue k := by
  unfold Solver.varValue varValue
  change ((s.basis.map fun b => b.tableau.arrays b.values).bind fun t => t.value[k]?).getD 0 = _
  cases s.basis with
  | none => rfl
  | some b =>
    change b.values.toArray[k]?.getD 0 = b.values[k]?.getD 0
    rw [Vector.getElem?_toArray]

theorem tableauEntry?_toSolver (xi : α) : s.toSolver.tableauEntry? k xi = s.tableauEntry? k xi := by
  unfold Solver.tableauEntry? tableauEntry?
  rw [varStatus?_toSolver]
  cases s.varPlace? k with
  | none => rfl
  | some place => cases place <;> rfl

theorem columnRow?_toSolver : s.toSolver.columnRow? j = s.columnRow? j := by
  unfold Solver.columnRow? columnRow?
  rw [tableauRow?_toSolver, Solver.columnValue, varValue_toSolver]
  simp only [tableauEntry?_toSolver]
  rfl

end ToSolver

end Simplex

namespace Solver

variable {s : Solver α}

/-- All queries read one tableau, the last one if it is optimal. -/
structure QueriesAgree (s : Solver α) : Prop where
  known : ∀ k, (s.varStatus? k).isSome = true ↔ s.status = .optimal ∧ k < s.numVars
  row : ∀ k, (s.basisRow? k).isSome = true ↔ s.varStatus? k = some .basic
  head : ∀ k r, s.basisRow? k = some r ↔
    s.status = .optimal ∧ ∃ t, s.tableau = some t ∧ t.head[r]? = some k
  isBasic : ∀ j, s.isBasic j = true ↔ s.varStatus? (s.model.numRows + j) = some .basic
  tableauRow : ∀ k, (s.tableauRow? k).isSome = true ↔ s.varStatus? k = some .basic
  columnRow : ∀ j, (s.columnRow? j).isSome = s.isBasic j
  entries : ∀ k row, s.tableauRow? k = some row → (row.map Prod.fst).Pairwise (· < ·) ∧
    ∀ e ∈ row, ∃ rest, s.varStatus? e.1 = some (.resting rest)

theorem Coherent.shaped (hs : s.Coherent) : s.model.Shaped := by
  obtain ⟨t, ht, rfl⟩ := hs
  exact ht.tidy.toShaped

theorem Coherent.solved (hs : s.Coherent) : s.tableau.isSome = true ↔ s.status ≠ .notSolved := by
  obtain ⟨t, ht, rfl⟩ := hs
  change (t.basis.map _).isSome = true ↔ t.status ≠ .notSolved
  rw [Option.isSome_map]
  exact ht.solved

theorem Coherent.fits (hs : s.Coherent) {t : ArrayTableau α} (h : s.tableau = some t) :
    t.Fits s.model := by
  obtain ⟨u, hu, rfl⟩ := hs
  obtain ⟨b, hb, rfl⟩ := Option.map_eq_some_iff.mp h
  exact Tableau.fits_arrays hu.tidy.toShaped (hu.describes b hb)

/-- What is shown as basic has a place in a row. -/
theorem map_status_eq_basic {m : Nat} {place : Option (Place m)} :
    place.map Place.status = some .basic ↔ (place.bind Place.row?).isSome = true := by
  cases place with
  | none => simp
  | some place => cases place <;> simp [Place.status, Place.row?]

theorem Coherent.queriesAgree (hs : s.Coherent) : s.QueriesAgree := by
  obtain ⟨t, ht, rfl⟩ := hs
  have hrow (k : Nat) : (t.toSolver.basisRow? k).isSome = true
      ↔ t.toSolver.varStatus? k = some .basic := by
    rw [Simplex.basisRow?_toSolver, Option.isSome_map, Simplex.varStatus?_toSolver,
      map_status_eq_basic]
    rfl
  constructor
  case known =>
    intro k
    rw [Simplex.varStatus?_toSolver, Option.isSome_map]
    exact ht.isSome_varPlace? k
  case row => exact hrow
  case head =>
    intro k r
    rw [Simplex.basisRow?_toSolver, Option.map_eq_some_iff]
    constructor
    · rintro ⟨i, hi, rfl⟩
      obtain ⟨hopt, b, hb, rfl⟩ := ht.basisRow?_eq_some_iff.mp hi
      refine ⟨hopt, b.tableau.arrays b.values, ?_, Tableau.getElem?_head i⟩
      change t.basis.map _ = _
      rw [hb]
      rfl
    · rintro ⟨hopt, u, hu, hr⟩
      obtain ⟨b, hb, rfl⟩ := Option.map_eq_some_iff.mp hu
      obtain ⟨i, rfl, hk⟩ := Tableau.getElem?_head_eq_some hr
      exact ⟨i, ht.basisRow?_eq_some_iff.mpr ⟨hopt, b, hb, hk⟩, rfl⟩
  case isBasic => exact fun j => decide_eq_true_iff
  case tableauRow =>
    intro k
    rw [← hrow, Simplex.tableauRow?_toSolver, Simplex.isSome_tableauRow?,
      Simplex.basisRow?_toSolver, Option.isSome_map]
  case columnRow =>
    intro j
    rw [Simplex.columnRow?_toSolver, Simplex.isBasic_toSolver]
    exact Simplex.isSome_columnRow? t j
  case entries =>
    intro k row h
    rw [Simplex.tableauRow?_toSolver] at h
    obtain ⟨hsorted, hrests⟩ := Simplex.tableauRow?_eq_some h
    refine ⟨hsorted, ?_⟩
    intro e he
    obtain ⟨rest, hrest⟩ := hrests e he
    refine ⟨rest, ?_⟩
    rw [Simplex.varStatus?_toSolver, hrest]
    rfl

/-- What a solver shows after any calls, failed ones included. It has a tableau exactly if it was
solved after the last edit. The arrays of the tableau fit the model as it is now and each other, and
all queries agree with them. An edit forgets the last solve, and a call that fails leaves nothing
behind of what it did. -/
theorem performAll_consistent [Extended α] (model : Model α) (settings : SimplexSettings α)
    (built : model.Built) (hcols : ∀ j < model.numCols, ProperRange (model.colRange j))
    (calls : List (Simplex.Call α)) (hcalls : ∀ c ∈ calls, c.Proper) :
    let s := (new model settings).performAll calls
    s.model.Shaped ∧
    (s.tableau.isSome = true ↔ s.status ≠ .notSolved) ∧
    (∀ t, s.tableau = some t → t.Fits s.model) ∧
    s.QueriesAgree ∧
    (∀ (c : Simplex.Call α) s', c ≠ .solve → c.change.run s = .ok () s' →
      s'.tableau = none ∧ s'.status = .notSolved ∧ s'.pivots = s.pivots) ∧
    ∀ (c : Simplex.Call α) e s', c.change.run s = .error e s' → s' = s := by
  intro s
  have hs : s.Coherent := coherent_performAll (coherent_new (built.tidy hcols) settings) hcalls
  exact ⟨hs.shaped, hs.solved, fun _ => hs.fits, hs.queriesAgree, fun _ _ => hs.run_edit,
    fun _ _ _ => hs.run_error⟩

/-- The largest `x ≤ 10` with `2 x ≤ 5`, in double precision. -/
def halved : Model Float where
  objective := #[1]
  matrix := ⟨1, 1, .byRow, #[[(0, 2)]]⟩
  rowLower := #[negInf]
  rowUpper := #[5]
  colLower := #[0]
  colUpper := #[10]
  kinds := #[.continuous]

theorem built_halved : halved.Built := by
  have hgood : Model.badObjective? #[(1 : Float)] = none := by decide +kernel
  have empty : Model.Built { halved with
      matrix := .zero 0 1, rowLower := #[], rowUpper := #[], colUpper := #[posInf] } :=
    .new (show Model.new? #[1] #[.continuous] = _ by simp [Model.new?, hgood, halved])
  have bounded : Model.Built { halved with
      matrix := .zero 0 1, rowLower := #[], rowUpper := #[] } :=
    empty.setColBounds (show Model.setColBounds _ 0 0 10 = _ from rfl)
  exact bounded.addRow (show Model.addRow _ [(0, 2)] negInf 5 = _ from rfl)

/-- Two solves with two edits between them, one of a column that does not exist. -/
def halvedTwice : Solver Float :=
  (new halved SimplexSettings.default).performAll
    [.solve, .setColBounds 0 0 4, .setColBounds 3 0 1, .solve]

/-- The second tableau has the edited range, the column is basic in it, and once more the edit of
a column that does not exist leaves nothing behind. -/
theorem performAll_consistent_halved : halvedTwice.status = .optimal ∧
    (∃ t, halvedTwice.tableau = some t ∧ t.upper = #[5, 4] ∧ t.head.toList.Nodup) ∧
    halvedTwice.varStatus? 1 = some .basic ∧ (halvedTwice.tableauRow? 1).isSome = true ∧
    ∃ e, (Simplex.Call.setColBounds 3 0 1).change.run halvedTwice = .error e halvedTwice := by
  obtain ⟨-, hsolved, hfits, hqueries, -, hfailed⟩ :=
    performAll_consistent halved SimplexSettings.default built_halved (by decide +kernel)
      [.solve, .setColBounds 0 0 4, .setColBounds 3 0 1, .solve]
      (by decide +kernel)
  have hopt : halvedTwice.status = .optimal := by decide +kernel
  have hbasic : halvedTwice.varStatus? 1 = some .basic := by decide +kernel
  obtain ⟨t, ht⟩ := Option.isSome_iff_exists.mp (hsolved.mpr (hopt ▸ nofun))
  have hfit := hfits t ht
  refine ⟨hopt, ⟨t, ht, hfit.upper.trans rfl, hfit.nodup⟩, hbasic,
    (hqueries.tableauRow 1).mpr hbasic, ?_⟩
  have hrefused : (match (Simplex.Call.setColBounds 3 0 1).change.run halvedTwice with
    | .ok _ _ => false
    | .error _ _ => true) = true := by decide +kernel
  cases h : (Simplex.Call.setColBounds 3 0 1).change.run halvedTwice with
  | ok answer s' =>
    rw [h] at hrefused
    cases hrefused
  | error e s' => exact ⟨e, congrArg (EStateM.Result.error e) (hfailed _ e s' h)⟩

end Solver

end MixedInteger
