import Mathlib.Data.Fin.Basic
import Mathlib.Data.List.FinRange
import MixedInteger.Proofs.SimplexRun
import MixedInteger.Simplex.Solver

/-!
# Tableaux and their arrays

The arrays of a tableau say the same as the tableau as long as every variable with a place in a row
is the basic variable of that row. The writes of each operation then end at the arrays of what the
operation makes of the tableau, so a run in memory takes the same steps and ends the same way.

* `Tableau.Written`: an array in the course of writes row by row;
* `Tableau.updateValues_arrays`: the values that are written are those of the tableau;
* `Tableau.pivot_arrays`, `Tableau.flip_arrays`: the changes of the basis;
* `Tableau.cost_arrays`, `Tableau.entering_arrays`, `Tableau.ratioTest_arrays`: the choices of a
  step;
* `Tableau.iterate_arrays`: whole runs.
-/

namespace MixedInteger

open Scalar

variable {α : Type}

namespace Tableau

variable {m n : Nat} {t : Tableau α m n} {x : Vector α (m + n)}

/-! ## Reading -/

theorem getElem?_toArray {β : Type} {k : Nat} (v : Vector β k) (i : Fin k) :
    v.toArray[i.val]? = some (v.get i) := by
  simp [Vector.get]

/-- A write is read where it was made and nowhere else. -/
theorem getElem?_write {β : Type} {k : Nat} {xs : Array β} {i q : Fin k} {b c : β}
    (h : xs[i.val]? = some b) :
    (xs.setIfInBounds q.val c)[i.val]? = some (if i = q then c else b) := by
  rw [Array.getElem?_setIfInBounds]
  by_cases hi : i = q
  · subst hi
    rw [if_pos rfl, if_pos rfl, if_pos (Array.getElem?_eq_some_iff.mp h).1]
  · rw [if_neg hi, if_neg fun heq => hi (Fin.ext heq.symm), h]

theorem eq_map_toArray {β γ : Type} {k : Nat} {v : Vector β k} {f : β → γ} {xs : Array γ}
    (hsize : xs.size = k) (h : ∀ i : Fin k, xs[i.val]? = some (f (v.get i))) :
    xs = v.toArray.map f := by
  apply Array.ext_getElem?
  intro i
  by_cases hi : i < k
  · rw [Array.getElem?_map, h ⟨i, hi⟩, getElem?_toArray v ⟨i, hi⟩]
    rfl
  · have hlength : (v.toArray.map f).size ≤ i := by simpa using hi
    rw [Array.getElem?_eq_none (by omega), Array.getElem?_eq_none hlength]

theorem eq_toArray {β : Type} {k : Nat} {v : Vector β k} {xs : Array β}
    (hsize : xs.size = k) (h : ∀ i : Fin k, xs[i.val]? = some (v.get i)) : xs = v.toArray := by
  rw [eq_map_toArray (f := id) hsize h]
  simp

@[simp] theorem numVars_arrays : (t.arrays x).numVars = m + n := by
  simp [ArrayTableau.numVars, arrays]

@[simp] theorem numRows_arrays : (t.arrays x).numRows = m := by
  simp [ArrayTableau.numRows, arrays]

theorem getElem?_head (r : Fin m) : (t.arrays x).head[r.val]? = some (t.head.get r).val := by
  change (t.head.toArray.map Fin.val)[r.val]? = _
  rw [Array.getElem?_map, getElem?_toArray]
  rfl

theorem getElem?_status (k : Fin (m + n)) :
    (t.arrays x).status[k.val]? = some (t.place.get k).status := by
  change (t.place.toArray.map Place.status)[k.val]? = _
  rw [Array.getElem?_map, getElem?_toArray]
  rfl

theorem getElem?_rowOf (k : Fin (m + n)) :
    (t.arrays x).rowOf[k.val]? = some ((t.place.get k).row?.map Fin.val) := by
  change (t.place.toArray.map fun place => place.row?.map Fin.val)[k.val]? = _
  rw [Array.getElem?_map, getElem?_toArray]
  rfl

theorem headOf_arrays (r : Fin m) : (t.arrays x).headOf r = (t.head.get r).val := by
  rw [ArrayTableau.headOf, getElem?_head]
  rfl

theorem statusOf_arrays (k : Fin (m + n)) :
    (t.arrays x).statusOf k = (t.place.get k).status := by
  rw [ArrayTableau.statusOf, getElem?_status]
  rfl

variable [Scalar α]

theorem coef_arrays (r : Fin m) (k : Fin (m + n)) :
    (t.arrays x).coef r k = t.coef r k := by
  simp [ArrayTableau.coef, arrays, coef, Vector.get]
  rfl

theorem rate_arrays (r : Fin m) (k : Fin (m + n)) :
    (t.arrays x).rate r k = t.rate r k := by
  rw [ArrayTableau.rate, coef_arrays, rate]

theorem lowerOf_arrays (k : Fin (m + n)) : (t.arrays x).lowerOf k = t.lower.get k := by
  simp [ArrayTableau.lowerOf, arrays, Vector.get]

theorem upperOf_arrays (k : Fin (m + n)) : (t.arrays x).upperOf k = t.upper.get k := by
  simp [ArrayTableau.upperOf, arrays, Vector.get]

theorem valueOf_arrays (k : Fin (m + n)) : (t.arrays x).valueOf k = x.get k := by
  simp [ArrayTableau.valueOf, arrays, Vector.get]

theorem restValue_arrays (k : Fin (m + n)) : (t.arrays x).restValue k = t.restValue k := by
  rw [ArrayTableau.restValue, restValue, statusOf_arrays, lowerOf_arrays, upperOf_arrays]
  cases t.place.get k <;> rfl

/-! ## Values -/

theorem foldl_range {β : Type} {k : Nat} (f : β → Nat → β) (b : β) :
    (List.range k).foldl f b = (List.finRange k).foldl (fun b i => f b i.val) b := by
  rw [← List.map_coe_finRange_eq_range, List.foldl_map]

/-- The value of a basic variable is read off the resting ones. -/
theorem rowValue_arrays {value : Array α} (hvalue : ∀ k : Fin (m + n),
      (t.place.get k).isBasic = false → value[k.val]? = some (t.restValue k)) (r : Fin m) :
    (t.arrays x).rowValue value r = t.basicValue r := by
  rw [ArrayTableau.rowValue, basicValue, numVars_arrays, foldl_range]
  apply List.foldl_ext
  intro v k _
  rw [statusOf_arrays, coef_arrays, Place.isBasic_status]
  cases hk : (t.place.get k).isBasic with
  | true => simp
  | false => simp [hvalue k hk]

/-- The array has `g` at every variable, but `f` at the basic variables of the rows `done`. -/
structure Written {β : Type} (t : Tableau α m n) (g : Fin (m + n) → β) (f : Fin m → β)
    (done : List (Fin m)) (xs : Array β) : Prop where
  size : xs.size = m + n
  get : ∀ k : Fin (m + n), xs[k.val]? = some
    (match t.place.get k with
    | .basic r => if r ∈ done then f r else g k
    | .nonbasic _ => g k)

section Written

variable {β : Type} {g : Fin (m + n) → β} {f : Fin m → β} {done : List (Fin m)} {xs : Array β}

omit [Scalar α] in
theorem written_nil (f : Fin m → β) (hsize : xs.size = m + n)
    (hget : ∀ k : Fin (m + n), xs[k.val]? = some (g k)) : t.Written g f [] xs where
  size := hsize
  get k := by
    rw [hget]
    cases t.place.get k <;> rfl

omit [Scalar α] in
/-- One more row is done when its basic variable is written. -/
theorem Written.write (h : t.Written g f done xs) (ht : t.Paired) (r : Fin m) :
    t.Written g f (r :: done) (xs.setIfInBounds (t.head.get r).val (f r)) where
  size := by rw [Array.size_setIfInBounds, h.size]
  get k := by
    rw [getElem?_write (h.get k)]
    by_cases hk : k = t.head.get r
    · subst hk
      rw [if_pos rfl, ht.place_head]
      simp
    · rw [if_neg hk]
      cases hplace : t.place.get k with
      | nonbasic rest => rfl
      | basic r' =>
        have hne : r' ≠ r := by
          rintro rfl
          exact hk (ht.head_place k r' hplace).symm
        simp [hne]

omit [Scalar α] in
/-- A row is done without a write if its basic variable has its value already. -/
theorem Written.skip (h : t.Written g f done xs) {r : Fin m} (hr : ∀ k, g k = f r) :
    t.Written g f (r :: done) xs where
  size := h.size
  get k := by
    rw [h.get]
    cases t.place.get k with
    | nonbasic rest => rfl
    | basic r' =>
      by_cases hr' : r' = r
      · subst hr'
        simp [hr]
      · simp [hr']

omit [Scalar α] in
/-- With all rows done every variable has its last value. -/
theorem Written.eq_toArray (h : t.Written g f ((List.finRange m).reverse ++ []) xs)
    {v : Vector β (m + n)}
    (hv : ∀ k, v.get k = match t.place.get k with
      | .basic r => f r
      | .nonbasic _ => g k) : xs = v.toArray := by
  apply Tableau.eq_toArray h.size
  intro k
  rw [h.get, hv]
  cases t.place.get k <;> simp

end Written

theorem written_foldl_rowValue (ht : t.Paired) (rows done : List (Fin m)) {value : Array α}
    (h : t.Written t.restValue t.basicValue done value) :
    t.Written t.restValue t.basicValue (rows.reverse ++ done)
      (rows.foldl (fun value (r : Fin m) => value.setIfInBounds ((t.arrays x).headOf r.val)
        ((t.arrays x).rowValue value r.val)) value) := by
  induction rows generalizing done value with
  | nil => exact h
  | cons r rest ih =>
    have hrow : (t.arrays x).rowValue value r = t.basicValue r := by
      apply rowValue_arrays
      intro k hk
      rw [h.get]
      cases hplace : t.place.get k with
      | nonbasic rest => rfl
      | basic r' =>
        rw [hplace] at hk
        cases hk
    rw [List.reverse_cons, List.append_assoc, List.foldl_cons, hrow, headOf_arrays]
    exact ih (r :: done) (h.write ht r)

theorem updateValues_arrays (ht : t.Paired) : (t.arrays x).updateValues = t.arrays t.values := by
  have hstart : t.Written t.restValue t.basicValue []
      (Array.ofFn fun k : Fin (t.arrays x).numVars => (t.arrays x).restValue k) := by
    apply written_nil _ (by simp)
    intro k
    have hk : k.val < (t.arrays x).numVars := by simp
    rw [Array.getElem?_ofFn, dif_pos hk, restValue_arrays]
  have hvalues : (t.arrays x).updateValues.value = t.values.toArray := by
    unfold ArrayTableau.updateValues
    dsimp only
    rw [numRows_arrays, foldl_range]
    apply (written_foldl_rowValue ht _ [] hstart).eq_toArray
    intro k
    rw [values, get_ofFn, restValue]
    cases t.place.get k <;> rfl
  change { t.arrays x with value := (t.arrays x).updateValues.value } = _
  rw [hvalues]
  rfl

/-! ## Changes of the basis -/

theorem pivotRow_toArray (p : Fin m) (q : Fin (m + n)) :
    ((t.entry.get p).toArray.map fun a => a / t.coef p q).setIfInBounds q.val 1
      = (t.pivotRow p q).toArray := by
  apply eq_toArray (by simp)
  intro k
  rw [pivotRow, get_ofFn]
  exact getElem?_write (by rw [Array.getElem?_map, getElem?_toArray]; rfl)

theorem eliminateRow_toArray (dropTol : α) (row pivot : Vector α (m + n)) (q : Fin (m + n)) :
    ArrayTableau.eliminateRow dropTol row.toArray pivot.toArray q.val
      = (eliminate dropTol row pivot q).toArray := by
  unfold ArrayTableau.eliminateRow eliminate
  rw [getElem?_toArray, Option.getD_some]
  dsimp only
  by_cases hfactor : (row.get q == 0) = true
  · rw [if_pos hfactor, if_pos hfactor]
  · rw [if_neg hfactor, if_neg hfactor]
    apply eq_toArray (by simp)
    intro k
    rw [get_ofFn]
    apply getElem?_write
    rw [Array.getElem?_mapIdx, getElem?_toArray, getElem?_toArray]
    rfl

/-- The pivot row is divided before the other rows are eliminated with it. -/
theorem entry_pivot_arrays (dropTol : α) (p r : Fin m) (q : Fin (m + n)) (leave : Resting) :
    ((t.arrays x).pivot dropTol p q leave).entry[r.val]?
      = some ((t.pivot dropTol p q leave).entry.get r).toArray := by
  have hdivide (i : Fin m) : ((t.arrays x).divideRow p q).entry[i.val]?
      = some (if i = p then (t.pivotRow p q).toArray else (t.entry.get i).toArray) := by
    change ((t.entry.toArray.map Vector.toArray).modify p.val fun row =>
      (row.map fun a => a / (t.arrays x).coef p q).setIfInBounds q.val 1)[i.val]? = _
    rw [Array.getElem?_modify, Array.getElem?_map, getElem?_toArray, coef_arrays]
    by_cases hi : i = p
    · subst hi
      rw [if_pos rfl, if_pos rfl, ← pivotRow_toArray]
      rfl
    · rw [if_neg hi, if_neg fun h => hi (Fin.ext h.symm)]
      rfl
  change (((t.arrays x).divideRow p q).eliminate dropTol p q).entry[r.val]? = _
  unfold ArrayTableau.eliminate
  rw [Array.getElem?_mapIdx, hdivide, hdivide, if_pos rfl, Option.getD_some, Option.map_some]
  unfold pivot
  rw [get_ofFn]
  by_cases hr : r = p
  · subst hr
    simp
  · rw [if_neg hr, if_neg hr, if_neg fun h => hr (Fin.ext h), eliminateRow_toArray]

/-- What the variables do after an exchange, in the order of the writes. -/
theorem status_exchange (p : Fin m) (q : Fin (m + n)) (leave : Resting) :
    ((t.arrays x).exchange p q leave).status =
      ((t.arrays x).status.setIfInBounds (t.head.get p).val (.resting
        (if t.lower.get (t.head.get p) == t.upper.get (t.head.get p) then .fixed
        else leave))).setIfInBounds q.val .basic := by
  simp only [ArrayTableau.exchange, headOf_arrays, lowerOf_arrays, upperOf_arrays]

theorem rowOf_exchange (p : Fin m) (q : Fin (m + n)) (leave : Resting) :
    ((t.arrays x).exchange p q leave).rowOf =
      ((t.arrays x).rowOf.setIfInBounds (t.head.get p).val none).setIfInBounds q.val
        (some p.val) := by
  simp only [ArrayTableau.exchange, headOf_arrays]

theorem pivot_arrays (dropTol : α) (p : Fin m) (q : Fin (m + n)) (leave : Resting) :
    (t.arrays x).pivot dropTol p q leave = (t.pivot dropTol p q leave).arrays x := by
  apply ArrayTableau.ext
  case entry =>
    apply eq_map_toArray
    · simp [ArrayTableau.pivot, ArrayTableau.exchange, ArrayTableau.eliminate,
        ArrayTableau.divideRow, arrays]
    · intro r
      exact entry_pivot_arrays dropTol p r q leave
  case head =>
    change (t.arrays x).head.setIfInBounds p.val q.val = _
    apply eq_map_toArray (by simp [arrays])
    intro r
    rw [head_pivot, apply_ite Fin.val]
    exact getElem?_write (getElem?_head r)
  case status =>
    change ((t.arrays x).exchange p q leave).status = _
    rw [status_exchange]
    apply eq_map_toArray (by simp [arrays])
    intro k
    rw [place_pivot, apply_ite Place.status, apply_ite Place.status]
    exact getElem?_write (getElem?_write (getElem?_status k))
  case rowOf =>
    change ((t.arrays x).exchange p q leave).rowOf = _
    rw [rowOf_exchange]
    apply eq_map_toArray (by simp [arrays])
    intro k
    rw [place_pivot, apply_ite Place.row?, apply_ite Place.row?, apply_ite (Option.map Fin.val),
      apply_ite (Option.map Fin.val)]
    exact getElem?_write (getElem?_write (getElem?_rowOf k))
  all_goals rfl

omit [Scalar α] in
/-- A flip does not write the row of the variable. It need not, as a variable that rests has
none. -/
theorem flip_arrays {q : Fin (m + n)} {rest : Resting} (hq : t.place.get q = .nonbasic rest)
    (target : Resting) : (t.arrays x).flip q.val target = (t.flip q target).arrays x := by
  apply ArrayTableau.ext
  case status =>
    change (t.arrays x).status.setIfInBounds q.val (.resting target) = _
    apply eq_map_toArray (by simp [arrays])
    intro k
    rw [place_flip, apply_ite Place.status]
    exact getElem?_write (getElem?_status k)
  case rowOf =>
    change (t.arrays x).rowOf = _
    apply eq_map_toArray (by simp [arrays])
    intro k
    rw [getElem?_rowOf, place_flip]
    by_cases hk : k = q
    · subst hk
      rw [hq, if_pos rfl]
      rfl
    · rw [if_neg hk]
  all_goals rfl

/-! ## Steps -/

theorem hasEmptyRange_arrays (tol : α) :
    (t.arrays x).hasEmptyRange tol = t.hasEmptyRange tol := by
  unfold ArrayTableau.hasEmptyRange hasEmptyRange
  rw [numVars_arrays, ← List.map_coe_finRange_eq_range, List.any_map]
  congr 1
  funext k
  simp [lowerOf_arrays, upperOf_arrays]

/-- The cost that phase one gives the basic variable of row `r`. -/
def rowCost (t : Tableau α m n) (tol : α) (x : Vector α (m + n)) (r : Fin m) : α :=
  if t.isBelow tol x (t.head.get r) then 1
  else if t.isAbove tol x (t.head.get r) then -1
  else 0

/-- The basic variable of row `r` lies outside its range. -/
def isOutside (t : Tableau α m n) (tol : α) (x : Vector α (m + n)) (r : Fin m) : Bool :=
  t.isBelow tol x (t.head.get r) || t.isAbove tol x (t.head.get r)

theorem repairStep_arrays (tol : α) (acc : Array α × Bool) (r : Fin m) :
    (t.arrays x).repairStep tol acc (t.head.get r) =
      if t.isOutside tol x r then
        (acc.1.setIfInBounds (t.head.get r).val (t.rowCost tol x r), true)
      else acc := by
  unfold ArrayTableau.repairStep isOutside rowCost isBelow isAbove
  rw [valueOf_arrays, lowerOf_arrays, upperOf_arrays]
  by_cases hbelow : x.get (t.head.get r) < t.lower.get (t.head.get r) - tol
  · simp [hbelow]
  · by_cases habove : x.get (t.head.get r) > t.upper.get (t.head.get r) + tol
    · simp [hbelow, habove]
    · simp [hbelow, habove]

theorem rowCost_of_inside {tol : α} {r : Fin m} (h : t.isOutside tol x r = false) :
    t.rowCost tol x r = 0 := by
  obtain ⟨hbelow, habove⟩ := Bool.or_eq_false_iff.mp h
  unfold rowCost
  rw [hbelow, habove]
  rfl

theorem written_foldl_repairStep (ht : t.Paired) (tol : α) (rows done : List (Fin m))
    (acc : Array α × Bool) (h : t.Written (fun _ => 0) (t.rowCost tol x) done acc.1) :
    let acc' := rows.foldl (fun acc r => (t.arrays x).repairStep tol acc (t.head.get r).val) acc
    t.Written (fun _ => 0) (t.rowCost tol x) (rows.reverse ++ done) acc'.1 ∧
      acc'.2 = (acc.2 || rows.any (t.isOutside tol x)) := by
  induction rows generalizing done acc with
  | nil => exact ⟨h, by simp⟩
  | cons r rest ih =>
    rw [List.reverse_cons, List.append_assoc, List.foldl_cons, List.any_cons, repairStep_arrays]
    cases hout : t.isOutside tol x r with
    | true =>
      obtain ⟨hwritten, hphase⟩ := ih (r :: done)
        (acc.1.setIfInBounds (t.head.get r).val (t.rowCost tol x r), true) (h.write ht r)
      exact ⟨hwritten, hphase.trans (by simp)⟩
    | false => exact ih (r :: done) acc (h.skip fun _ => (rowCost_of_inside hout).symm)

omit [Scalar α] in
theorem toList_head :
    (t.arrays x).head.toList = (List.finRange m).map fun r => (t.head.get r).val := by
  apply List.ext_getElem?
  intro r
  rw [Array.getElem?_toList, List.getElem?_map]
  by_cases hr : r < m
  · rw [getElem?_head ⟨r, hr⟩, List.getElem?_eq_getElem (by simpa using hr)]
    rw [Option.map_some, List.getElem_finRange]
    rfl
  · have hlength : (List.finRange m).length ≤ r := by simpa using hr
    rw [Array.getElem?_eq_none (by simpa [arrays] using hr), List.getElem?_eq_none hlength]
    rfl

omit [Scalar α] in
theorem foldl_head {β : Type} (f : β → Nat → β) (b : β) :
    (t.arrays x).head.foldl f b
      = (List.finRange m).foldl (fun b r => f b (t.head.get r).val) b := by
  rw [← Array.foldl_toList, toList_head, List.foldl_map]

theorem get_repairCost (ht : t.Paired) (tol : α) (k : Fin (m + n)) :
    (t.repairCost tol x).get k = match t.place.get k with
      | .basic r => t.rowCost tol x r
      | .nonbasic _ => 0 := by
  rw [repairCost, get_ofFn]
  cases hplace : t.place.get k with
  | nonbasic rest => rfl
  | basic r =>
    dsimp only
    rw [rowCost, ht.head_place k r hplace]
    rfl

theorem repairCost_arrays (ht : t.Paired) (tol : α) :
    (t.arrays x).repairCost tol = ((t.repairCost tol x).toArray, t.inPhaseOne tol x) := by
  have hstart : t.Written (fun _ => 0) (t.rowCost tol x) [] (Array.replicate (m + n) 0) :=
    written_nil _ Array.size_replicate fun k => Array.getElem?_replicate.trans (if_pos k.isLt)
  obtain ⟨hwritten, hphase⟩ := written_foldl_repairStep ht tol (List.finRange m) []
    (Array.replicate (m + n) 0, false) hstart
  unfold ArrayTableau.repairCost
  rw [numVars_arrays, foldl_head]
  exact Prod.ext (hwritten.eq_toArray (get_repairCost ht tol)) hphase

/-- Unless phase one goes on, it costs nothing. -/
theorem repairCost_of_inside (ht : t.Paired) {tol : α} (h : t.inPhaseOne tol x = false)
    (k : Fin (m + n)) : (t.repairCost tol x).get k = 0 := by
  rw [get_repairCost ht]
  cases t.place.get k with
  | nonbasic rest => rfl
  | basic r =>
    have hinside : t.isOutside tol x r = false := by
      rw [inPhaseOne, List.any_eq_false] at h
      exact Bool.eq_false_iff.mpr (h r (List.mem_finRange r))
    exact rowCost_of_inside hinside

theorem cost_arrays (ht : t.Paired) (tol : α) (objective : Array α) :
    (t.arrays x).cost tol objective = ((t.cost tol objective x).toArray, t.inPhaseOne tol x) := by
  unfold ArrayTableau.cost cost
  rw [repairCost_arrays ht]
  cases hphase : t.inPhaseOne tol x with
  | true => rfl
  | false =>
    apply Prod.ext
    · apply Tableau.eq_toArray (by simp)
      intro k
      rw [numRows_arrays, Array.getElem?_mapIdx, getElem?_toArray, repairCost_of_inside ht hphase]
      rw [if_neg (by simp), objectiveCost, get_ofFn]
      rfl
    · rfl

theorem reducedCost_arrays (cost : Vector α (m + n)) (k : Fin (m + n)) :
    (t.arrays x).reducedCost cost.toArray k = t.reducedCost cost k := by
  unfold ArrayTableau.reducedCost reducedCost
  rw [numRows_arrays, foldl_range, getElem?_toArray, Option.getD_some]
  apply List.foldl_ext
  intro d r _
  rw [headOf_arrays, getElem?_toArray, rate_arrays]
  rfl

theorem improving?_arrays (tolCost : α) (cost : Vector α (m + n)) (k : Fin (m + n)) :
    (t.arrays x).improving? tolCost cost.toArray k = t.improving? tolCost cost k := by
  unfold ArrayTableau.improving? improving?
  rw [statusOf_arrays]
  cases t.place.get k with
  | basic r => rfl
  | nonbasic rest =>
    dsimp only [Place.status]
    rw [reducedCost_arrays]
    cases rest <;> rfl

theorem entering_arrays (tolCost : α) (cost : Vector α (m + n)) :
    (t.arrays x).entering tolCost cost.toArray
      = (t.entering tolCost cost).map fun e => (e.1.val, e.2) := by
  unfold ArrayTableau.entering entering
  rw [numVars_arrays, ← List.map_coe_finRange_eq_range, List.findSome?_map, List.map_findSome?]
  congr 1
  funext k
  dsimp only [Function.comp]
  rw [improving?_arrays, Option.map_map]
  rfl

/-- A block with its basic variable. -/
def arrayBlock (t : Tableau α m n) (b : Block α m) : ArrayBlock α :=
  ⟨b.row, b.ratio, t.head.get b.row, b.leave⟩

theorem candidate_arrays (s : SimplexSettings α) (q : Fin (m + n)) (dir : Heading) (r : Fin m) :
    (t.arrays x).candidate s q dir r = (t.candidate s x q dir r).map t.arrayBlock := by
  unfold ArrayTableau.candidate candidate isBelow isAbove
  dsimp only
  rw [rate_arrays, headOf_arrays, valueOf_arrays, lowerOf_arrays, upperOf_arrays]
  simp only [decide_eq_true_eq, apply_ite (Option.map t.arrayBlock), Option.map_some,
    Option.map_none]
  rfl

theorem ratioTest_arrays (s : SimplexSettings α) (q : Fin (m + n)) (dir : Heading) :
    (t.arrays x).ratioTest s q dir = (t.ratioTest s x q dir).map t.arrayBlock := by
  unfold ArrayTableau.ratioTest ratioTest
  rw [numRows_arrays, foldl_range, List.foldl_filterMap]
  change List.foldl _ (Option.map t.arrayBlock none) _ = _
  apply List.foldl_hom (Option.map t.arrayBlock)
  intro best r
  rw [candidate_arrays]
  cases t.candidate s x q dir r with
  | none => rfl
  | some c =>
    cases best with
    | none => rfl
    | some b =>
      dsimp only [Option.map_some]
      rw [apply_ite (Option.map t.arrayBlock)]
      rfl

theorem move_arrays (s : SimplexSettings α) {q : Fin (m + n)} {rest : Resting}
    (hq : t.place.get q = .nonbasic rest) (dir : Heading) :
    (t.arrays x).move s q dir = (t.move s x q dir).map fun next => next.arrays x := by
  unfold ArrayTableau.move move
  dsimp only
  rw [ratioTest_arrays, lowerOf_arrays, upperOf_arrays, flip_arrays hq]
  cases t.ratioTest s x q dir with
  | none =>
    rw [apply_ite (Option.map _), Option.map_none, Option.all_none, Bool.and_true]
    rfl
  | some b =>
    rw [apply_ite (Option.map _), Option.map_some, Option.all_some]
    change (if _ then _ else some ((t.arrays x).pivot s.dropTol b.row q b.leave)) = _
    rw [pivot_arrays]
    rfl

theorem paired_move (ht : t.Paired) {s : SimplexSettings α} {q : Fin (m + n)} {rest : Resting}
    (hq : t.place.get q = .nonbasic rest) {dir : Heading} {next : Tableau α m n}
    (h : t.move s x q dir = some next) : next.Paired := by
  rcases move_cases h with ⟨-, rfl⟩ | ⟨r, b, -, rfl⟩
  · exact paired_flip ht hq dir.target
  · exact paired_pivot ht hq s.dropTol b.row b.leave

/-- How a run ends in memory. -/
def Run.arrays (r : Run α m n) : ArrayTableau.Ended α :=
  ⟨r.status, r.pivots, r.tableau.arrays r.tableau.values⟩

/-- A run takes the same steps in memory. -/
theorem iterate_arrays (ht : t.Paired) (s : SimplexSettings α) (objective : Array α)
    (remaining done : Nat) : (t.arrays x).iterate s objective remaining done
      = (t.iterate s objective remaining done).arrays := by
  induction remaining generalizing t x done with
  | zero =>
    unfold ArrayTableau.iterate iterate
    dsimp only
    rw [updateValues_arrays ht, cost_arrays ht, entering_arrays]
    cases t.entering s.tolCost (t.cost s.tolFeas objective t.values) with
    | none => rfl
    | some e => rfl
  | succ left ih =>
    unfold ArrayTableau.iterate iterate
    dsimp only
    rw [updateValues_arrays ht, cost_arrays ht, entering_arrays]
    cases henter : t.entering s.tolCost (t.cost s.tolFeas objective t.values) with
    | none => rfl
    | some e =>
      obtain ⟨q, dir⟩ := e
      obtain ⟨rest, hq⟩ := entering_eq_some henter
      dsimp only [Option.map_some]
      rw [move_arrays s hq]
      cases hmove : t.move s t.values q dir with
      | none => rfl
      | some next => exact ih (paired_move ht hq hmove) (done + 1)

end Tableau

end MixedInteger
