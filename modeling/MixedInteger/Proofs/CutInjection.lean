import MixedInteger.Cut.Pool
import MixedInteger.Proofs.RowAddition
import MixedInteger.Proofs.SolverStates

/-!
# Injecting cuts

A pool is asked to inject one of its cuts into a relaxation. If there is no such cut nothing
happens, and if the relaxation refuses the row nothing has happened. Otherwise the injection of this
cut is counted, and the relaxation has one more row, which says what the cut says: in exact
arithmetic a point passes the check of the new model exactly if it passed that of the old one and
satisfies the cut.

* `CutPool.inject_eq`: what an injection does;
* `CutPool.attempt`: an injection in place, with what it leaves behind also when it fails;
* `CutPool.Call`, `CutPool.performAll`: what can be asked of a pool, refusals included;
* `CutPool.Handled.Accounts`: the invariant; `CutPool.accounts_performAll`: it holds;
* `Model.isFeasible_addCut`: what the new row asks of a point;
* `CutPool.performAll_injects`: what every reachable pool does.
-/

namespace MixedInteger

open Exact hiding isFinite isNaN
open Scalar (isFinite isNaN)

namespace CutPool

variable {R α : Type}

/-! ## One injection -/

/-- Where the cut stands that an optional index means, the latest one if there is no index. -/
def position (p : CutPool α) (id : Option Nat) : Nat := id.getD (p.size - 1)

/-- The pool `p'` is `p` with one more injection of cut `i`. -/
structure Counts (p : CutPool α) (i : Nat) (p' : CutPool α) : Prop where
  counted : ∀ c, p.cuts[i]? = some c →
    p'.cuts[i]? = some { c with timesInjected := c.timesInjected + 1 }
  others : ∀ j, j ≠ i → p'.cuts[j]? = p.cuts[j]?
  size : p'.size = p.size
  totalAdded : p'.totalAdded = p.totalAdded
  totalInjected : p'.totalInjected = p.totalInjected + 1

theorem counts_countInjection (p : CutPool α) (i : Nat) : p.Counts i (p.countInjection i) where
  counted c hc := by simp [countInjection, Array.getElem?_modify, hc]
  others j hj := by simp [countInjection, Array.getElem?_modify, hj.symm]
  size := size_countInjection p i
  totalAdded := rfl
  totalInjected := rfl

/-- The cuts themselves stay. -/
theorem Counts.map_cut {p p' : CutPool α} {i : Nat} (h : p.Counts i p') :
    p'.cuts.toList.map PooledCut.cut = p.cuts.toList.map PooledCut.cut := by
  apply List.ext_getElem?
  intro j
  rw [List.getElem?_map, List.getElem?_map, Array.getElem?_toList, Array.getElem?_toList]
  by_cases hj : j = i
  · subst hj
    cases hc : p.cuts[j]? with
    | none =>
      have hsize : p'.cuts.size ≤ j := h.size.trans_le (Array.getElem?_eq_none_iff.mp hc)
      rw [Array.getElem?_eq_none hsize]
    | some c =>
      rw [h.counted c hc]
      rfl
  · rw [h.others j hj]

variable {p : CutPool α} {id : Option Nat}

/-- There is no such cut. -/
theorem getElem?_position_eq_none_iff : p.cuts[p.position id]? = none ↔
    (∀ i, id = some i → p.size ≤ i) ∧ (id = none → p.size = 0) := by
  rw [Array.getElem?_eq_none_iff]
  change p.size ≤ _ ↔ _
  cases id with
  | some i => simp [position]
  | none =>
    simp only [position, Option.getD_none, reduceCtorEq, false_implies, implies_true, true_and,
      forall_const]
    omega

/-- The index is looked up once, and what follows is the answer of the relaxation. -/
theorem inject_eq [Relaxation R α] (p : CutPool α) (oracle : R) (id : Option Nat) :
    p.inject oracle id =
      match p.cuts[p.position id]? with
      | none => .ok (none, p, oracle)
      | some c => (Relaxation.addRow oracle c.cut.coefficients c.cut.lowerBound).map
          fun added => (some added.1, p.countInjection (p.position id), added.2) := by
  have hresolve : p.resolve? id = some (p.position id) ∨
      p.resolve? id = none ∧ p.cuts[p.position id]? = none := by
    cases id with
    | some i => exact .inl rfl
    | none =>
      by_cases hempty : p.size = 0
      · exact .inr ⟨if_pos hempty, getElem?_position_eq_none_iff.mpr ⟨nofun, fun _ => hempty⟩⟩
      · exact .inl (if_neg hempty)
  unfold inject
  rcases hresolve with hsome | ⟨hnone, hmissing⟩
  · rw [hsome]
    dsimp only
    cases p.cuts[p.position id]? with
    | none => rfl
    | some c =>
      dsimp only
      cases Relaxation.addRow oracle c.cut.coefficients c.cut.lowerBound <;> rfl
  · rw [hnone, hmissing]

/-! ## Injections in place -/

section InPlace

variable {R α : Type} [Relaxation R α]

/-- An injection that changes the pool and the relaxation where they are. What has been changed
before an error stays changed. -/
def injectInPlace (id : Option Nat) :
    StateM (CutPool α × R) (Except (ModelError α) (Option Nat)) := do
  let (p, oracle) ← get
  let some i := p.resolve? id | return .ok none
  let some pooled := p.cuts[i]? | return .ok none
  match Relaxation.addRow oracle pooled.cut.coefficients pooled.cut.lowerBound with
  | .error e => return .error e
  | .ok (row, oracle) =>
    set (p, oracle)
    modify fun (p, oracle) => (p.countInjection i, oracle)
    return .ok (some row)

/-- The outcome of an injection in place, with the pool and the relaxation after it. -/
def attempt (p : CutPool α) (oracle : R) (id : Option Nat) :
    Except (ModelError α) (Option Nat) × CutPool α × R :=
  (injectInPlace id).run (p, oracle)

/-- Nothing has been changed before an error. -/
theorem attempt_eq (p : CutPool α) (oracle : R) (id : Option Nat) :
    p.attempt oracle id =
      match p.inject oracle id with
      | .ok (row, p', oracle') => (.ok row, p', oracle')
      | .error e => (.error e, p, oracle) := by
  unfold attempt inject injectInPlace
  rw [StateT.run_bind, StateT.run_get, pure_bind]
  dsimp only
  cases p.resolve? id with
  | none => rfl
  | some i =>
    dsimp only
    cases p.cuts[i]? with
    | none => rfl
    | some pooled =>
      dsimp only
      cases Relaxation.addRow oracle pooled.cut.coefficients pooled.cut.lowerBound <;> rfl

theorem inject_eq_attempt (p : CutPool α) (oracle : R) (id : Option Nat) :
    p.inject oracle id
      = (p.attempt oracle id).1.map fun row => (row, (p.attempt oracle id).2) := by
  rw [attempt_eq]
  cases p.inject oracle id <;> rfl

end InPlace

/-! ## Injections into a solver -/

section Solvers

variable {α : Type} [Scalar α] {p : CutPool α} {solver : Simplex α} {id : Option Nat}

/-- There is no such cut, or its row is refused, or it becomes the last row of the model. -/
theorem attempt_cases (p : CutPool α) (solver : Simplex α) (id : Option Nat) :
    (p.cuts[p.position id]? = none ∧ p.attempt solver id = (.ok none, p, solver)) ∨
    ∃ c, p.cuts[p.position id]? = some c ∧
      ((∃ e, Relaxation.addRow solver c.cut.coefficients c.cut.lowerBound = .error e ∧
          p.attempt solver id = (.error e, p, solver)) ∨
        ∃ m, solver.model.addRow c.cut.coefficients.terms c.cut.lowerBound Scalar.posInf = .ok m ∧
          Relaxation.addRow solver c.cut.coefficients c.cut.lowerBound
            = .ok (solver.model.numRows, solver.withModel m) ∧
          p.attempt solver id = (.ok (some solver.model.numRows),
            p.countInjection (p.position id), solver.withModel m)) := by
  rw [attempt_eq, inject_eq]
  cases p.cuts[p.position id]? with
  | none => exact .inl ⟨rfl, rfl⟩
  | some c =>
    refine .inr ⟨c, rfl, ?_⟩
    dsimp only
    rw [Simplex.relaxation_addRow]
    cases solver.model.addRow c.cut.coefficients.terms c.cut.lowerBound Scalar.posInf with
    | error e => exact .inl ⟨e, rfl, rfl⟩
    | ok m => exact .inr ⟨m, rfl, rfl, rfl⟩

theorem attempt_eq_none_iff : (p.attempt solver id).1 = .ok none ↔
    (∀ i, id = some i → p.size ≤ i) ∧ (id = none → p.size = 0) := by
  rw [← getElem?_position_eq_none_iff]
  rcases attempt_cases p solver id with ⟨hnone, h⟩ | ⟨c, hc, ⟨e, -, h⟩ | ⟨m, -, -, h⟩⟩
  · simp [h, hnone]
  · simp [h, hc]
  · simp [h, hc]

theorem attempt_eq_error_iff {e : ModelError α} : (p.attempt solver id).1 = .error e ↔
    ∃ c, p.cuts[p.position id]? = some c ∧
      Relaxation.addRow solver c.cut.coefficients c.cut.lowerBound = .error e := by
  rcases attempt_cases p solver id with ⟨hnone, h⟩ | ⟨c, hc, ⟨e', hadd, h⟩ | ⟨m, -, hadd, h⟩⟩
  · simp [h, hnone]
  · simp [h, hc, hadd]
  · simp [h, hc, hadd]

/-- Without a new row nothing changes. -/
theorem attempt_unchanged (h : ∀ row, (p.attempt solver id).1 ≠ .ok (some row)) :
    (p.attempt solver id).2 = (p, solver) := by
  rcases attempt_cases p solver id with ⟨-, hnone⟩ | ⟨c, -, ⟨e, -, herror⟩ | ⟨m, -, -, hrow⟩⟩
  · rw [hnone]
  · rw [herror]
  · exact absurd (by rw [hrow]) (h solver.model.numRows)

theorem attempt_added {row : Nat} (h : (p.attempt solver id).1 = .ok (some row)) :
    ∃ c m, p.cuts[p.position id]? = some c ∧
      solver.model.addRow c.cut.coefficients.terms c.cut.lowerBound Scalar.posInf = .ok m ∧
      row = solver.model.numRows ∧
      (p.attempt solver id).2 = (p.countInjection (p.position id), solver.withModel m) := by
  rcases attempt_cases p solver id with ⟨-, hnone⟩ | ⟨c, hc, ⟨e, -, herror⟩ | ⟨m, hm, -, hrow⟩⟩
  · rw [hnone] at h
    cases h
  · rw [herror] at h
    cases h
  · rw [hrow] at h ⊢
    cases h
    exact ⟨c, m, hc, hm, rfl, rfl⟩

/-! ## Calls -/

/-- What can be asked of a pool. Each injection may go to another solver, in any state. -/
inductive Call (α : Type) [Scalar α] where
  | add (cut : Cut α)
  | inject (solver : Simplex α) (id : Option Nat)

/-- The cut that a call adds. -/
def Call.added? : Call α → Option (Cut α)
  | .add cut => some cut
  | .inject .. => none

/-- A pool, and the positions of the cuts that were injected one after the other. -/
structure Handled (α : Type) where
  pool : CutPool α
  injected : List Nat

namespace Handled

def perform (s : Handled α) : Call α → Handled α
  | .add cut => { s with pool := s.pool.add cut }
  | .inject solver id =>
    match s.pool.attempt solver id with
    | (.ok (some _), pool, _) => ⟨pool, s.injected ++ [s.pool.position id]⟩
    | (_, pool, _) => { s with pool := pool }

/-- The pool has the cuts that it was given, in their order, each with its position and the number
of its injections, and the totals agree. -/
structure Accounts (s : Handled α) (given : List (Cut α)) : Prop where
  cuts : s.pool.cuts.toList.map PooledCut.cut = given
  entries : ∀ i c, s.pool.cuts[i]? = some c → c.id = i ∧ c.timesInjected = s.injected.count i
  known : ∀ i ∈ s.injected, i < s.pool.size
  totalAdded : s.pool.totalAdded = given.length
  totalInjected : s.pool.totalInjected = s.injected.length

variable {s : Handled α} {given : List (Cut α)}

theorem Accounts.add (hs : s.Accounts given) (cut : Cut α) :
    (s.perform (.add cut)).Accounts (given ++ [cut]) := by
  constructor
  case cuts =>
    change ((s.pool.cuts.push _).toList.map PooledCut.cut) = _
    rw [Array.toList_push, List.map_append, hs.cuts]
    rfl
  case entries =>
    intro i c hc
    change (s.pool.cuts.push _)[i]? = some c at hc
    rw [Array.getElem?_push] at hc
    split at hc
    · rename_i hi
      cases hc
      -- What has just come was not injected before.
      have hfresh : s.pool.size ∉ s.injected := fun h => Nat.lt_irrefl _ (hs.known _ h)
      exact ⟨hi.symm, by rw [hi]; exact (List.count_eq_zero.mpr hfresh).symm⟩
    · exact hs.entries i c hc
  case known =>
    intro i hi
    change i < (s.pool.add cut).size
    rw [size_add]
    exact Nat.lt_succ_of_lt (hs.known i hi)
  case totalAdded =>
    change s.pool.totalAdded + 1 = _
    rw [hs.totalAdded, List.length_append]
    rfl
  case totalInjected => exact hs.totalInjected

omit [Scalar α] in
/-- One more injection is counted. -/
theorem Accounts.count (hs : s.Accounts given) {i : Nat} (hi : i < s.pool.size) :
    (Handled.mk (s.pool.countInjection i) (s.injected ++ [i])).Accounts given := by
  have hcounts := counts_countInjection s.pool i
  constructor
  case cuts => exact hcounts.map_cut.trans hs.cuts
  case entries =>
    intro j c hc
    change (s.pool.countInjection i).cuts[j]? = some c at hc
    rw [List.count_append, List.count_singleton]
    by_cases hj : j = i
    · subst hj
      have hold := Array.getElem?_eq_getElem hi
      rw [hcounts.counted _ hold] at hc
      cases hc
      obtain ⟨hid, htimes⟩ := hs.entries j _ hold
      exact ⟨hid, by simp [htimes]⟩
    · rw [hcounts.others j hj] at hc
      obtain ⟨hid, htimes⟩ := hs.entries j c hc
      exact ⟨hid, by simp [htimes, Ne.symm hj]⟩
  case known =>
    intro j hj
    change j < (s.pool.countInjection i).size
    rw [hcounts.size]
    rcases List.mem_append.mp hj with hj | hj
    · exact hs.known j hj
    · exact List.mem_singleton.mp hj ▸ hi
  case totalAdded => exact hcounts.totalAdded.trans hs.totalAdded
  case totalInjected =>
    rw [List.length_append]
    exact hcounts.totalInjected.trans (congrArg (· + 1) hs.totalInjected)

theorem Accounts.inject (hs : s.Accounts given) (solver : Simplex α) (id : Option Nat) :
    (s.perform (.inject solver id)).Accounts given := by
  unfold perform
  dsimp only
  rcases attempt_cases s.pool solver id with
    ⟨-, h⟩ | ⟨c, hc, ⟨e, -, h⟩ | ⟨m, -, -, h⟩⟩
  · rw [h]
    exact hs
  · rw [h]
    exact hs
  · rw [h]
    exact hs.count (Array.getElem?_eq_some_iff.mp hc).1

theorem Accounts.perform (hs : s.Accounts given) (c : Call α) :
    (s.perform c).Accounts (given ++ c.added?.toList) := by
  cases c with
  | add cut => exact hs.add cut
  | inject solver id => simpa [Call.added?] using hs.inject solver id

end Handled

/-- Any calls on an empty pool. -/
def performAll (calls : List (Call α)) : Handled α := calls.foldl Handled.perform ⟨empty, []⟩

/-- The cuts that calls add, in their order. -/
def added (calls : List (Call α)) : List (Cut α) := calls.filterMap Call.added?

theorem accounts_performAll (calls : List (Call α)) :
    (performAll calls).Accounts (added calls) := by
  suffices hfold : ∀ (s : Handled α) (given : List (Cut α)), s.Accounts given →
      (calls.foldl Handled.perform s).Accounts (given ++ added calls) by
    exact hfold ⟨empty, []⟩ [] ⟨rfl, nofun, nofun, rfl, rfl⟩
  induction calls with
  | nil =>
    intro s given hs
    simpa [added] using hs
  | cons c rest ih =>
    intro s given hs
    have hadded : added (c :: rest) = c.added?.toList ++ added rest := by
      cases c <;> rfl
    rw [List.foldl_cons, hadded, ← List.append_assoc]
    exact ih _ _ (hs.perform c)

end Solvers

end CutPool

/-! ## What the new row asks for -/

/-- A point satisfies a cut if it does not fall short of it by more than the tolerance. -/
theorem Cut.isSatisfied_iff {cut : Cut Exact} (hfin : Sparse.Finite cut.coefficients.terms)
    {x : Point Exact} (hx : x.IsRational) (hdim : cut.coefficients.dim ≤ x.size) {tol : Exact} :
    cut.isSatisfied x tol = true ↔
      cut.lowerBound - .fin (Sparse.value cut.coefficients.terms x.rat) ≤ tol := by
  simp [isSatisfied, violation?, activity?, hdim, Sparse.dot_eq hfin hx]

namespace Model

/-- Lying above a bound, give or take a tolerance, is not falling short of it by more. -/
theorem withinRange_above {lower tol : Exact} (hlower : lower < .posInf) (htol : 0 ≤ tol) (v : ℚ) :
    withinRange (lower, .posInf) tol (.fin v) = true ↔ lower - .fin v ≤ tol := by
  rw [withinRange_iff]
  cases tol with
  | undefined => cases htol
  | negInf => cases htol
  | fin z =>
    have htop : Exact.fin v ≤ Exact.posInf + .fin z := rfl
    cases lower with
    | undefined => cases hlower
    | posInf => cases hlower
    | negInf => exact iff_of_true ⟨rfl, htop⟩ rfl
    | fin q =>
      simp only [fin_sub, fin_le, htop, and_true]
      exact sub_le_comm
  | posInf =>
    have htop : Exact.fin v ≤ Exact.posInf + .posInf := rfl
    cases lower with
    | undefined => cases hlower
    | posInf => cases hlower
    | negInf => exact iff_of_true ⟨rfl, htop⟩ rfl
    | fin q => exact iff_of_true ⟨rfl, htop⟩ rfl

/-- The row of a cut asks of a point what the cut asks. -/
theorem isFeasible_addCut {m m' : Model Exact} (hm : m.Shaped) {cut : Cut Exact}
    (h : m.addRow cut.coefficients.terms cut.lowerBound .posInf = .ok m')
    (hdim : cut.coefficients.dim ≤ m.numCols) {x : Point Exact} (hx : x.IsRational)
    (hsize : x.size = m.numCols) {tol : Exact} (htol : 0 ≤ tol) :
    m'.isFeasible x tol = true ↔ m.isFeasible x tol = true ∧ cut.isSatisfied x tol = true := by
  obtain ⟨hterms, hrange, -⟩ := addRow_ok h
  have hfin := (checkTerms_ok hterms).2
  have hlower := (checkRange_ok hrange).1
  rw [isFeasible_addRow hm.lines hm.rowUpper h, Sparse.dot_eq (Sparse.finite_normalize hfin) hx,
    Sparse.value_normalize _ hfin, withinRange_above hlower htol,
    Cut.isSatisfied_iff hfin hx (hsize ▸ hdim)]

end Model

namespace CutPool

/-- A pool after any calls has the cuts that were added, in their order, with the numbers of their
injections. Asked for a cut that it does not have, it does nothing. If the solver refuses the row
the pool passes its error on, and both are as before. Otherwise the row comes after the others, and
one more injection of this cut is counted and nothing else. In exact arithmetic a point passes the
check of the new model exactly if it passed that of the old one and satisfies the cut. -/
theorem performAll_injects :
    (∀ (α : Type) [Scalar α] (calls : List (Call α)) (solver : Simplex α) (id : Option Nat),
      let s := performAll calls
      let p := s.pool
      let after := p.attempt solver id
      s.Accounts (added calls) ∧ p.inject solver id = after.1.map (fun row => (row, after.2)) ∧
      (after.1 = .ok none ↔ (∀ i, id = some i → p.size ≤ i) ∧ (id = none → p.size = 0)) ∧
      (after.1 = .ok none → after.2 = (p, solver)) ∧
      (∀ e, after.1 = .error e ↔ ∃ c, p.cuts[p.position id]? = some c ∧
        Relaxation.addRow solver c.cut.coefficients c.cut.lowerBound = .error e) ∧
      (∀ e, after.1 = .error e → after.2 = (p, solver)) ∧
      ∀ row, after.1 = .ok (some row) → row = solver.model.numRows ∧
        p.Counts (p.position id) after.2.1 ∧ after.2.2.model.numRows = solver.model.numRows + 1) ∧
    ∀ (calls : List (Call Exact)) (solver : Simplex Exact) (id : Option Nat) (row : Nat)
      (c : PooledCut Exact),
      let p := (performAll calls).pool
      let after := p.attempt solver id
      after.1 = .ok (some row) → p.cuts[p.position id]? = some c → solver.model.Shaped →
      c.cut.coefficients.dim ≤ solver.model.numCols →
      ∀ x : Point Exact, x.IsRational → x.size = solver.model.numCols → ∀ tol, 0 ≤ tol →
        (after.2.2.model.isFeasible x tol = true ↔
          solver.model.isFeasible x tol = true ∧ c.cut.isSatisfied x tol = true) := by
  constructor
  · intro α _ calls solver id s p after
    refine ⟨accounts_performAll calls, inject_eq_attempt p solver id, attempt_eq_none_iff,
      fun h => ?_, fun _ => attempt_eq_error_iff, fun e h => ?_, fun row h => ?_⟩
    · exact attempt_unchanged fun row hrow => by cases h.symm.trans hrow
    · exact attempt_unchanged fun row hrow => by cases h.symm.trans hrow
    · obtain ⟨c, m, -, hm, hrow, hafter⟩ := attempt_added h
      rw [hafter]
      exact ⟨hrow, counts_countInjection p _, Model.numRows_addRow hm⟩
  · intro calls solver id row c p after h hc hshaped hdim x hx hsize tol htol
    obtain ⟨c', m, hc', hm, -, hafter⟩ := attempt_added h
    cases hc.symm.trans hc'
    rw [hafter]
    exact Model.isFeasible_addCut hshaped hm hdim hx hsize htol

/-- The cut `x₀ + x₁ ≤ 3`. -/
def below : Cut Exact := ⟨⟨2, [(0, .fin (-1)), (1, .fin (-1))]⟩, .fin (-3), .user⟩

/-- A cut of a column that a model with two columns does not have. -/
def beyond : Cut Exact := ⟨⟨3, [(2, 1)]⟩, 0, .user⟩

/-- Two cuts are added. The first is injected, and the second is refused. -/
def twoAdded : List (Call Exact) :=
  [.add below, .inject (.ofModel .triangle) none, .add beyond,
    .inject (.ofModel .triangle) none]

/-- There is no cut 5, and the latest one is refused again. With the row of `below` the point
`(2, 2)` is cut off, and `(1, 5/2)` is not because of the tolerance. -/
theorem performAll_injects_twoAdded :
    let p := (performAll twoAdded).pool
    let solver : Simplex Exact := .ofModel .triangle
    p.size = 2 ∧ p.totalInjected = 1 ∧
    (p.attempt solver (some 5)).1 = .ok none ∧ (p.attempt solver (some 5)).2 = (p, solver) ∧
    (p.attempt solver none).1 = .error (.columnOutOfRange 2 2) ∧
    (p.attempt solver none).2 = (p, solver) ∧
    (p.attempt solver (some 0)).1 = .ok (some 1) ∧
    p.Counts 0 (p.attempt solver (some 0)).2.1 ∧
    (p.attempt solver (some 0)).2.2.model.isFeasible #[1, .fin (5 / 2)] (.fin (1 / 2)) = true ∧
    (p.attempt solver (some 0)).2.2.model.isFeasible #[.fin 2, .fin 2] (.fin (1 / 2)) = false := by
  intro p solver
  obtain ⟨hpool, hpoint⟩ := performAll_injects
  have hmissing : (p.attempt solver (some 5)).1 = .ok none := rfl
  have hrefused : (p.attempt solver none).1 = .error (.columnOutOfRange 2 2) := rfl
  have hadded : (p.attempt solver (some 0)).1 = .ok (some 1) := rfl
  obtain ⟨-, -, -, hnone, -⟩ := hpool Exact twoAdded solver (some 5)
  obtain ⟨-, -, -, -, -, herror, -⟩ := hpool Exact twoAdded solver none
  obtain ⟨-, -, -, -, -, -, hcounts⟩ := hpool Exact twoAdded solver (some 0)
  have hfeasible (x : Point Exact) (hx : x.IsRational) (hsize : x.size = 2) :=
    hpoint twoAdded solver (some 0) 1 ⟨below, 0, 1⟩ hadded rfl Model.built_triangle.shaped
      (Nat.le_refl 2) x hx hsize (.fin (1 / 2)) (by decide +kernel)
  refine ⟨rfl, rfl, hmissing, hnone hmissing, hrefused, herror _ hrefused, hadded,
    (hcounts 1 hadded).2.1, ?_, ?_⟩
  · rw [hfeasible _ (Point.isRational_of_lt (by decide)) rfl]
    decide +kernel
  · rw [Bool.eq_false_iff, Ne, hfeasible _ (Point.isRational_of_lt (by decide)) rfl]
    decide +kernel

end CutPool

end MixedInteger
