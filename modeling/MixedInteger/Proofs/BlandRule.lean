import MixedInteger.Proofs.SimplexStep

/-!
# Bland's rule

A step that moves the point makes progress, so a run that comes back to a tableau has stood still.
While it stands still the entering variable and the leaving one are those of smallest index, and a
closed run of such steps would need a variable of larger index than the largest that changes.

* `Tableau.shape`: the basis and where the other variables rest;
* `Tableau.Strides.conflict`: what a variable that leaves at one step and enters at another implies;
* `Tableau.Cycle.len_eq_zero`: no run of steps that take no time is closed;
* `Tableau.heads`: the tableaux of a run;
* `Simplex.run_meets_no_shape_twice`: the heads of a run have different shapes, so it ends.
-/

namespace MixedInteger

open Exact hiding isFinite isNaN
open Scalar (isFinite isNaN)

namespace Tableau

/-! ## Shapes -/

section Shape

variable {α : Type} [Scalar α] {m n : Nat}

/-- Where a variable rests, none if it is basic: the basis and the places of the other variables,
without the rows and the entries. -/
def shape (t : Tableau α m n) (k : Fin (m + n)) : Option Resting :=
  match t.place.get k with
  | .basic _ => none
  | .nonbasic rest => some rest

omit [Scalar α] in
theorem shape_eq_some {t : Tableau α m n} {k : Fin (m + n)} {rest : Resting} :
    t.shape k = some rest ↔ t.place.get k = .nonbasic rest := by
  unfold shape
  cases t.place.get k with
  | basic r => simp
  | nonbasic rest' => simp

omit [Scalar α] in
theorem shape_eq_none {t : Tableau α m n} {k : Fin (m + n)} :
    t.shape k = none ↔ ∃ r, t.place.get k = .basic r := by
  unfold shape
  cases t.place.get k with
  | basic r => simp
  | nonbasic rest => simp

/-- After a pivot the entering variable is basic, and the leaving one rests. -/
theorem shape_pivot (t : Tableau Exact m n) (p : Fin m) (q k : Fin (m + n)) (leave : Resting) :
    ((t.pivot 0 p q leave).shape k = none ↔
      k = q ∨ (k ≠ t.head.get p ∧ t.shape k = none)) := by
  unfold shape
  rw [place_pivot]
  by_cases hq : k = q
  · simp [hq]
  · rw [if_neg hq]
    by_cases hhead : k = t.head.get p
    · rw [if_pos hhead]
      constructor
      · intro h
        cases h
      · rintro (heq | ⟨hne, -⟩)
        · exact absurd heq hq
        · exact absurd hhead hne
    · simp [hq, hhead]

end Shape

section Still

variable {model : Model Exact} {t t' u u' : Tableau Exact model.numRows model.numCols}
  {e q : Fin (model.numRows + model.numCols)} {dir dir' : Heading}

/-- The shape determines the point. -/
theorem point_eq_of_shape (ht : t.Sound) (hu : u.Sound) (h : t.shape = u.shape) :
    t.point = u.point := by
  apply eq_point hu ht.point_solves
  intro k rest hk
  have hk' : t.place.get k = .nonbasic rest := by
    rw [← shape_eq_some, h, shape_eq_some]
    exact hk
  exact Exact.fin.inj ((ht.resting_value hk').symm.trans (hu.resting_value hk))

/-- A variable is basic before a step that takes no time and not after it: it is the one that is
stuck and has the smallest index of those. -/
theorem Strides.leaving (h : t.Strides e dir 0 t') (hbefore : t.shape q = none)
    (hafter : t'.shape q ≠ none) :
    IsStuck (model.varRange q) (t.point q) (t.velocity e dir q) ∧
      ∀ r, IsStuck (model.varRange (t.head.get r)) (t.point (t.head.get r))
        (t.velocity e dir (t.head.get r)) → q ≤ t.head.get r := by
  obtain ⟨r, leave, rfl, hstuck, hfirst⟩ := h.leaves rfl
  have hhead : q = t.head.get r := by
    by_contra hne
    exact hafter ((shape_pivot t r e q leave).mpr (.inr ⟨hne, hbefore⟩))
  rw [hhead]
  exact ⟨hstuck, hfirst⟩

/-- A variable that is basic only after such a step is the entering one. -/
theorem Strides.entering (h : t.Strides e dir 0 t') (hbefore : t.shape q ≠ none)
    (hafter : t'.shape q = none) : q = e := by
  obtain ⟨r, leave, rfl, -⟩ := h.leaves rfl
  rcases (shape_pivot t r e q leave).mp hafter with heq | ⟨-, hbasic⟩
  · exact heq
  · exact absurd hbasic hbefore

theorem Strides.entered (h : t.Strides e dir 0 t') : t.shape e ≠ none ∧ t'.shape e = none := by
  obtain ⟨rest, he, -⟩ := h.enters.resting
  obtain ⟨r, leave, rfl, -⟩ := h.leaves rfl
  refine ⟨?_, (shape_pivot t r e e leave).mpr (.inl rfl)⟩
  rw [shape_eq_some.mpr he]
  exact Option.some_ne_none rest

/-- Of two ways to write what a direction gains, the one by the resting variables of another tableau
has a positive term. -/
theorem exists_gain (ht : t.Sound) (hu : u.Sound) {c : Fin (model.numRows + model.numCols) → ℚ}
    {rest : Resting} (he : t.place.get e = .nonbasic rest) (hpays : 0 < t.reduced c e * dir.sign) :
    ∃ k rest', u.place.get k = .nonbasic rest' ∧ 0 < u.reduced c k * t.velocity e dir k := by
  have hsolves := (hu.solves _).mpr ((ht.solves _).mp
    (solves_velocity ht.canonical he dir))
  have hsum := sum_cost hu.canonical hsolves c
  rw [sum_velocity ht.canonical he] at hsum
  by_contra hnone
  push Not at hnone
  have hle : (u.restingSum fun k => u.reduced c k * t.velocity e dir k) ≤ 0 := by
    apply Finset.sum_nonpos
    intro k _
    cases hk : u.place.get k with
    | basic r => simp [Place.isBasic]
    | nonbasic rest' => simpa [Place.isBasic] using hnone k rest' hk
  linarith

/-- At one point `q` leaves in one tableau and enters in another. Then a variable of larger index
rests in the latter and is basic in the former, or enters there. -/
theorem Strides.conflict (ht : t.Poised) (hu : u.Poised) (hpoint : t.point = u.point)
    (hout : t.Strides e dir 0 t') (hin : u.Strides q dir' 0 u') (hbefore : t.shape q = none)
    (hafter : t'.shape q ≠ none) :
    ∃ k, q < k ∧ (k = e ∨ t.shape k = none) ∧ u.shape k ≠ none := by
  obtain ⟨rest, he, hdir⟩ := hout.enters.resting
  obtain ⟨rest', hq, hdir'⟩ := hin.enters.resting
  obtain ⟨hstuck, hsmallest⟩ := hout.leaving hbefore hafter
  have hpays := hin.enters.pays
  have hfirst := hin.enters.first
  rw [← hpoint] at hpays hfirst
  obtain ⟨k, restk, hk, hgain⟩ := exists_gain ht.sound hu.sound he hout.enters.pays
  have hfits := hu.sound.resting_fits hk
  have hvalue := hu.sound.resting_value hk
  rw [← hpoint] at hvalue
  have hmoves : t.velocity e dir k ≠ 0 := by
    intro hzero
    rw [hzero, mul_zero] at hgain
    exact lt_irrefl 0 hgain
  have hchanges : k = e ∨ t.shape k = none := by
    cases hplace : t.place.get k with
    | basic r => exact .inr (shape_eq_none.mpr ⟨r, hplace⟩)
    | nonbasic rest'' =>
      rw [velocity_resting hplace] at hmoves
      exact .inl (by_contra fun hne => hmoves (if_neg hne))
  refine ⟨k, ?_, hchanges, by rw [shape_eq_some.mpr hk]; exact Option.some_ne_none _⟩
  by_contra hle
  rcases (not_lt.mp hle).lt_or_eq with hlt | rfl
  · -- `k` could have entered before `q`, so it is stuck, but only `q` or larger indices are.
    obtain ⟨hup, hdown⟩ := hfirst k hlt restk hk
    have hstuckk : IsStuck (model.varRange k) (t.point k) (t.velocity e dir k) := by
      apply hfits.isStuck hvalue hmoves
      · intro hpos hallows
        exact absurd hgain (mul_nonpos_of_nonpos_of_nonneg (hup hallows) hpos.le).not_gt
      · intro hneg hallows
        exact absurd hgain (mul_nonpos_of_nonneg_of_nonpos (hdown hallows) hneg.le).not_gt
    rcases hchanges with rfl | hbasic
    · have hopen := ht.isOpen k rest he hdir.ne_fixed
      have hsign : 0 < t.velocity k dir k * dir.sign := by
        rw [velocity_resting he, if_pos rfl]
        exact mul_self_pos.mpr dir.sign_ne_zero
      exact (ht.sound.resting_fits he).not_isStuck hopen hdir (ht.sound.resting_value he) hsign
        hstuckk
    · obtain ⟨r, hr⟩ := shape_eq_none.mp hbasic
      have hhead := ht.sound.canonical.head_place k r hr
      have hle' := hsmallest r (by rwa [hhead])
      rw [hhead] at hle'
      exact absurd hlt hle'.not_gt
  · -- `q` moves in the direction in which it enters, so it is not stuck.
    rw [hq] at hk
    cases hk
    have hopen := hu.isOpen k rest' hq hdir'.ne_fixed
    have hsign : 0 < t.velocity e dir k * dir'.sign := by
      have hprod := mul_pos hgain hpays
      rw [mul_mul_mul_comm] at hprod
      exact pos_of_mul_pos_right hprod (mul_self_nonneg _)
    exact hfits.not_isStuck hopen hdir' hvalue hsign hstuck

/-! ## Closed runs -/

/-- A point is as good after a step as before, and better unless the step takes no time. -/
theorem Strides.merit_le (hint : HasIntervals model) (ht : t.Canonical) {θ : ℚ}
    (h : t.Strides e dir θ t') : model.merit t.point ≤ model.merit t'.point ∧
      (model.merit t'.point ≤ model.merit t.point → θ = 0) := by
  rcases h.nonneg.lt_or_eq with hpos | rfl
  · have hlt := h.merit_lt hint ht hpos
    exact ⟨hlt.le, fun hle => absurd hlt hle.not_gt⟩
  · have hsame : t'.point = t.point := by
      funext k
      rw [h.point k, zero_mul, add_zero]
    rw [hsame]
    exact ⟨le_rfl, fun _ => rfl⟩

/-- Steps that take no time, after which the shape is the one that it was before them. -/
structure Cycle (tab : Nat → Tableau Exact model.numRows model.numCols) (len : Nat) : Prop where
  poised : ∀ i ≤ len, (tab i).Poised
  still : ∀ i < len, ∃ q dir, (tab i).Strides q dir 0 (tab (i + 1))
  closes : (tab 0).shape = (tab len).shape

/-- A run that comes back to a shape has stood still. -/
theorem cycle_of_shape (hint : HasIntervals model)
    (tab : Nat → Tableau Exact model.numRows model.numCols) {len : Nat}
    (hpoised : ∀ i ≤ len, (tab i).Poised)
    (hstep : ∀ i < len, ∃ q dir θ, (tab i).Strides q dir θ (tab (i + 1)))
    (hshape : (tab 0).shape = (tab len).shape) : Cycle tab len := by
  have hmono (i j : Nat) (hij : i ≤ j) (hj : j ≤ len) :
      model.merit (tab i).point ≤ model.merit (tab j).point := by
    induction j, hij using Nat.le_induction with
    | base => exact le_rfl
    | succ j hij ih =>
      obtain ⟨q, dir, θ, h⟩ := hstep j (by omega)
      exact (ih (by omega)).trans (h.merit_le hint (hpoised j (by omega)).sound.canonical).1
  have hpoint := point_eq_of_shape (hpoised 0 (by omega)).sound (hpoised len le_rfl).sound hshape
  refine ⟨hpoised, ?_, hshape⟩
  intro i hi
  obtain ⟨q, dir, θ, h⟩ := hstep i hi
  have hback : model.merit (tab (i + 1)).point ≤ model.merit (tab i).point :=
    calc model.merit (tab (i + 1)).point ≤ model.merit (tab len).point :=
          hmono (i + 1) len (by omega) le_rfl
      _ = model.merit (tab 0).point := by rw [hpoint]
      _ ≤ model.merit (tab i).point := hmono 0 i (by omega) (by omega)
  have hzero := (h.merit_le hint (hpoised i hi.le).sound.canonical).2 hback
  subst hzero
  exact ⟨q, dir, h⟩

/-- What holds at one time and fails at a later one stops holding in between. -/
theorem exists_change {p : Nat → Prop} {i j : Nat} (hij : i ≤ j) (hi : p i) (hj : ¬ p j) :
    ∃ k, i ≤ k ∧ k < j ∧ p k ∧ ¬ p (k + 1) := by
  induction j, hij using Nat.le_induction with
  | base => exact absurd hi hj
  | succ j hij ih =>
    by_cases hmid : p j
    · exact ⟨j, hij, Nat.lt_succ_self j, hmid, hj⟩
    · obtain ⟨k, hik, hkj, hk, hk'⟩ := ih hmid
      exact ⟨k, hik, hkj.trans (Nat.lt_succ_self j), hk, hk'⟩

/-- On a closed run what holds at some time and fails at another stops holding at some step. -/
theorem exists_change_of_closed {p : Nat → Prop} {len i j : Nat} (hclosed : p 0 ↔ p len)
    (hi : i ≤ len) (hj : j ≤ len) (hpi : p i) (hpj : ¬ p j) :
    ∃ k < len, p k ∧ ¬ p (k + 1) := by
  by_cases hend : p len
  · obtain ⟨k, -, hkj, hk, hk'⟩ := exists_change (Nat.zero_le j) (hclosed.mpr hend) hpj
    exact ⟨k, by omega, hk, hk'⟩
  · obtain ⟨k, -, hkl, hk, hk'⟩ := exists_change hi hpi hend
    exact ⟨k, hkl, hk, hk'⟩

namespace Cycle

variable {tab : Nat → Tableau Exact model.numRows model.numCols} {len : Nat}

/-- Variable `k` is basic at some time and rests at another. -/
def IsFickle (tab : Nat → Tableau Exact model.numRows model.numCols) (len : Nat)
    (k : Fin (model.numRows + model.numCols)) : Prop :=
  (∃ i ≤ len, (tab i).shape k = none) ∧ ∃ j ≤ len, (tab j).shape k ≠ none

theorem point_eq (h : Cycle tab len) {i : Nat} (hi : i ≤ len) :
    (tab i).point = (tab 0).point := by
  induction i with
  | zero => rfl
  | succ i ih =>
    obtain ⟨q, dir, hstep⟩ := h.still i (by omega)
    rw [← ih (by omega)]
    funext k
    rw [hstep.point k, zero_mul, add_zero]

/-- For every fickle variable there is one of larger index. -/
theorem exists_larger (h : Cycle tab len) {q : Fin (model.numRows + model.numCols)}
    (hq : IsFickle tab len q) : ∃ k, q < k ∧ IsFickle tab len k := by
  obtain ⟨⟨i, hi, hbasic⟩, j, hj, hrests⟩ := hq
  have hclosed : (tab 0).shape q = none ↔ (tab len).shape q = none := by rw [h.closes]
  obtain ⟨a, ha, hbefore, hafter⟩ := exists_change_of_closed
    (p := fun i => (tab i).shape q = none) hclosed hi hj hbasic hrests
  obtain ⟨b, hb, hbefore', hafter'⟩ := exists_change_of_closed
    (p := fun i => (tab i).shape q ≠ none) (not_congr hclosed) hj hi hrests (not_not.mpr hbasic)
  obtain ⟨e, dir, hout⟩ := h.still a ha
  obtain ⟨q', dir', hin⟩ := h.still b hb
  obtain rfl := hin.entering hbefore' (not_not.mp hafter')
  have hpoint : (tab a).point = (tab b).point := by rw [h.point_eq ha.le, h.point_eq hb.le]
  obtain ⟨k, hlt, hchanges, hrest⟩ :=
    hout.conflict (h.poised a ha.le) (h.poised b hb.le) hpoint hin hbefore hafter
  refine ⟨k, hlt, ?_, b, hb.le, hrest⟩
  rcases hchanges with rfl | hnone
  · exact ⟨a + 1, ha, hout.entered.2⟩
  · exact ⟨a, ha.le, hnone⟩

/-- No run of steps that take no time is closed. -/
theorem len_eq_zero (h : Cycle tab len) : len = 0 := by
  by_contra hlen
  obtain ⟨e, dir, hstep⟩ := h.still 0 (by omega)
  have hfickle : IsFickle tab len e :=
    ⟨⟨1, by omega, hstep.entered.2⟩, 0, by omega, hstep.entered.1⟩
  have hall (k : Fin (model.numRows + model.numCols)) : ¬ IsFickle tab len k := by
    induction k using WellFoundedGT.induction with
    | ind k ih =>
      intro hk
      obtain ⟨k', hlt, hk'⟩ := h.exists_larger hk
      exact ih k' hlt hk'
  exact hall e hfickle

end Cycle

end Still

/-! ## Runs -/

section Heads

variable {α : Type} [Scalar α] {m n : Nat} {s : SimplexSettings α} {objective : Array α}
  {t u : Tableau α m n}

/-- The tableaux from which a run with `remaining` steps left looks for an entering variable, in
order. -/
def heads (s : SimplexSettings α) (objective : Array α) :
    Nat → Tableau α m n → List (Tableau α m n)
  | 0, t => [t]
  | left + 1, t =>
    match t.next? s objective with
    | none => [t]
    | some next => t :: heads s objective left next

theorem next?_of_stops {left : Nat} {status : SolveStatus}
    (h : t.Stops s objective (left + 1) status) : t.next? s objective = none := by
  unfold next?
  cases status with
  | optimal => rw [h.1, Option.bind_none]
  | infeasible => rw [h.1, Option.bind_none]
  | unbounded =>
    obtain ⟨q, dir, henter, hmove⟩ := h
    rw [henter]
    exact hmove
  | iterationLimit => cases h
  | notSolved => cases h

/-- The heads of a run lead to its end, and it runs out of steps only if it has taken all. -/
theorem iterate_heads (t : Tableau α m n) (s : SimplexSettings α) (objective : Array α)
    (remaining done : Nat) :
    (t.iterate s objective remaining done).pivots + 1
        = done + (heads s objective remaining t).length ∧
      (heads s objective remaining t).getLast?
        = some (t.iterate s objective remaining done).tableau ∧
      ((t.iterate s objective remaining done).status = .iterationLimit →
        (t.iterate s objective remaining done).pivots = done + remaining) := by
  induction remaining generalizing t done with
  | zero =>
    rcases iterate_cases t s objective 0 done with
      ⟨status, -, hend⟩ | ⟨q, dir, left, next, hleft, -⟩
    · rw [hend]
      exact ⟨rfl, rfl, fun _ => rfl⟩
    · cases hleft
  | succ left ih =>
    rcases iterate_cases t s objective (left + 1) done with
      ⟨status, hstop, hend⟩ | ⟨q, dir, left', next, hleft, henter, hmove, hgo⟩
    · have hheads : heads s objective (left + 1) t = [t] := by
        rw [heads, next?_of_stops hstop]
      rw [hend, hheads]
      refine ⟨rfl, rfl, fun hlimit => ?_⟩
      dsimp only at hlimit
      rw [hlimit] at hstop
      cases hstop
    · obtain rfl := Nat.succ.inj hleft
      have hnext : t.next? s objective = some next := by
        rw [next?, henter]
        exact hmove
      have hheads : heads s objective (left + 1) t = t :: heads s objective left next := by
        rw [heads, hnext]
      obtain ⟨hcount, hlast, hlimit⟩ := ih next (done + 1)
      rw [hgo, hheads]
      refine ⟨?_, ?_, fun h => ?_⟩
      · rw [hcount, List.length_cons]
        omega
      · rw [List.getLast?_cons, hlast]
        rfl
      · rw [hlimit h]
        omega

end Heads

section Distinct

variable {model : Model Exact} {s : SimplexSettings Exact}
  {t u : Tableau Exact model.numRows model.numCols}

/-- One step, if there is one. -/
def advance (s : SimplexSettings Exact) (t : Tableau Exact model.numRows model.numCols) :
    Tableau Exact model.numRows model.numCols :=
  (t.next? s model.objective).getD t

/-- As many steps lead from `t` to `u`. -/
def Leads (s : SimplexSettings Exact) (t u : Tableau Exact model.numRows model.numCols)
    (len : Nat) : Prop :=
  u = (advance s)^[len] t ∧
    ∀ i < len, ((advance s)^[i] t).next? s model.objective = some ((advance s)^[i + 1] t)

theorem Leads.refl (s : SimplexSettings Exact) (t : Tableau Exact model.numRows model.numCols) :
    Leads s t t 0 :=
  ⟨rfl, fun i hi => absurd hi (Nat.not_lt_zero i)⟩

theorem Leads.cons {next : Tableau Exact model.numRows model.numCols} {len : Nat}
    (hnext : t.next? s model.objective = some next) (h : Leads s next u len) :
    Leads s t u (len + 1) := by
  have hadvance : advance s t = next := by rw [advance, hnext, Option.getD_some]
  refine ⟨by rw [Function.iterate_succ_apply, hadvance, h.1], ?_⟩
  intro i hi
  cases i with
  | zero => rw [Function.iterate_one, hadvance, Function.iterate_zero, id, hnext]
  | succ i =>
    rw [Function.iterate_succ_apply, Function.iterate_succ_apply, hadvance]
    exact h.2 i (by omega)

theorem leads_of_mem_heads {remaining : Nat} (hu : u ∈ heads s model.objective remaining t) :
    ∃ len, Leads s t u len := by
  induction remaining generalizing t with
  | zero =>
    obtain rfl := List.mem_singleton.mp hu
    exact ⟨0, .refl s u⟩
  | succ left ih =>
    unfold heads at hu
    split at hu
    · obtain rfl := List.mem_singleton.mp hu
      exact ⟨0, .refl s u⟩
    · rename_i next hnext
      rcases List.mem_cons.mp hu with rfl | hmem
      · exact ⟨0, .refl s u⟩
      · obtain ⟨len, hlen⟩ := ih hmem
        exact ⟨len + 1, hlen.cons hnext⟩

/-- No steps lead back to the shape that they began with. -/
theorem Leads.shape_ne (hs : s.IsStrict) (wf : model.WellFormed) (hint : HasIntervals model)
    (ht : t.Poised) {len : Nat} (h : Leads s t u len) (hlen : len ≠ 0) : t.shape ≠ u.shape := by
  obtain ⟨rfl, hsteps⟩ := h
  intro hshape
  have hpoised (i : Nat) (hi : i ≤ len) : ((advance s)^[i] t).Poised := by
    induction i with
    | zero => exact ht
    | succ i ih => exact (next?_spec hs wf hint (ih (by omega)) (hsteps i (by omega))).1
  have hcycle := cycle_of_shape hint (fun i => (advance s)^[i] t) hpoised
    (fun i hi => (next?_spec hs wf hint (hpoised i hi.le) (hsteps i hi)).2) hshape
  exact hlen hcycle.len_eq_zero

/-- The heads of a run have different shapes. -/
theorem nodup_heads (hs : s.IsStrict) (wf : model.WellFormed) (hint : HasIntervals model)
    (ht : t.Poised) (remaining : Nat) :
    ((heads s model.objective remaining t).map shape).Nodup := by
  induction remaining generalizing t with
  | zero => exact List.nodup_singleton _
  | succ left ih =>
    unfold heads
    split
    · exact List.nodup_singleton _
    · rename_i next hnext
      rw [List.map_cons, List.nodup_cons]
      refine ⟨?_, ih (next?_spec hs wf hint ht hnext).1⟩
      intro hmem
      obtain ⟨u, hu, hshape⟩ := List.mem_map.mp hmem
      obtain ⟨len, hlen⟩ := leads_of_mem_heads hu
      exact (hlen.cons hnext).shape_ne hs wf hint ht (Nat.succ_ne_zero len) hshape.symm

instance : Fintype Resting where
  elems := {.atLower, .atUpper, .free, .fixed}
  complete := by
    intro rest
    cases rest <;> decide

/-- There are five shapes for each variable: it is basic or rests in one of four ways. -/
theorem length_heads_le (hs : s.IsStrict) (wf : model.WellFormed) (hint : HasIntervals model)
    (ht : t.Poised) (remaining : Nat) :
    (heads s model.objective remaining t).length ≤ 5 ^ (model.numRows + model.numCols) := by
  have hcard : Fintype.card (Option Resting) = 5 := rfl
  have hle := (nodup_heads hs wf hint ht remaining).length_le_card
  rwa [List.length_map, Fintype.card_fun, hcard, Fintype.card_fin] at hle

end Distinct

end Tableau

/-! ## Whole solves -/

namespace Simplex

/-- The tableaux from which a solve looks for an entering variable, none if a range is empty. -/
def heads {α : Type} [Scalar α] (s : Simplex α) :
    List (Tableau α s.model.numRows s.model.numCols) :=
  if (Tableau.slackBasis s.model).hasEmptyRange s.settings.tolFeas then []
  else Tableau.heads s.settings s.model.objective s.settings.maxPivots (Tableau.slackBasis s.model)

/-- Without tolerances the ranges of a model that a solve iterates on are intervals. -/
theorem hasIntervals {model : Model Exact}
    (hproper : ∀ k < model.numRows + model.numCols, IsProper (model.varRange k))
    (hrange : (Tableau.slackBasis model).hasEmptyRange 0 = false) :
    Tableau.HasIntervals model := by
  intro k
  have h := hproper k k.isLt
  have hnot := List.any_eq_false.mp hrange k (List.mem_finRange k)
  simp only [Tableau.slackBasis, Tableau.get_ofFn, zero_eq, add_fin_zero, gt_iff_lt,
    decide_eq_true_eq] at hnot
  refine ⟨h, ?_⟩
  rcases h.lower_cases with hl | ⟨l, hl⟩
  · rcases h.upper_cases with hu | ⟨u, hu⟩
    · rw [hl, hu]
      rfl
    · rw [hl, hu]
      exact negInf_le_fin u
  · rcases h.upper_cases with hu | ⟨u, hu⟩
    · rw [hl, hu]
      exact fin_le_posInf l
    · rw [hl, hu, fin_lt, not_lt] at hnot
      rwa [hl, hu, fin_le]

/-- Without tolerances a solve meets no basis twice with the same places of the other variables,
whether it repairs the ranges or improves the objective. So it takes fewer steps than there are
shapes, and with that many steps allowed it ends with an answer. -/
theorem run_meets_no_shape_twice (s : Simplex Exact) (built : s.model.Built)
    (hcols : ∀ j < s.model.numCols, IsProper (s.model.colRange j)) (hs : s.settings.IsStrict) :
    (s.heads.map Tableau.shape).Nodup ∧ s.run.pivots = s.heads.length - 1 ∧
    s.run.tableau = s.heads.getLast?.getD (Tableau.slackBasis s.model) ∧
    s.run.pivots < 5 ^ s.numVars ∧
    (5 ^ s.numVars ≤ s.settings.maxPivots → s.solve.status = .optimal ∨
      s.solve.status = .infeasible ∨ s.solve.status = .unbounded) := by
  have wf := built.wellFormed
  have hproper := isProper_varRange wf hcols
  have hpos : 0 < 5 ^ s.numVars := by positivity
  have hsolve : s.solve.status = s.run.status := rfl
  rw [hsolve]
  rcases run_cases s with ⟨hrange, hrun⟩ | ⟨hrange, hrun⟩
  · have hheads : s.heads = [] := if_pos hrange
    rw [hheads, hrun]
    exact ⟨List.nodup_nil, rfl, rfl, hpos, fun _ => .inr (.inl rfl)⟩
  · have hheads : s.heads = Tableau.heads s.settings s.model.objective s.settings.maxPivots
        (Tableau.slackBasis s.model) := if_neg (by rw [hrange]; exact Bool.false_ne_true)
    rw [hs.tolFeas] at hrange
    have hint := hasIntervals hproper hrange
    have hpoised := Tableau.poised_slackBasis wf hint
    have hlen := Tableau.length_heads_le hs wf hint hpoised s.settings.maxPivots
    obtain ⟨hcount, hlast, hlimit⟩ := Tableau.iterate_heads (Tableau.slackBasis s.model) s.settings
      s.model.objective s.settings.maxPivots 0
    obtain ⟨left, hstop⟩ := Tableau.iterate_stops (Tableau.slackBasis s.model) s.settings
      s.model.objective s.settings.maxPivots 0
    rw [← hrun] at hcount hlast hlimit hstop
    rw [← hheads] at hcount hlast hlen
    have hfew : s.run.pivots < 5 ^ s.numVars := by
      change s.run.pivots < 5 ^ (s.model.numRows + s.model.numCols)
      omega
    refine ⟨?_, by omega, by rw [hlast]; rfl, hfew, fun hmax => ?_⟩
    · rw [hheads]
      exact Tableau.nodup_heads hs wf hint hpoised s.settings.maxPivots
    · cases hstatus : s.run.status with
      | optimal => exact .inl rfl
      | infeasible => exact .inr (.inl rfl)
      | unbounded => exact .inr (.inr rfl)
      | iterationLimit =>
        have hall := hlimit hstatus
        omega
      | notSolved =>
        rw [hstatus] at hstop
        cases hstop

/-- The largest `3 x₀ - 80 x₁ + 2 x₂ - 24 x₃` with `x₀ - 32 x₁ - 4 x₂ + 36 x₃ ≤ 0`,
`x₀ - 24 x₁ - x₂ + 6 x₃ ≤ 0` and `x₂ ≤ 1`. The first four steps of its solve take no time. -/
def stalling : Simplex Exact := .new
  { objective := #[.fin 3, .fin (-80), .fin 2, .fin (-24)]
    matrix := ⟨2, 4, .byRow, #[[(0, 1), (1, .fin (-32)), (2, .fin (-4)), (3, .fin 36)],
      [(0, 1), (1, .fin (-24)), (2, .fin (-1)), (3, .fin 6)]]⟩
    rowLower := #[.negInf, .negInf]
    rowUpper := #[0, 0]
    colLower := #[0, 0, 0, 0]
    colUpper := #[.posInf, .posInf, 1, .posInf]
    kinds := #[.continuous, .continuous, .continuous, .continuous] } ⟨15625, 0, 0, 0, 0⟩

theorem built_stalling : stalling.model.Built := by
  have rows : Model.Built { stalling.model with
      colUpper := #[.posInf, .posInf, .posInf, .posInf] } :=
    .ofRows stalling.model.objective stalling.model.kinds
      [(stalling.model.line 0, .negInf, 0), (stalling.model.line 1, .negInf, 0)] (by cbv)
  exact rows.setColBounds (show Model.setColBounds _ 2 0 1 = _ from rfl)

theorem run_meets_no_shape_twice_stalling : stalling.run.pivots = 6 ∧
    (stalling.heads.map Tableau.shape).Nodup ∧ stalling.run.pivots = stalling.heads.length - 1 ∧
    (stalling.solve.status = .optimal ∨ stalling.solve.status = .infeasible ∨
      stalling.solve.status = .unbounded) := by
  obtain ⟨hnodup, hcount, -, -, hends⟩ :=
    run_meets_no_shape_twice stalling built_stalling (by decide) ⟨rfl, rfl, rfl, rfl⟩
  exact ⟨by decide +kernel, hnodup, hcount, hends (by decide)⟩

end Simplex

end MixedInteger
