import MixedInteger.Proofs.RowSpace
import MixedInteger.Simplex

/-!
# Tableaux along a run

Every tableau that a run comes to says the same about the variables as the first one, keeps its
ranges, and lets variables rest at rational bounds only.

* `Resting.Fits`: a variable with a given range can rest there;
* `Tableau.Sound`: the invariant of a run;
* `Tableau.move_cases`: what a step does;
* `Tableau.sound_move`: a step keeps the invariant;
* `Tableau.iterate_invariant`, `Tableau.iterate_stops`: whole runs, and how they end;
* `Simplex.sound_run`: every solve ends with a sound tableau.
-/

namespace MixedInteger

open Exact hiding isFinite isNaN
open Scalar (isFinite isNaN)

/-- A variable with this range can rest there. -/
def Resting.Fits (lower upper : Exact) : Resting → Prop
  | .atLower => isFinite lower = true
  | .atUpper => isFinite upper = true
  | .fixed => isFinite lower = true ∧ lower = upper
  | .free => lower = .negInf ∧ upper = .posInf

/-- The range does not lie at infinity. -/
def IsProper (range : Exact × Exact) : Prop := range.1 < .posInf ∧ .negInf < range.2

instance (range : Exact × Exact) : Decidable (IsProper range) :=
  inferInstanceAs (Decidable (_ ∧ _))

section Ranges

variable {lower upper : Exact}

theorem eq_negInf_of_lt (h : lower < .posInf) (hfin : ¬ isFinite lower = true) :
    lower = .negInf := by
  cases lower with
  | undefined => cases h
  | negInf => rfl
  | fin q => exact absurd rfl hfin
  | posInf => cases h

theorem eq_posInf_of_lt (h : .negInf < upper) (hfin : ¬ isFinite upper = true) :
    upper = .posInf := by
  cases upper with
  | undefined => cases h
  | negInf => cases h
  | fin q => exact absurd rfl hfin
  | posInf => rfl

/-- Ends of a proper range that compare equal are one rational number. -/
theorem IsProper.fixed (h : IsProper (lower, upper)) (heq : (lower == upper) = true) :
    Resting.Fits lower upper .fixed := by
  cases lower with
  | undefined => cases heq
  | posInf => cases h.1
  | negInf =>
    cases upper with
    | negInf => cases h.2
    | undefined => cases heq
    | fin q => cases heq
    | posInf => cases heq
  | fin q =>
    refine ⟨rfl, ?_⟩
    cases upper with
    | fin p => simpa using heq
    | undefined => cases heq
    | negInf => cases heq
    | posInf => cases heq

theorem IsProper.initial (h : IsProper (lower, upper)) :
    Resting.Fits lower upper (Resting.initial lower upper) := by
  unfold Resting.initial
  split
  · exact h.fixed ‹_›
  · split
    · assumption
    · split
      · assumption
      · exact ⟨eq_negInf_of_lt h.1 ‹_›, eq_posInf_of_lt h.2 ‹_›⟩

theorem Resting.Fits.isFinite_value {rest : Resting} (h : rest.Fits lower upper) :
    isFinite (rest.value lower upper) = true := by
  cases rest with
  | atLower => exact h
  | atUpper => exact h
  | fixed => exact h.1
  | free => rfl

/-- A width is rational only if both ends are. -/
theorem isFinite_of_span (hspan : isFinite (upper - lower) = true) :
    isFinite lower = true ∧ isFinite upper = true := by
  change isFinite (Exact.add upper (Exact.neg lower)) = true at hspan
  cases lower <;> cases upper <;> first | exact ⟨rfl, rfl⟩ | cases hspan

/-- Only a rational lower end is left behind below. -/
theorem isFinite_of_below (h : lower < .posInf) {v : ℚ} {tol : Exact}
    (hbelow : .fin v < lower - tol) : isFinite lower = true := by
  cases lower with
  | fin q => rfl
  | undefined => cases h
  | posInf => cases h
  | negInf =>
    change Exact.lt (.fin v) (Exact.add .negInf (Exact.neg tol)) = true at hbelow
    cases tol <;> cases hbelow

theorem isFinite_of_above (h : .negInf < upper) {v : ℚ} {tol : Exact}
    (habove : upper + tol < .fin v) : isFinite upper = true := by
  cases upper with
  | fin q => rfl
  | undefined => cases h
  | negInf => cases h
  | posInf =>
    change Exact.lt (Exact.add .posInf tol) (.fin v) = true at habove
    cases tol <;> cases habove

end Ranges

namespace Tableau

/-! ## One step -/

section Move

variable {α : Type} [Scalar α] {m n : Nat} {t : Tableau α m n} {s : SimplexSettings α}
  {x : Vector α (m + n)} {q : Fin (m + n)} {dir : Heading}

omit [Scalar α] in
/-- A fold that keeps what it has or takes the next element ends with an element of the list. -/
theorem mem_of_foldl {f : Option α → α → Option α}
    (hf : ∀ best c a, f best c = some a → c = a ∨ best = some a) {l : List α} {best : Option α}
    {a : α} (h : l.foldl f best = some a) : a ∈ l ∨ best = some a := by
  induction l generalizing best with
  | nil => exact .inr h
  | cons c rest ih =>
    rcases ih h with hmem | heq
    · exact .inl (List.mem_cons_of_mem _ hmem)
    · rcases hf best c a heq with rfl | hbest
      · exact .inl List.mem_cons_self
      · exact .inr hbest

/-- The row that stops a movement is one of the candidates. -/
theorem ratioTest_eq_some {b : Block α m} (h : t.ratioTest s x q dir = some b) :
    ∃ r, t.candidate s x q dir r = some b := by
  refine (mem_of_foldl ?_ h).elim ?_ ?_
  · intro best c b hb
    cases best with
    | none => exact .inl (Option.some.inj hb)
    | some old =>
      dsimp only at hb
      split at hb
      · exact .inl (Option.some.inj hb)
      · exact .inr hb
  · intro hmem
    obtain ⟨r, -, hr⟩ := List.mem_filterMap.mp hmem
    exact ⟨r, hr⟩
  · intro hnone
    cases hnone

/-- A step flips a variable through its whole range, or pivots on a candidate. -/
theorem move_cases {next : Tableau α m n} (h : t.move s x q dir = some next) :
    (isFinite (t.upper.get q - t.lower.get q) = true ∧ next = t.flip q dir.target) ∨
    ∃ (r : Fin m) (b : Block α m), t.candidate s x q dir r = some b ∧
      next = t.pivot s.dropTol b.row q b.leave := by
  unfold move at h
  dsimp only at h
  split at h
  · split at h
    · exact .inl ⟨‹_›, (Option.some.inj h).symm⟩
    · cases h
  · rename_i b hb
    obtain ⟨r, hr⟩ := ratioTest_eq_some hb
    split at h
    · rename_i hspan
      exact .inl ⟨((Bool.and_eq_true _ _).mp hspan).1, (Option.some.inj h).symm⟩
    · exact .inr ⟨r, b, hr, (Option.some.inj h).symm⟩

/-- A candidate has a pivot beyond the tolerance, and its basic variable comes to rest at the end of
the range that it lies beyond or meets first. -/
theorem candidate_eq_some {r : Fin m} {b : Block α m} (h : t.candidate s x q dir r = some b) :
    b.row = r ∧ ¬ Scalar.abs (dir.orient (t.rate r q)) ≤ s.tolPivot ∧
      (b.leave = .atLower ∧ (t.isBelow s.tolFeas x (t.head.get r) = true ∨
          isFinite (t.lower.get (t.head.get r)) = true) ∨
        b.leave = .atUpper ∧ (t.isAbove s.tolFeas x (t.head.get r) = true ∨
          isFinite (t.upper.get (t.head.get r)) = true)) := by
  unfold candidate at h
  dsimp only at h
  split at h
  · cases h
  · rename_i hpivot
    split at h
    · rename_i hbelow
      split at h
      · cases h
        exact ⟨rfl, hpivot, .inl ⟨rfl, .inl hbelow⟩⟩
      · cases h
    · split at h
      · rename_i habove
        split at h
        · cases h
          exact ⟨rfl, hpivot, .inr ⟨rfl, .inl habove⟩⟩
        · cases h
      · split at h
        · split at h
          · cases h
            exact ⟨rfl, hpivot, .inr ⟨rfl, .inr ‹_›⟩⟩
          · cases h
        · split at h
          · cases h
            exact ⟨rfl, hpivot, .inl ⟨rfl, .inr ‹_›⟩⟩
          · cases h

/-- Only a resting variable enters. -/
theorem entering_eq_some {tolCost : α} {cost : Vector α (m + n)}
    (h : t.entering tolCost cost = some (q, dir)) : ∃ rest, t.place.get q = .nonbasic rest := by
  obtain ⟨k, -, hk⟩ := List.exists_of_findSome?_eq_some h
  obtain ⟨dir', himp, heq⟩ := Option.map_eq_some_iff.mp hk
  obtain ⟨rfl, rfl⟩ := Prod.mk.inj heq
  unfold improving? at himp
  split at himp
  · cases himp
  · exact ⟨_, ‹_›⟩

/-- Why a run with `remaining` steps left stops at a tableau with the given status. -/
def Stops (t : Tableau α m n) (s : SimplexSettings α) (objective : Array α) (remaining : Nat) :
    SolveStatus → Prop
  | .optimal => t.entering s.tolCost (t.cost s.tolFeas objective t.values) = none ∧
      t.inPhaseOne s.tolFeas t.values = false
  | .infeasible => t.entering s.tolCost (t.cost s.tolFeas objective t.values) = none ∧
      t.inPhaseOne s.tolFeas t.values = true
  | .unbounded => ∃ q dir,
      t.entering s.tolCost (t.cost s.tolFeas objective t.values) = some (q, dir) ∧
      t.move s t.values q dir = none
  | .iterationLimit => remaining = 0
  | .notSolved => False

/-- A run stops at once, or goes on from the tableau after one step. -/
theorem iterate_cases (t : Tableau α m n) (s : SimplexSettings α) (objective : Array α)
    (remaining done : Nat) :
    (∃ status, t.Stops s objective remaining status ∧
      t.iterate s objective remaining done = ⟨status, done, t⟩) ∨
    ∃ q dir left next, remaining = left + 1 ∧
      t.entering s.tolCost (t.cost s.tolFeas objective t.values) = some (q, dir) ∧
      t.move s t.values q dir = some next ∧
      t.iterate s objective remaining done = next.iterate s objective left (done + 1) := by
  cases henter : t.entering s.tolCost (t.cost s.tolFeas objective t.values) with
  | none =>
    have hend : t.iterate s objective remaining done
        = ⟨if t.inPhaseOne s.tolFeas t.values then .infeasible else .optimal, done, t⟩ := by
      unfold iterate
      simp only [henter]
    refine .inl ⟨_, ?_, hend⟩
    cases hphase : t.inPhaseOne s.tolFeas t.values with
    | true => exact ⟨henter, hphase⟩
    | false => exact ⟨henter, hphase⟩
  | some p =>
    obtain ⟨q, dir⟩ := p
    cases remaining with
    | zero =>
      refine .inl ⟨.iterationLimit, rfl, ?_⟩
      unfold iterate
      simp only [henter]
    | succ left =>
      cases hmove : t.move s t.values q dir with
      | none =>
        refine .inl ⟨.unbounded, ⟨q, dir, henter, hmove⟩, ?_⟩
        unfold iterate
        simp only [henter, hmove]
      | some next =>
        refine .inr ⟨q, dir, left, next, rfl, rfl, hmove, ?_⟩
        conv => lhs; unfold iterate
        simp only [henter, hmove]

/-- What every step keeps holds at the end of a run. -/
theorem iterate_invariant {objective : Array α} {P : Tableau α m n → Prop}
    (hstep : ∀ t q dir next, P t →
      t.entering s.tolCost (t.cost s.tolFeas objective t.values) = some (q, dir) →
      t.move s t.values q dir = some next → P next)
    {remaining done : Nat} (ht : P t) : P (t.iterate s objective remaining done).tableau := by
  induction remaining generalizing t done with
  | zero =>
    rcases iterate_cases t s objective 0 done with
      ⟨status, -, hend⟩ | ⟨q, dir, left, next, hleft, -⟩
    · exact hend ▸ ht
    · cases hleft
  | succ left ih =>
    rcases iterate_cases t s objective (left + 1) done with
      ⟨status, -, hend⟩ | ⟨q, dir, left', next, hleft, henter, hmove, hgo⟩
    · exact hend ▸ ht
    · obtain rfl := Nat.succ.inj hleft
      exact hgo ▸ ih (hstep t q dir next ht henter hmove)

/-- A run stops where its status says that it has to. -/
theorem iterate_stops (t : Tableau α m n) (s : SimplexSettings α) (objective : Array α)
    (remaining done : Nat) :
    ∃ left, (t.iterate s objective remaining done).tableau.Stops s objective left
      (t.iterate s objective remaining done).status := by
  induction remaining generalizing t done with
  | zero =>
    rcases iterate_cases t s objective 0 done with
      ⟨status, hstop, hend⟩ | ⟨q, dir, left, next, hleft, -⟩
    · exact ⟨0, hend ▸ hstop⟩
    · cases hleft
  | succ left ih =>
    rcases iterate_cases t s objective (left + 1) done with
      ⟨status, hstop, hend⟩ | ⟨q, dir, left', next, hleft, -, -, hgo⟩
    · exact ⟨left + 1, hend ▸ hstop⟩
    · obtain rfl := Nat.succ.inj hleft
      exact hgo ▸ ih next (done + 1)

end Move

/-! ## The invariant of a run -/

/-- The tableau says about the variables of the model what its rows say, has their ranges, and every
variable that rests can rest where it does. -/
structure Sound (model : Model Exact) (t : Tableau Exact model.numRows model.numCols) :
    Prop where
  canonical : t.Canonical
  solves : ∀ z, t.Solves z ↔ (slackBasis model).Solves z
  lower : ∀ k, t.lower.get k = (model.varRange k).1
  upper : ∀ k, t.upper.get k = (model.varRange k).2
  fits : ∀ k rest, t.place.get k = .nonbasic rest → rest.Fits (t.lower.get k) (t.upper.get k)

section Sound

variable {model : Model Exact} {t : Tableau Exact model.numRows model.numCols}

theorem Sound.restsFinite (ht : t.Sound) : t.RestsFinite := by
  intro k
  unfold restValue
  cases hk : t.place.get k with
  | basic r => rfl
  | nonbasic rest => exact (ht.fits k rest hk).isFinite_value

theorem Sound.values_eq (ht : t.Sound) (k : Fin (model.numRows + model.numCols)) :
    t.values.get k = .fin (t.point k) :=
  Tableau.values_eq ht.canonical ht.restsFinite k

/-- The point of a sound tableau satisfies the equations of the model. -/
theorem Sound.point_solves (ht : t.Sound) : (slackBasis model).Solves t.point :=
  (ht.solves _).mp (solves_point ht.canonical ht.restsFinite)

theorem sound_slackBasis (wf : model.WellFormed)
    (hproper : ∀ k < model.numRows + model.numCols, IsProper (model.varRange k)) :
    (slackBasis model).Sound := by
  refine ⟨canonical_slackBasis wf, fun _ => Iff.rfl, ?_, ?_, ?_⟩
  · intro k
    simp only [slackBasis, get_ofFn]
  · intro k
    simp only [slackBasis, get_ofFn]
  · intro k rest hk
    simp only [slackBasis, get_ofFn] at hk ⊢
    split at hk
    · cases hk
    · cases hk
      exact (hproper k k.isLt).initial

theorem sound_flip (ht : t.Sound) {q : Fin (model.numRows + model.numCols)} {rest : Resting}
    (hq : t.place.get q = .nonbasic rest) {target : Resting}
    (htarget : target.Fits (t.lower.get q) (t.upper.get q)) : (t.flip q target).Sound := by
  refine ⟨canonical_flip ht.canonical hq target, ht.solves, ht.lower, ht.upper, ?_⟩
  intro k rest' hk
  rw [place_flip] at hk
  split at hk
  · cases hk
    subst k
    exact htarget
  · exact ht.fits k rest' hk

theorem sound_pivot (ht : t.Sound) {p : Fin model.numRows}
    {q : Fin (model.numRows + model.numCols)} (hpq : t.rat p q ≠ 0) {rest : Resting}
    (hq : t.place.get q = .nonbasic rest)
    (hproper : IsProper (t.lower.get (t.head.get p), t.upper.get (t.head.get p)))
    {leave : Resting}
    (hleave : leave.Fits (t.lower.get (t.head.get p)) (t.upper.get (t.head.get p))) :
    (t.pivot 0 p q leave).Sound := by
  refine ⟨canonical_pivot ht.canonical hpq hq leave, fun z => ?_, ht.lower, ht.upper, ?_⟩
  · exact (solves_pivot ht.canonical hpq leave z).trans (ht.solves z)
  · intro k rest' hk
    rw [place_pivot] at hk
    split at hk
    · cases hk
    · split at hk
      · subst k
        cases hk
        change Resting.Fits (t.lower.get (t.head.get p)) (t.upper.get (t.head.get p)) _
        split
        · exact hproper.fixed ‹_›
        · exact hleave
      · exact ht.fits k rest' hk

/-- An entry beyond a tolerance is not zero. -/
theorem rat_ne_zero (ht : t.Canonical) {tolPivot : Exact} (htol : 0 ≤ tolPivot)
    {r : Fin model.numRows} {q : Fin (model.numRows + model.numCols)} {dir : Heading}
    (h : ¬ Scalar.abs (dir.orient (t.rate r q)) ≤ tolPivot) : t.rat r q ≠ 0 := by
  intro hzero
  apply h
  have hrate : Scalar.abs (dir.orient (t.rate r q)) = 0 := by
    rw [rate, coef_eq ht, hzero]
    cases dir <;> simp [Heading.orient]
  rw [hrate]
  exact htol

/-- A step keeps the invariant. -/
theorem sound_move {s : SimplexSettings Exact} (hdrop : s.dropTol = 0) (hpivot : 0 ≤ s.tolPivot)
    (hproper : ∀ k < model.numRows + model.numCols, IsProper (model.varRange k)) (ht : t.Sound)
    {q : Fin (model.numRows + model.numCols)} {dir : Heading} {rest : Resting}
    (hq : t.place.get q = .nonbasic rest) {next : Tableau Exact model.numRows model.numCols}
    (h : t.move s t.values q dir = some next) : next.Sound := by
  have hrange (k : Fin (model.numRows + model.numCols)) :
      IsProper (t.lower.get k, t.upper.get k) := by
    rw [ht.lower, ht.upper]
    exact hproper k k.isLt
  rcases move_cases h with ⟨hspan, rfl⟩ | ⟨r, b, hb, rfl⟩
  · obtain ⟨hlower, hupper⟩ := isFinite_of_span hspan
    refine sound_flip ht hq ?_
    cases dir with
    | up => exact hupper
    | down => exact hlower
  · obtain ⟨rfl, hentry, hleave⟩ := candidate_eq_some hb
    rw [hdrop]
    refine sound_pivot ht (rat_ne_zero ht.canonical hpivot hentry) hq (hrange _) ?_
    rcases hleave with ⟨hleave, hbelow | hfin⟩ | ⟨hleave, habove | hfin⟩
    · rw [isBelow, decide_eq_true_eq, ht.values_eq] at hbelow
      rw [hleave]
      exact isFinite_of_below (hrange _).1 hbelow
    · rw [hleave]
      exact hfin
    · rw [isAbove, decide_eq_true_eq, ht.values_eq] at habove
      rw [hleave]
      exact isFinite_of_above (hrange _).2 habove
    · rw [hleave]
      exact hfin

end Sound

end Tableau

/-! ## Whole solves -/

/-- A solve finds an empty range at once, or iterates from the first tableau. -/
theorem Simplex.run_cases {α : Type} [Scalar α] (s : Simplex α) :
    ((Tableau.slackBasis s.model).hasEmptyRange s.settings.tolFeas = true ∧
      s.run = ⟨.infeasible, 0, Tableau.slackBasis s.model⟩) ∨
    ((Tableau.slackBasis s.model).hasEmptyRange s.settings.tolFeas = false ∧
      s.run = (Tableau.slackBasis s.model).iterate s.settings s.model.objective
        s.settings.maxPivots 0) := by
  cases hrange : (Tableau.slackBasis s.model).hasEmptyRange s.settings.tolFeas with
  | true => exact .inl ⟨rfl, by simp [Simplex.run, hrange]⟩
  | false => exact .inr ⟨rfl, by simp [Simplex.run, hrange]⟩

/-- Every solve ends with a sound tableau. -/
theorem Simplex.sound_run (s : Simplex Exact) (wf : s.model.WellFormed)
    (hproper : ∀ k < s.model.numRows + s.model.numCols, IsProper (s.model.varRange k))
    (hdrop : s.settings.dropTol = 0) (hpivot : 0 ≤ s.settings.tolPivot) :
    s.run.tableau.Sound := by
  have hstart := Tableau.sound_slackBasis wf hproper
  unfold Simplex.run
  dsimp only
  split
  · exact hstart
  · refine Tableau.iterate_invariant ?_ hstart
    intro t q dir next ht henter hmove
    obtain ⟨rest, hq⟩ := Tableau.entering_eq_some henter
    exact Tableau.sound_move hdrop hpivot hproper ht hq hmove

end MixedInteger
