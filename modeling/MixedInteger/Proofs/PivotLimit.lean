import MixedInteger.Proofs.SimplexProgress
import MixedInteger.Proofs.SolverStates

/-!
# The limit on steps

What a step of a solve does, and whether there is one, does not depend on how many steps are
allowed. So the limit only says how far a solve goes along one and the same sequence of tableaux:
it ends as it would anyway, or runs out of steps where it would have gone on. That a tableau is
optimal, or that a range cannot be repaired, is seen without a step. That nothing stops a movement
is seen only where one more step is allowed, though this step is not counted.

* `Tableau.iterate_extend`, `Tableau.iterate_truncate`: a run under another limit;
* `Simplex.limited`: the same solver with another limit;
* `Simplex.limit_truncates`: what the limit does to a solve.
-/

namespace MixedInteger

open Scalar (posInf negInf)

variable {α : Type} [Scalar α]

/-- A run that ends so after `steps` steps ends in the same way with `allowed` steps allowed. -/
def SolveStatus.Fits (steps allowed : Nat) : SolveStatus → Prop
  | .optimal | .infeasible => steps ≤ allowed
  | .unbounded => steps < allowed
  | .iterationLimit | .notSolved => False

theorem SolveStatus.Fits.le {steps allowed : Nat} {status : SolveStatus}
    (h : status.Fits steps allowed) : steps ≤ allowed := by
  cases status with
  | optimal | infeasible => exact h
  | unbounded => exact Nat.le_of_lt h
  | iterationLimit | notSolved => exact h.elim

namespace Tableau

section Limits

variable {m n : Nat} {s : SimplexSettings α} {objective : Array α} {t next : Tableau α m n}

/-- The limit in the settings is no part of what a step looks at. -/
theorem move_limit (limit : Nat) (x : Vector α (m + n)) (q : Fin (m + n)) (dir : Heading) :
    t.move { s with maxPivots := limit } x q dir = t.move s x q dir :=
  rfl

theorem iterate_limit (limit remaining done : Nat) :
    t.iterate { s with maxPivots := limit } objective remaining done
      = t.iterate s objective remaining done := by
  induction remaining generalizing t done with
  | zero =>
    unfold iterate
    rfl
  | succ left ih =>
    unfold iterate
    simp only [move_limit, ih]

/-! ## One tableau under two limits -/

theorem iterate_zero_of_next? (h : t.next? s objective = some next) (done : Nat) :
    t.iterate s objective 0 done = ⟨.iterationLimit, done, t⟩ := by
  obtain ⟨⟨q, dir⟩, henter, -⟩ := Option.bind_eq_some_iff.mp h
  unfold iterate
  simp only [henter]

theorem iterate_succ_of_next? (h : t.next? s objective = some next) (left done : Nat) :
    t.iterate s objective (left + 1) done = next.iterate s objective left (done + 1) := by
  obtain ⟨⟨q, dir⟩, henter, hmove⟩ := Option.bind_eq_some_iff.mp h
  conv => lhs; unfold iterate
  simp only [henter, hmove]

/-- Where a run stops with an answer, it does so under any limit that leaves it room to. -/
theorem iterate_of_stops {remaining done allowed : Nat} {status : SolveStatus}
    (h : t.Stops s objective remaining status) (hfits : status.Fits done (done + allowed)) :
    t.iterate s objective allowed done = ⟨status, done, t⟩ := by
  cases status with
  | optimal =>
    obtain ⟨henter, hphase⟩ := h
    unfold iterate
    simp only [henter, hphase, Bool.false_eq_true, ↓reduceIte]
  | infeasible =>
    obtain ⟨henter, hphase⟩ := h
    unfold iterate
    simp only [henter, hphase, ↓reduceIte]
  | unbounded =>
    obtain ⟨q, dir, henter, hmove⟩ := h
    obtain ⟨left, rfl⟩ := Nat.exists_eq_add_one_of_ne_zero (Nat.lt_add_right_iff_pos.mp hfits).ne'
    unfold iterate
    simp only [henter, hmove]
  | iterationLimit | notSolved => exact hfits.elim

/-- Where it has no room to, it runs out of steps there. -/
theorem iterate_zero_of_stops {remaining done : Nat} {status : SolveStatus}
    (h : t.Stops s objective remaining status)
    (hend : t.iterate s objective remaining done = ⟨status, done, t⟩)
    (hnot : ¬ status.Fits done done) :
    t.iterate s objective 0 done = ⟨.iterationLimit, done, t⟩ := by
  cases status with
  | optimal | infeasible => exact absurd (Nat.le_refl done) hnot
  | unbounded =>
    obtain ⟨q, dir, henter, -⟩ := h
    unfold iterate
    simp only [henter]
  | iterationLimit =>
    obtain rfl : remaining = 0 := h
    exact hend
  | notSolved => exact h.elim

/-! ## A run under two limits -/

/-- A run stops at once, or takes a step and goes on from there. -/
theorem iterate_next?_cases (t : Tableau α m n) (s : SimplexSettings α) (objective : Array α)
    (remaining done : Nat) :
    (∃ status, t.Stops s objective remaining status ∧
      t.iterate s objective remaining done = ⟨status, done, t⟩) ∨
    ∃ left next, remaining = left + 1 ∧ t.next? s objective = some next ∧
      t.iterate s objective remaining done = next.iterate s objective left (done + 1) ∧
      heads s objective remaining t = t :: heads s objective left next := by
  rcases iterate_cases t s objective remaining done with
    hstop | ⟨q, dir, left, next, rfl, henter, hmove, hgo⟩
  · exact .inl hstop
  · have hnext : t.next? s objective = some next := by
      rw [next?, henter]
      exact hmove
    exact .inr ⟨left, next, rfl, hnext, hgo, by rw [heads, hnext]⟩

theorem le_pivots_iterate (t : Tableau α m n) (s : SimplexSettings α) (objective : Array α)
    (remaining done : Nat) : done ≤ (t.iterate s objective remaining done).pivots := by
  have hcount := (iterate_heads t s objective remaining done).1
  have hfirst := head?_heads s objective remaining t
  cases hheads : heads s objective remaining t with
  | nil =>
    rw [hheads] at hfirst
    cases hfirst
  | cons u rest =>
    rw [hheads, List.length_cons] at hcount
    omega

theorem pivots_iterate_le (t : Tableau α m n) (s : SimplexSettings α) (objective : Array α)
    (remaining done : Nat) :
    (t.iterate s objective remaining done).pivots ≤ done + remaining := by
  induction remaining generalizing t done with
  | zero =>
    rcases iterate_next?_cases t s objective 0 done with ⟨status, -, hend⟩ | ⟨left, next, hleft, -⟩
    · rw [hend]
      exact Nat.le_refl done
    · cases hleft
  | succ left ih =>
    rcases iterate_next?_cases t s objective (left + 1) done with
      ⟨status, -, hend⟩ | ⟨left', next, hleft, -, hgo, -⟩
    · rw [hend]
      exact Nat.le_add_right done (left + 1)
    · obtain rfl := Nat.succ.inj hleft
      rw [hgo]
      exact (ih next (done + 1)).trans (by omega)

/-- A run that ends with an answer ends so under any other limit that leaves it room to. -/
theorem iterate_extend (t : Tableau α m n) (remaining : Nat) {done allowed : Nat}
    (hfits : (t.iterate s objective remaining done).status.Fits
      (t.iterate s objective remaining done).pivots (done + allowed)) :
    t.iterate s objective allowed done = t.iterate s objective remaining done := by
  induction remaining generalizing t done allowed with
  | zero =>
    rcases iterate_next?_cases t s objective 0 done with
      ⟨status, hstop, hend⟩ | ⟨left, next, hleft, -⟩
    · rw [hend] at hfits ⊢
      exact iterate_of_stops hstop hfits
    · cases hleft
  | succ left ih =>
    rcases iterate_next?_cases t s objective (left + 1) done with
      ⟨status, hstop, hend⟩ | ⟨left', next, hleft, hnext, hgo, -⟩
    · rw [hend] at hfits ⊢
      exact iterate_of_stops hstop hfits
    · obtain rfl := Nat.succ.inj hleft
      rw [hgo] at hfits ⊢
      -- The step that was taken is allowed here as well.
      have hlater := le_pivots_iterate next s objective left (done + 1)
      have hle := hfits.le
      obtain ⟨allowed, rfl⟩ := Nat.exists_eq_add_one_of_ne_zero (show allowed ≠ 0 by omega)
      rw [iterate_succ_of_next? hnext]
      exact ih next (by rwa [Nat.add_right_comm, Nat.add_assoc])

/-- A run under a limit that leaves it no room to end runs out of steps at the tableau that it has
come to by then. -/
theorem iterate_truncate (t : Tableau α m n) (remaining : Nat) {done allowed : Nat}
    (hle : done + allowed ≤ (t.iterate s objective remaining done).pivots)
    (hnot : ¬ (t.iterate s objective remaining done).status.Fits
      (t.iterate s objective remaining done).pivots (done + allowed)) :
    ∃ u, (heads s objective remaining t)[allowed]? = some u ∧
      t.iterate s objective allowed done = ⟨.iterationLimit, done + allowed, u⟩ := by
  induction remaining generalizing t done allowed with
  | zero =>
    rcases iterate_next?_cases t s objective 0 done with
      ⟨status, hstop, hend⟩ | ⟨left, next, hleft, -⟩
    · rw [hend] at hle hnot
      obtain rfl : allowed = 0 := by dsimp only at hle; omega
      exact ⟨t, rfl, iterate_zero_of_stops hstop hend hnot⟩
    · cases hleft
  | succ left ih =>
    rcases iterate_next?_cases t s objective (left + 1) done with
      ⟨status, hstop, hend⟩ | ⟨left', next, hleft, hnext, hgo, hheads⟩
    · rw [hend] at hle hnot
      obtain rfl : allowed = 0 := by dsimp only at hle; omega
      have hfirst := head?_heads s objective (left + 1) t
      rw [List.head?_eq_getElem?] at hfirst
      exact ⟨t, hfirst, iterate_zero_of_stops hstop hend hnot⟩
    · obtain rfl := Nat.succ.inj hleft
      rw [hgo] at hle hnot
      rw [hheads]
      cases allowed with
      | zero => exact ⟨t, rfl, iterate_zero_of_next? hnext done⟩
      | succ allowed =>
        have hdone : done + (allowed + 1) = done + 1 + allowed := by omega
        rw [hdone] at hle hnot ⊢
        rw [iterate_succ_of_next? hnext]
        exact ih next hle hnot

/-- Each head of a run is one step behind the next one. -/
theorem isChain_next?_heads (t : Tableau α m n) (s : SimplexSettings α) (objective : Array α)
    (remaining : Nat) :
    (heads s objective remaining t).IsChain fun t next => t.next? s objective = some next := by
  induction remaining generalizing t with
  | zero => exact List.isChain_singleton t
  | succ left ih =>
    unfold heads
    split
    · exact List.isChain_singleton t
    · rename_i next hnext
      refine List.isChain_cons.mpr ⟨fun u hu => ?_, ih next⟩
      rw [head?_heads, Option.mem_def, Option.some.injEq] at hu
      exact hu ▸ hnext

end Limits

end Tableau

/-! ## Whole solves -/

namespace Simplex

/-- The same solver with another limit on the steps of a solve. -/
def limited (s : Simplex α) (limit : Nat) : Simplex α :=
  { s with settings := { s.settings with maxPivots := limit } }

/-- The solver after the steps allowed have run out at a tableau. -/
def cutOff (s : Simplex α) (limit : Nat) (t : Tableau α s.model.numRows s.model.numCols) :
    Simplex α :=
  { s.limited limit with
    basis := some (.ofTableau t), status := .iterationLimit, pivots := limit }

/-- A range that is empty is found under any limit; otherwise the run begins at the slack basis. -/
theorem run_limited (s : Simplex α) (limit : Nat) :
    (s.limited limit).run =
      if (Tableau.slackBasis s.model).hasEmptyRange s.settings.tolFeas then
        ⟨.infeasible, 0, Tableau.slackBasis s.model⟩
      else (Tableau.slackBasis s.model).iterate s.settings s.model.objective limit 0 := by
  unfold run
  dsimp only [limited]
  rw [Tableau.iterate_limit]
  rfl

/-- A solve shows its run and nothing else of it. -/
theorem solve_limited {s : Simplex α} {limit : Nat} {t : Tableau α s.model.numRows s.model.numCols}
    {status : SolveStatus} {pivots : Nat} (h : (s.limited limit).run = ⟨status, pivots, t⟩) :
    (s.limited limit).solve = { s.limited limit with
      basis := some (.ofTableau t), status := status, pivots := pivots } := by
  unfold solve
  rw [h]

/-- A solve has no heads, or runs along them, whatever the limit. -/
theorem heads_cases (s : Simplex α) :
    (s.run = ⟨.infeasible, 0, Tableau.slackBasis s.model⟩ ∧ s.heads = [] ∧
      ∀ limit, (s.limited limit).run = s.run) ∨
    (s.run = (Tableau.slackBasis s.model).iterate s.settings s.model.objective
        s.settings.maxPivots 0 ∧
      s.heads = Tableau.heads s.settings s.model.objective s.settings.maxPivots
        (Tableau.slackBasis s.model) ∧
      ∀ limit, (s.limited limit).run
        = (Tableau.slackBasis s.model).iterate s.settings s.model.objective limit 0) := by
  rcases run_cases s with ⟨hrange, hrun⟩ | ⟨hrange, hrun⟩
  · refine .inl ⟨hrun, if_pos hrange, fun limit => ?_⟩
    rw [run_limited, if_pos hrange, hrun]
  · have hrange := Bool.eq_false_iff.mp hrange
    refine .inr ⟨hrun, if_neg hrange, fun limit => ?_⟩
    rw [run_limited, if_neg hrange]

/-- An answer is found under every limit that leaves room for it. -/
theorem run_extend {s : Simplex α} {limit : Nat} (hfits : s.run.status.Fits s.run.pivots limit) :
    (s.limited limit).run = s.run := by
  rcases heads_cases s with ⟨-, -, hagain⟩ | ⟨hrun, -, hagain⟩
  · exact hagain limit
  · rw [hagain, hrun]
    apply Tableau.iterate_extend
    rwa [Nat.zero_add, ← hrun]

/-- Where there is no room for it, the steps run out at a tableau of the longer run. -/
theorem run_truncate {s : Simplex α} {limit : Nat} (hle : limit ≤ s.run.pivots)
    (hnot : ¬ s.run.status.Fits s.run.pivots limit) :
    ∃ t, s.heads[limit]? = some t ∧ (s.limited limit).run = ⟨.iterationLimit, limit, t⟩ := by
  rcases heads_cases s with ⟨hrun, -, -⟩ | ⟨hrun, hheads, hagain⟩
  · rw [hrun] at hnot
    exact absurd (Nat.zero_le limit) hnot
  · rw [hrun, ← Nat.zero_add limit] at hle hnot
    rw [hagain, hheads]
    have hcut := Tableau.iterate_truncate _ _ hle hnot
    rwa [Nat.zero_add] at hcut

theorem run_within (s : Simplex α) : s.run.pivots ≤ s.settings.maxPivots ∧
    (s.run.status = .iterationLimit → s.run.pivots = s.settings.maxPivots) := by
  rcases heads_cases s with ⟨hrun, -, -⟩ | ⟨hrun, -, -⟩
  · rw [hrun]
    exact ⟨Nat.zero_le _, nofun⟩
  · have hle := Tableau.pivots_iterate_le (Tableau.slackBasis s.model) s.settings
      s.model.objective s.settings.maxPivots 0
    obtain ⟨-, -, hlimit⟩ := Tableau.iterate_heads (Tableau.slackBasis s.model) s.settings
      s.model.objective s.settings.maxPivots 0
    rw [← hrun, Nat.zero_add] at hle hlimit
    exact ⟨hle, hlimit⟩

/-- The heads of a solve are the tableaux that its steps lead through. -/
structure Stepwise (s : Simplex α) : Prop where
  first : ∀ t ∈ s.heads.head?, t = Tableau.slackBasis s.model
  steps : s.heads.IsChain fun t next => t.next? s.settings s.model.objective = some next
  last : ∀ t ∈ s.heads.getLast?, s.solve.basis = some (.ofTableau t)
  count : s.solve.pivots = s.heads.length - 1

theorem stepwise (s : Simplex α) : s.Stepwise := by
  rcases heads_cases s with ⟨hrun, hheads, -⟩ | ⟨hrun, hheads, -⟩
  · constructor
    all_goals rw [hheads]
    case first => exact nofun
    case steps => exact List.isChain_nil
    case last => exact nofun
    case count =>
      change s.run.pivots = 0
      rw [hrun]
  · obtain ⟨hcount, hlast, -⟩ := Tableau.iterate_heads (Tableau.slackBasis s.model) s.settings
      s.model.objective s.settings.maxPivots 0
    rw [← hheads, ← hrun] at hcount hlast
    constructor
    case first =>
      rw [hheads, Tableau.head?_heads]
      rintro t ⟨⟩
      rfl
    case steps =>
      rw [hheads]
      exact Tableau.isChain_next?_heads _ _ _ _
    case last =>
      rw [hlast]
      rintro t ⟨⟩
      rfl
    case count =>
      change s.run.pivots = _
      omega

/-- The limit on the steps of a solve only cuts it off, in any arithmetic. A solve takes no more
steps than are allowed, and runs out of them only if it has taken all. Once it has ended with an
answer it ends with the same steps, basis and values under every limit that is not smaller than
its steps, or larger than them if nothing stops a movement. Its steps lead from the slack basis to
the last tableau, and under a smaller limit it stops at the tableau among them that it has come to
by then. -/
theorem limit_truncates (s : Simplex α) :
    s.solve.status ≠ .notSolved ∧ s.solve.pivots ≤ s.settings.maxPivots ∧
    (s.solve.status = .iterationLimit → s.solve.pivots = s.settings.maxPivots) ∧
    (s.solve.status = .optimal ∨ s.solve.status = .infeasible → ∀ limit, s.solve.pivots ≤ limit →
      (s.limited limit).solve = s.solve.limited limit) ∧
    (s.solve.status = .unbounded → ∀ limit, s.solve.pivots < limit →
      (s.limited limit).solve = s.solve.limited limit) ∧
    s.Stepwise ∧
    ∀ limit, limit < s.solve.pivots ∨ s.solve.status = .unbounded ∧ limit = s.solve.pivots →
      ∃ t, s.heads[limit]? = some t ∧ (s.limited limit).solve = s.cutOff limit t := by
  have hpivots : s.solve.pivots = s.run.pivots := rfl
  have hstatus : s.solve.status = s.run.status := rfl
  have hsame {limit : Nat} (h : s.run.status.Fits s.run.pivots limit) :
      (s.limited limit).solve = s.solve.limited limit := solve_limited (run_extend h)
  rw [hpivots, hstatus]
  obtain ⟨hwithin, hall⟩ := run_within s
  refine ⟨s.status_run_ne, hwithin, hall, ?_, ?_, s.stepwise, ?_⟩
  · rintro (hopt | hinf) limit hle
    · exact hsame (by rw [hopt]; exact hle)
    · exact hsame (by rw [hinf]; exact hle)
  · intro hunb limit hlt
    exact hsame (by rw [hunb]; exact hlt)
  · rintro limit hlimit
    have hle : limit ≤ s.run.pivots := by omega
    have hnot : ¬ s.run.status.Fits s.run.pivots limit := by
      rcases hlimit with hless | ⟨hunb, rfl⟩
      · exact fun h => Nat.not_le.mpr hless h.le
      · rw [hunb]
        exact Nat.lt_irrefl _
    obtain ⟨t, ht, hrun⟩ := run_truncate hle hnot
    exact ⟨t, ht, solve_limited hrun⟩

/-- The largest `x₀ + x₁` with `x₀ + 2 x₁ ≤ 4` and `x₀ ≤ 1`, in double precision and with a pivot
tolerance that is not defined. -/
def ascending : Simplex Float := .new
  { objective := #[1, 1]
    matrix := ⟨1, 2, .byRow, #[[(0, 1), (1, 2)]]⟩
    rowLower := #[negInf]
    rowUpper := #[4]
    colLower := #[0, 0]
    colUpper := #[1, posInf]
    kinds := #[.continuous, .continuous] } { SimplexSettings.default with tolPivot := 0 / 0 }

/-- The same without a limit for `x₁`. -/
def escaping : Simplex Float :=
  ascending.withModel { ascending.model with rowUpper := #[posInf] }

/-- Both solves begin with `x₀` moving to 1. Then a pivot brings `x₁` to `3/2`, or nothing stops
it. -/
theorem limit_truncates_ascending :
    ascending.solve.status = .optimal ∧ ascending.solve.pivots = 2 ∧
    (ascending.limited 2).solve = ascending.solve.limited 2 ∧
    (∃ t, ascending.heads[1]? = some t ∧ (ascending.limited 1).solve = ascending.cutOff 1 t) ∧
    escaping.solve.status = .unbounded ∧ escaping.solve.pivots = 1 ∧
    (escaping.limited 2).solve = escaping.solve.limited 2 ∧
    ∃ t, escaping.heads[1]? = some t ∧ (escaping.limited 1).solve = escaping.cutOff 1 t := by
  have hopt : ascending.solve.status = .optimal := by decide +kernel
  have htwo : ascending.solve.pivots = 2 := by decide +kernel
  have hunb : escaping.solve.status = .unbounded := by decide +kernel
  have hone : escaping.solve.pivots = 1 := by decide +kernel
  obtain ⟨-, -, -, hanswer, -, -, hcut⟩ := limit_truncates ascending
  obtain ⟨-, -, -, -, hanswer', -, hcut'⟩ := limit_truncates escaping
  exact ⟨hopt, htwo, hanswer (.inl hopt) 2 (by omega), hcut 1 (.inl (by omega)), hunb, hone,
    hanswer' hunb 2 (by omega), hcut' 1 (.inr ⟨hunb, hone.symm⟩)⟩

end Simplex

end MixedInteger
