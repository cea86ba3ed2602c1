import MixedInteger.Proofs.IterationCap
import MixedInteger.Proofs.NodeModels

/-!
# The errors that a run returns

A run that fails was refused its settings, or has used up its iterations, or an iteration has
failed. Since the books agree, an iteration fails only on an edit that the oracle refuses, so that
no run reports a broken promise of the search to itself. The simplex solver refuses bounds only if
they are undefined, and no bound that branching asks for is.

* `Session.explore_failed`, `branchAndCut_error`: where the error of a run comes from;
* `Search.Visits.exists_advance`: no iteration fails over the simplex solver without cuts;
* `run_errors`: the errors that a run returns.
-/

namespace MixedInteger

open Scalar

/-! ## Where errors come from -/

section Runs

variable {R α : Type} [Scalar α] [Relaxation R α] {L : Type} [Link L]

/-- A loop fails at its limit or where one of its iterations fails. -/
theorem Session.explore_failed {plan : Plan α} {root : R} {around : Surroundings L}
    {remaining : Nat} {e : SearchError α} {s s' : Session R α L} {picks : List (Violation α)}
    (h : Search.Visits plan root picks s.search)
    (hrun : s.explore plan around remaining = (.failed e, s')) :
    (∃ best, e = .iterationLimit plan.settings.maxIterations.toNat best) ∨
      ∃ picks' t notices, Search.Visits plan root picks' t ∧
        t.advance plan = (notices, .error e) := by
  induction remaining generalizing s picks with
  | zero =>
    unfold explore at hrun
    split at hrun
    · cases hrun
    · split at hrun
      · cases hrun
      · cases hrun
        exact .inl ⟨_, rfl⟩
  | succ left ih =>
    unfold explore at hrun
    split at hrun
    · cases hrun
    · rename_i hwaits
      split at hrun
      · cases hrun
      · dsimp only at hrun
        split at hrun
        · rename_i notices e hadvance
          cases hrun
          exact .inr ⟨picks, s.search, notices, h, hadvance⟩
        · rename_i notices p hadvance
          split at hrun
          · cases hrun
          · have hnext := h.next (by simpa using hwaits) hadvance
            exact ih (by rw [search_publish]; exact hnext) hrun

/-- A run fails on its settings, at its limit, or where one of its iterations fails. -/
theorem branchAndCut_error {plan : Plan α} {root : R} {around : Surroundings L}
    {telemetry : Telemetry L} {e : SearchError α}
    (h : (branchAndCut plan around telemetry root).result = .error e) :
    (∃ c, plan.settings.validate = .error c ∧ e = .config c) ∨
      (∃ best, e = .iterationLimit plan.settings.maxIterations.toNat best) ∨
      ∃ picks t notices, Search.Visits plan root picks t ∧
        t.advance plan = (notices, .error e) := by
  unfold branchAndCut at h
  split at h
  · rename_i c hvalid
    cases h
    exact .inl ⟨c, hvalid, rfl⟩
  · unfold Session.run at h
    dsimp only at h
    split at h
    · cases h
    · cases h
    · rename_i hexplore
      cases h
      exact .inr (Session.explore_failed .start hexplore)

end Runs

/-! ## Ids -/

namespace Search

section Ids

variable {R α : Type} {s : Search R α}

/-- Ids grow by two for each branched node at most. -/
theorem Counts.nextEven_le (hs : s.Counts) : s.ids.nextEven ≤ 2 * s.trace.size + 2 := by
  have hfates := hs.fates
  rw [hs.nextEven.2]
  omega

end Ids

/-! ## Searches over the simplex solver -/

section Solver

variable {α : Type} [Scalar α] [Definite α] {plan : Plan α} {root : Simplex α}

/-- Both sides of a violation are accepted as bounds. -/
theorem exists_apply {s : Simplex α} (hs : s.model.RangesDefined) {scope : Scope} {tol : α}
    {pick : Violation α} (hpick : pick ∈ violations s scope tol) {change : BoundChange α}
    (hside : change = .down pick.column pick.value ∨ change = .up pick.column pick.value) :
    ∃ s', change.apply s = .ok s' := by
  obtain ⟨hcolumn, -, -, -, -, hfractional⟩ := mem_violations hpick
  have hvalue := isNaN_of_isFractional hfractional
  rcases hside with rfl | rfl
  · exact Simplex.exists_setBound hs hcolumn .upper (Definite.floor hvalue)
  · exact Simplex.exists_setBound hs hcolumn .lower (Definite.ceil hvalue)

/-- Without cuts no iteration fails. -/
theorem Visits.exists_advance (hroot : root.model.RangesDefined)
    (hcuts : plan.settings.cutStrategy = .off) {picks : List (Violation α)}
    {s : Search (Simplex α) α} (h : Visits plan root picks s) :
    ∃ notices p, s.advance plan = (notices, .ok p) := by
  have hdisabled : plan.settings.cutsEnabled = false := by
    simp [Settings.cutsEnabled, hcuts]
  generalize hadvance : s.advance plan = outcome
  obtain ⟨notices, result⟩ := outcome
  cases result with
  | ok p => exact ⟨notices, p, rfl⟩
  | error e =>
    obtain ⟨refusal, -, node, hnode, hrefuses⟩ := h.ledger.advance_refused hadvance
    have hmodel := Simplex.lasting_ranges.solve (h.lasting Simplex.lasting_ranges hroot node hnode)
    cases hrefuses with
    | cut henabled =>
      rw [hdisabled] at henabled
      cases henabled
    | bound hpick hcut hside hrefused =>
      cases hcut with
      | row henabled =>
        rw [hdisabled] at henabled
        cases henabled
      | none =>
        obtain ⟨s', haccepted⟩ := exists_apply hmodel hpick hside
        cases hrefused.symm.trans haccepted

end Solver

end Search

/-- The errors that a run returns. Over no oracle, whatever it answers, is it an internal one, and
the ids of the nodes stay within a word for the first `2 ^ 62` iterations. Over the simplex solver
for a valid model, with valid settings and without cuts, no iteration fails, and a run fails only at
its limit. -/
theorem run_errors {α : Type} [Scalar α] (plan : Plan α) :
    (∀ (R : Type) [Relaxation R α] (root : R),
      (∀ (L : Type) [Link L] (around : Surroundings L) (telemetry : Telemetry L) (fault : Fault),
        (branchAndCut plan around telemetry root).result ≠ .error (.internal fault)) ∧
      ∀ picks s, Search.Visits plan root picks s → s.trace.size < 2 ^ 62 →
        s.ids.nextEven + 1 < 2 ^ 64) ∧
    ∀ [Definite α] (root : Simplex α), root.model.validate = .ok () →
      plan.settings.validate = .ok () → plan.settings.cutStrategy = .off →
      (∀ picks s, Search.Visits plan root picks s →
        ∃ notices p, s.advance plan = (notices, .ok p)) ∧
      ∀ (L : Type) [Link L] (around : Surroundings L) (telemetry : Telemetry L)
        (e : SearchError α), (branchAndCut plan around telemetry root).result = .error e →
        ∃ best, e = .iterationLimit plan.settings.maxIterations.toNat best := by
  constructor
  · intro R _ root
    constructor
    · intro L _ around telemetry fault hrun
      rcases branchAndCut_error hrun with ⟨c, -, he⟩ | ⟨best, he⟩ | ⟨picks, s, notices, hvisits, he⟩
      · cases he
      · cases he
      · obtain ⟨refusal, he, -⟩ := hvisits.ledger.advance_refused he
        cases he
    · intro picks s hvisits hshort
      have hnext := hvisits.ledger.counts.nextEven_le
      omega
  · intro _ root hmodel hvalid hcuts
    have hadvances {picks : List (Violation α)} {s : Search (Simplex α) α}
        (hvisits : Search.Visits plan root picks s) :
        ∃ notices p, s.advance plan = (notices, .ok p) :=
      hvisits.exists_advance (Model.rangesDefined_of_validate hmodel) hcuts
    refine ⟨fun picks s => hadvances, ?_⟩
    intro L _ around telemetry e hrun
    rcases branchAndCut_error hrun with ⟨c, hc, -⟩ | hlimit | ⟨picks, s, notices, hvisits, he⟩
    · cases hvalid.symm.trans hc
    · exact hlimit
    · obtain ⟨told, p, hok⟩ := hadvances hvisits
      cases he.symm.trans hok

/-- The same model as `OneColumn.capped` in double precision: `2 x ≤ 5` for an integer `x ≤ 10`. -/
def cappedInDouble : Model Float where
  objective := #[1]
  matrix := ⟨1, 1, .byRow, #[[(0, 2)]]⟩
  rowLower := #[Scalar.negInf]
  rowUpper := #[5]
  colLower := #[0]
  colUpper := #[10]
  kinds := #[.integer]

/-- A cap of two cuts a search over exact numbers off, and that is the only error that the same
model can lead to in double precision. -/
theorem run_errors_capped :
    (∃ best, (branchAndCut (Plan.capped ⟨plainSettings, CutPool.mostRecent⟩ 2) .quiet
      Telemetry.disabled (Simplex.ofModel OneColumn.capped.model)).result
        = .error (.iterationLimit 2 best)) ∧
    ∀ e : SearchError Float, (branchAndCut ⟨Settings.default, CutPool.mostRecent⟩ .quiet
      Telemetry.disabled (Simplex.ofModel cappedInDouble)).result = .error e →
      ∃ best, e = .iterationLimit 200000 best := by
  constructor
  · have hfails : (branchAndCut (Plan.capped ⟨plainSettings, CutPool.mostRecent⟩ 2) .quiet
        Telemetry.disabled (Simplex.ofModel OneColumn.capped.model)).result.toOption.isSome
        = false := by
      cbv
    generalize hrun : (branchAndCut (Plan.capped ⟨plainSettings, CutPool.mostRecent⟩ 2) .quiet
      Telemetry.disabled (Simplex.ofModel OneColumn.capped.model)).result = result at hfails ⊢
    cases result with
    | ok sol => cases hfails
    | error e =>
      obtain ⟨best, rfl⟩ := ((run_errors (Plan.capped ⟨plainSettings, CutPool.mostRecent⟩ 2)).2
        (Simplex.ofModel OneColumn.capped.model) (by cbv) (by cbv) rfl).2 _ _ _ e hrun
      exact ⟨best, rfl⟩
  · exact ((run_errors (α := Float) ⟨Settings.default, CutPool.mostRecent⟩).2
      (Simplex.ofModel cappedInDouble) (by decide +kernel) (by decide +kernel) rfl).2 _ _ _

end MixedInteger
