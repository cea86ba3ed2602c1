import MixedInteger.Proofs.SearchProgress

/-!
# The cap on iterations

A search without a cap goes on until its root settles it or no node waits. Under a cap it takes the
same nodes in the same order; it ends with the same result if the cap leaves it enough iterations,
and is cut off after exactly so many otherwise.

* `Search.after`: the search without a cap, after so many iterations;
* `Search.EditsAccepted`: the oracle refuses no edit on the way, as with one that refuses none at
  all (`Search.editsAccepted_of_total`);
* `Search.iterationsNeeded`: how many iterations settle it, perhaps infinitely many;
* `Session.explore_after`: a loop under a cap follows the search without one;
* `iterationCap_truncates`: what a run under a cap returns.
-/

namespace MixedInteger

variable {R α : Type} [Scalar α] [Relaxation R α]

namespace Search

/-- The root has settled the search, or no node waits. -/
def Progress.isDone (p : Progress R α) : Bool := p.stop || p.search.pool.isEmpty

/-- The search after `n` iterations without a cap. Once it is settled it stays as it is. -/
def after (plan : Plan α) (root : R) : Nat → Except (SearchError α) (Progress R α)
  | 0 => .ok ⟨initial plan.settings root, false⟩
  | n + 1 =>
    match after plan root n with
    | .error e => .error e
    | .ok p => if p.isDone then .ok p else (p.search.advance plan).2

/-- The oracle refuses none of the edits that the search asks for. -/
def EditsAccepted (plan : Plan α) (root : R) : Prop :=
  ∀ n refusal, after plan root n ≠ .error (.invalidModel refusal)

/-- The search is settled after `n` iterations. -/
def settledAfter (plan : Plan α) (root : R) (n : Nat) : Bool :=
  match after plan root n with
  | .error _ => false
  | .ok p => p.isDone

open Classical in
/-- The number of iterations that settle the search, infinite if none does. -/
noncomputable def iterationsNeeded (plan : Plan α) (root : R) : ℕ∞ :=
  if h : ∃ n, settledAfter plan root n = true then (Nat.find h : ℕ∞) else ⊤

/-! ## The search without a cap -/

section Uncapped

variable {plan : Plan α} {root : R} {n m : Nat} {p q : Progress R α}

theorem settledAfter_eq (h : after plan root n = .ok p) :
    settledAfter plan root n = p.isDone := by
  rw [settledAfter, h]

theorem after_succ_of_done (h : after plan root n = .ok p) (hdone : p.isDone = true) :
    after plan root (n + 1) = .ok p := by
  rw [after, h]
  exact if_pos hdone

theorem after_succ (h : after plan root n = .ok p) (hgoes : p.isDone = false) :
    after plan root (n + 1) = (p.search.advance plan).2 := by
  rw [after, h]
  exact if_neg (Bool.eq_false_iff.mp hgoes)

/-- A settled search stays as it is. -/
theorem after_of_done (h : after plan root n = .ok p) (hdone : p.isDone = true) (hle : n ≤ m) :
    after plan root m = .ok p := by
  induction m, hle using Nat.le_induction with
  | base => exact h
  | succ m _ ih => exact after_succ_of_done ih hdone

omit [Scalar α] [Relaxation R α] in
theorem Progress.waits_of_not_done (hgoes : p.isDone = false) : p.search.pool.isEmpty = false :=
  (Bool.or_eq_false_iff.mp hgoes).2

theorem after_of_error {e : SearchError α} (h : after plan root n = .error e) (hle : n ≤ m) :
    after plan root m = .error e := by
  induction m, hle using Nat.le_induction with
  | base => exact h
  | succ m _ ih => rw [after, ih]

/-- Every search that the uncapped one comes to is one that runs visit. -/
theorem after_visits (h : after plan root n = .ok p) :
    ∃ picks, Visits plan root picks p.search := by
  induction n generalizing p with
  | zero =>
    cases h
    exact ⟨[], .start⟩
  | succ n ih =>
    cases hprev : after plan root n with
    | error e =>
      rw [after, hprev] at h
      cases h
    | ok q =>
      obtain ⟨picks, hvisits⟩ := ih hprev
      cases hdone : q.isDone with
      | true =>
        rw [after_succ_of_done hprev hdone] at h
        cases h
        exact ⟨picks, hvisits⟩
      | false =>
        rw [after_succ hprev hdone] at h
        exact ⟨_, hvisits.next (Progress.waits_of_not_done hdone) (Prod.ext rfl h)⟩

/-- The uncapped search fails only where the oracle refuses an edit. -/
theorem after_error {e : SearchError α} (h : after plan root n = .error e) :
    ∃ refusal, e = .invalidModel refusal ∧ Refuses R refusal := by
  induction n with
  | zero => cases h
  | succ n ih =>
    cases hprev : after plan root n with
    | error e' =>
      rw [after, hprev] at h
      cases h
      exact ih hprev
    | ok q =>
      cases hdone : q.isDone with
      | true =>
        rw [after_succ_of_done hprev hdone] at h
        cases h
      | false =>
        rw [after_succ hprev hdone] at h
        obtain ⟨picks, hvisits⟩ := after_visits hprev
        exact hvisits.ledger.advance_error (Prod.ext rfl h)

/-- An oracle that accepts every edit accepts those of the search. -/
theorem editsAccepted_of_total (hbounds : ∀ (r : R) j side bound,
      ∃ r', Relaxation.setBound r j side bound = .ok r')
    (hrows : ∀ (r : R) row lower, ∃ added, Relaxation.addRow r row lower = .ok added) :
    EditsAccepted plan root := by
  intro n refusal h
  obtain ⟨_, hsame, ⟨r, j, side, bound, hset⟩ | ⟨r, row, lower, hadd⟩⟩ := after_error h
  · obtain ⟨r', hr'⟩ := hbounds r j side bound
    cases hset.symm.trans hr'
  · obtain ⟨added, hadded⟩ := hrows r row lower
    cases hadd.symm.trans hadded

/-- A search that gets settled was refused nothing. -/
theorem editsAccepted_of_done (h : after plan root n = .ok p) (hdone : p.isDone = true) :
    EditsAccepted plan root := by
  intro m refusal hm
  rcases Nat.le_total m n with hle | hle
  · cases h.symm.trans (after_of_error hm hle)
  · cases hm.symm.trans (after_of_done h hdone hle)

theorem EditsAccepted.exists_after (h : EditsAccepted plan root) (n : Nat) :
    ∃ p, after plan root n = .ok p := by
  cases hafter : after plan root n with
  | ok p => exact ⟨p, rfl⟩
  | error e =>
    obtain ⟨refusal, rfl, -⟩ := after_error hafter
    exact absurd hafter (h n refusal)

theorem advance_trace {notices : List (Notice α)} (hgoes : p.isDone = false)
    (h : p.search.advance plan = (notices, .ok q)) :
    ∃ entry, q.search.trace = p.search.trace.push entry := by
  obtain ⟨node, k, pool, fate, children, -, -, hstep⟩ :=
    advance_disposes (Progress.waits_of_not_done hgoes) h
  exact ⟨_, hstep.trace⟩

/-- Until it is settled, the search takes one node in each iteration. -/
theorem size_trace_after (h : after plan root n = .ok p)
    (hgoes : ∀ k < n, settledAfter plan root k = false) : p.search.trace.size = n := by
  induction n generalizing p with
  | zero =>
    cases h
    rfl
  | succ n ih =>
    cases hprev : after plan root n with
    | error e =>
      rw [after, hprev] at h
      cases h
    | ok q =>
      have hdone : q.isDone = false := by
        rw [← settledAfter_eq hprev]
        exact hgoes n (Nat.lt_succ_self n)
      rw [after_succ hprev hdone] at h
      obtain ⟨entry, htrace⟩ := advance_trace hdone (Prod.ext rfl h)
      rw [htrace, Array.size_push, ih hprev]
      intro k hk
      exact hgoes k (Nat.lt_succ_of_lt hk)

/-- What the search has taken is never taken back. -/
theorem trace_prefix (h : after plan root n = .ok p) (hle : n ≤ m)
    (hm : after plan root m = .ok q) : p.search.trace.toList <+: q.search.trace.toList := by
  induction m, hle using Nat.le_induction generalizing q with
  | base =>
    cases h.symm.trans hm
    exact List.prefix_rfl
  | succ m _ ih =>
    cases hprev : after plan root m with
    | error e =>
      rw [after, hprev] at hm
      cases hm
    | ok q' =>
      cases hdone : q'.isDone with
      | true =>
        rw [after_succ_of_done hprev hdone] at hm
        cases hm
        exact ih hprev
      | false =>
        rw [after_succ hprev hdone] at hm
        obtain ⟨entry, htrace⟩ := advance_trace hdone (Prod.ext rfl hm)
        rw [htrace, Array.toList_push]
        exact (ih hprev).trans (List.prefix_append _ _)

end Uncapped

/-! ## How many iterations are needed -/

section Needed

variable {plan : Plan α} {root : R} {n m : Nat}

theorem settledAfter_mono (h : settledAfter plan root n = true) (hle : n ≤ m) :
    settledAfter plan root m = true := by
  cases hafter : after plan root n with
  | error e =>
    rw [settledAfter, hafter] at h
    cases h
  | ok p =>
    rw [settledAfter_eq hafter] at h
    rw [settledAfter_eq (after_of_done hafter h hle), h]

/-- The search is settled after `n` iterations exactly if it needs no more than these. -/
theorem iterationsNeeded_le_iff :
    iterationsNeeded plan root ≤ n ↔ settledAfter plan root n = true := by
  unfold iterationsNeeded
  split
  · rename_i hex
    rw [Nat.cast_le, Nat.find_le_iff]
    constructor
    · rintro ⟨k, hk, hsettled⟩
      exact settledAfter_mono hsettled hk
    · intro hsettled
      exact ⟨n, Nat.le_refl n, hsettled⟩
  · rename_i hnever
    constructor
    · intro hle
      exact absurd hle (not_le.mpr (ENat.natCast_lt_top n))
    · intro hsettled
      exact absurd ⟨n, hsettled⟩ hnever

/-- A search that needs finitely many iterations is settled after these and not before. -/
theorem settledAfter_needed (h : iterationsNeeded plan root = n) :
    settledAfter plan root n = true ∧ ∀ k < n, settledAfter plan root k = false := by
  constructor
  · exact iterationsNeeded_le_iff.mp h.le
  · intro k hk
    rw [← Bool.not_eq_true, ← iterationsNeeded_le_iff, h, Nat.cast_le]
    omega

/-- There is a search that is the last one if any is. -/
theorem EditsAccepted.exists_last (hedits : EditsAccepted plan root) :
    ∃ last, ∀ n p, after plan root n = .ok p → p.isDone = true →
      p = last ∧ iterationsNeeded plan root = last.search.trace.size := by
  cases hneeded : iterationsNeeded plan root with
  | top =>
    obtain ⟨p, -⟩ := hedits.exists_after 0
    refine ⟨p, ?_⟩
    intro n q hq hdone
    have hle : iterationsNeeded plan root ≤ n := by
      rw [iterationsNeeded_le_iff, settledAfter_eq hq, hdone]
    rw [hneeded] at hle
    exact absurd hle (not_le.mpr (ENat.natCast_lt_top n))
  | coe k =>
    obtain ⟨hsettled, hgoes⟩ := settledAfter_needed hneeded
    obtain ⟨last, hlast⟩ := hedits.exists_after k
    rw [settledAfter_eq hlast] at hsettled
    refine ⟨last, ?_⟩
    intro n q hq hdone
    have hle : k ≤ n := by
      rw [← Nat.cast_le (α := ℕ∞), ← hneeded, iterationsNeeded_le_iff, settledAfter_eq hq, hdone]
    constructor
    · exact Except.ok.inj (hq.symm.trans (after_of_done hlast hsettled hle))
    · rw [size_trace_after hlast hgoes]

end Needed

end Search

/-! ## Runs under a cap -/

/-- The same plan with another cap. -/
def Plan.capped (plan : Plan α) (cap : UInt64) : Plan α :=
  { plan with settings := { plan.settings with maxIterations := cap } }

theorem Search.after_capped (plan : Plan α) (cap : UInt64) (root : R) (n : Nat) :
    after (plan.capped cap) root n = after plan root n := by
  induction n with
  | zero => rfl
  | succ n ih =>
    rw [after, after, ih]
    rfl

theorem Plan.validate_capped {plan : Plan α} {cap : UInt64}
    (h : plan.settings.validate = .ok ()) (hcap : cap ≠ 0) :
    (plan.capped cap).settings.validate = .ok () := by
  unfold Settings.validate at h ⊢
  split at h
  · cases h
  · rename_i hfraction
    split at h
    · cases h
    · rename_i htol
      split at h
      · cases h
      · unfold capped
        rw [if_neg hfraction, if_neg htol, if_neg hcap]
        exact h

section Sessions

variable {L : Type} [Link L]

/-- How a loop ends that has come to `p` when it has no iterations left. -/
def Session.endingAt (plan : Plan α) (p : Search.Progress R α) : Ending α :=
  if p.isDone then .settled
  else .failed (.iterationLimit plan.settings.maxIterations.toNat
    p.search.incumbent.bestLowerBound)

/-- A loop that nobody cancels follows the search without a cap. -/
theorem Session.explore_after {plan : Plan α} {root : R} {around : Surroundings L}
    (hquiet : ∀ k link, around.isCancelled k link = false)
    (hedits : Search.EditsAccepted plan root) {remaining n : Nat} {s : Session R α L}
    (h : Search.after plan root n = .ok ⟨s.search, false⟩) :
    ∃ p, Search.after plan root (n + remaining) = .ok p ∧
      (s.explore plan around remaining).1 = endingAt plan p ∧
      (s.explore plan around remaining).2.search = p.search := by
  -- The loop has `n` iterations behind it; the induction is on those that it may still take.
  induction remaining generalizing n s with
  | zero =>
    refine ⟨_, h, ?_⟩
    cases hempty : s.search.pool.isEmpty with
    | true => simp [explore, endingAt, Search.Progress.isDone, hempty]
    | false => simp [explore, endingAt, note, Search.Progress.isDone, hempty, hquiet]
  | succ left ih =>
    cases hempty : s.search.pool.isEmpty with
    | true =>
      have hdone : (⟨s.search, false⟩ : Search.Progress R α).isDone = true := hempty
      refine ⟨_, Search.after_of_done h hdone (Nat.le_add_right _ _), ?_⟩
      simp [explore, endingAt, hdone, hempty]
    | false =>
      have hgoes : (⟨s.search, false⟩ : Search.Progress R α).isDone = false := hempty
      obtain ⟨p, hp⟩ := hedits.exists_after (n + 1)
      have hadvance : s.search.advance plan = ((s.search.advance plan).1, .ok p) :=
        Prod.ext rfl ((Search.after_succ h hgoes).symm.trans hp)
      rw [explore, show n + (left + 1) = n + 1 + left by omega]
      simp only [hempty, hquiet, Bool.false_eq_true, ↓reduceIte]
      rw [hadvance]
      dsimp only
      split
      · rename_i hstop
        have hdone : p.isDone = true := by simp [Search.Progress.isDone, hstop]
        refine ⟨p, Search.after_of_done hp hdone (Nat.le_add_right _ _), ?_, ?_⟩
        · simp [endingAt, hdone]
        · rw [search_publish]
      · rename_i hstop
        apply ih
        rw [search_publish, hp, ← Bool.eq_false_iff.mpr hstop]

/-- The result of a loop that has ended. -/
def Session.Ending.result (ending : Ending α) (s : Search R α) :
    Except (SearchError α) (Solution α) :=
  match ending with
  | .settled => .ok (Solution.ofSearch s (settledStatus s))
  | .cancelled => .ok (Solution.ofSearch s .interrupted)
  | .failed e => .error e

/-- The result of a run is that of its loop. -/
theorem Session.result_run (plan : Plan α) (around : Surroundings L) (s : Session R α L) :
    ∃ s₀ : Session R α L, s₀.search = s.search ∧ (s.run plan around).result =
      (s₀.explore plan around plan.settings.maxIterations.toNat).1.result
        (s₀.explore plan around plan.settings.maxIterations.toNat).2.search := by
  unfold run
  dsimp only
  generalize hnote : s.note _ _ = s₀
  have hsearch : s₀.search = s.search := by
    rw [← hnote]
    rfl
  refine ⟨s₀, hsearch, ?_⟩
  split
  · rename_i hexplore
    rw [hexplore]
    rfl
  · rename_i hexplore
    rw [hexplore]
    rfl
  · rename_i hexplore
    rw [hexplore]
    rfl

end Sessions

section Caps

variable {plan : Plan α} {root : R} {cap : UInt64} {p : Search.Progress R α}

theorem Search.EditsAccepted.capped (h : Search.EditsAccepted plan root) (cap : UInt64) :
    Search.EditsAccepted (plan.capped cap) root := by
  intro n refusal
  rw [Search.after_capped]
  exact h n refusal

/-- What a run under a cap returns is read off the search without one. -/
theorem result_capped {L : Type} [Link L] {around : Surroundings L} (telemetry : Telemetry L)
    (hvalid : plan.settings.validate = .ok ()) (hedits : Search.EditsAccepted plan root)
    (hcap : cap ≠ 0) (hquiet : ∀ k link, around.isCancelled k link = false)
    (h : Search.after plan root cap.toNat = .ok p) :
    (branchAndCut (plan.capped cap) around telemetry root).result = if p.isDone
      then .ok (Solution.ofSearch p.search (Session.settledStatus p.search))
      else .error (.iterationLimit cap.toNat p.search.incumbent.bestLowerBound) := by
  obtain ⟨s, hs, hrun⟩ := Session.result_run (plan.capped cap) around
    ⟨Search.initial plan.settings root, telemetry, #[]⟩
  have hstart : Search.after (plan.capped cap) root 0 = .ok ⟨s.search, false⟩ := by
    rw [hs]
    rfl
  obtain ⟨p', hp', hending, hlast⟩ := Session.explore_after hquiet (hedits.capped cap) hstart
  rw [Search.after_capped, Nat.zero_add] at hp'
  rw [show (plan.capped cap).settings.maxIterations = cap from rfl, hending, hlast] at hrun
  cases h.symm.trans hp'
  unfold branchAndCut
  rw [Plan.validate_capped hvalid hcap]
  refine hrun.trans ?_
  unfold Session.endingAt
  split
  · rfl
  · rfl

end Caps

/-- A cap only cuts a search off. Let no edit be refused and no stop be requested. A run under a cap
returns a solution exactly if the cap is no less than the number of iterations that the search needs
without one, and it is the same solution, of so many iterations, under every such cap. Under a
smaller cap the run fails after exactly that many nodes of the longer search, and reports the
incumbent that it had then. -/
theorem iterationCap_truncates (plan : Plan α) (root : R)
    (hvalid : plan.settings.validate = .ok ()) (hedits : Search.EditsAccepted plan root) :
    ∃ sol : Solution α, ∀ (cap : UInt64) (L : Type) [Link L] (around : Surroundings L)
      (telemetry : Telemetry L), cap ≠ 0 → (∀ k link, around.isCancelled k link = false) →
      let result := (branchAndCut (plan.capped cap) around telemetry root).result
      ((∃ sol', result = .ok sol') ↔ Search.iterationsNeeded plan root ≤ cap.toNat) ∧
      (Search.iterationsNeeded plan root ≤ cap.toNat →
        result = .ok sol ∧ Search.iterationsNeeded plan root = sol.trace.size) ∧
      (cap.toNat < Search.iterationsNeeded plan root →
        ∃ p, Search.after plan root cap.toNat = .ok p ∧ p.search.trace.size = cap.toNat ∧
          (∀ m q, cap.toNat ≤ m → Search.after plan root m = .ok q →
            p.search.trace.toList <+: q.search.trace.toList) ∧
          result = .error (.iterationLimit cap.toNat p.search.incumbent.bestLowerBound)) := by
  obtain ⟨last, hlast⟩ := hedits.exists_last
  refine ⟨Solution.ofSearch last.search (Session.settledStatus last.search), ?_⟩
  intro cap L _ around telemetry hcap hquiet
  dsimp only
  obtain ⟨p, hp⟩ := hedits.exists_after cap.toNat
  rw [result_capped telemetry hvalid hedits hcap hquiet hp]
  have hneeded : Search.iterationsNeeded plan root ≤ cap.toNat ↔ p.isDone = true := by
    rw [Search.iterationsNeeded_le_iff, Search.settledAfter_eq hp]
  refine ⟨?_, ?_, ?_⟩
  · rw [hneeded]
    constructor
    · rintro ⟨sol', hsol'⟩
      by_contra hgoes
      rw [if_neg hgoes] at hsol'
      cases hsol'
    · intro hdone
      exact ⟨_, if_pos hdone⟩
  · intro hle
    have hdone := hneeded.mp hle
    obtain ⟨rfl, hsize⟩ := hlast _ p hp hdone
    rw [if_pos hdone]
    exact ⟨rfl, hsize⟩
  · intro hlt
    have hgoes : ¬ p.isDone = true := by
      rw [← hneeded]
      exact not_le.mpr hlt
    -- It was not settled before either, so that every iteration has taken a node.
    refine ⟨p, hp, ?_, fun m q hle hq => Search.trace_prefix hp hle hq, if_neg hgoes⟩
    apply Search.size_trace_after hp
    intro k hk
    rw [← Bool.not_eq_true, ← Search.iterationsNeeded_le_iff]
    apply not_le.mpr
    exact lt_trans (Nat.cast_lt.mpr hk) hlt

/-- The search needs three iterations. A cap of three leaves its result as it is, and a cap of two
cuts it off with the incumbent 2. -/
theorem iterationCap_truncates_capped : ∃ sol : Solution Exact, sol.trace.size = 3 ∧
    ∀ (L : Type) [Link L] (telemetry : Telemetry L),
    (branchAndCut (Plan.capped ⟨plainSettings, CutPool.mostRecent⟩ 3) .quiet telemetry
      OneColumn.capped).result = .ok sol ∧
    (branchAndCut (Plan.capped ⟨plainSettings, CutPool.mostRecent⟩ 2) .quiet telemetry
      OneColumn.capped).result = .error (.iterationLimit 2 (.fin 2)) := by
  let plan : Plan Exact := ⟨plainSettings, CutPool.mostRecent⟩
  have htwo : (Search.after plan OneColumn.capped 2).map
      (fun p => (p.isDone, p.search.incumbent.bestLowerBound)) = .ok (false, .fin 2) := by
    cbv
  have hthree : (Search.after plan OneColumn.capped 3).map Search.Progress.isDone = .ok true := by
    cbv
  obtain ⟨p, hp, hgoes⟩ := exists_ok_of_map htwo
  obtain ⟨q, hq, hdone⟩ := exists_ok_of_map hthree
  rw [Prod.mk.injEq] at hgoes
  have henough : Search.iterationsNeeded plan OneColumn.capped ≤ (3 : Nat) := by
    rw [Search.iterationsNeeded_le_iff, Search.settledAfter_eq hq, hdone]
  have hshort : (2 : Nat) < Search.iterationsNeeded plan OneColumn.capped := by
    rw [← not_le, Search.iterationsNeeded_le_iff, Search.settledAfter_eq hp, hgoes.1]
    exact Bool.false_ne_true
  obtain ⟨sol, hsol⟩ := iterationCap_truncates plan OneColumn.capped (by cbv)
    (Search.editsAccepted_of_done hq hdone)
  refine ⟨sol, ?_, ?_⟩
  · have hsize := ((hsol 3 Silence .quiet .disabled (by decide) (fun _ _ => rfl)).2.1 henough).2
    rw [hsize, Nat.cast_le] at henough
    rw [hsize, Nat.cast_lt] at hshort
    omega
  · intro L _ telemetry
    constructor
    · exact ((hsol 3 L .quiet telemetry (by decide) (fun _ _ => rfl)).2.1 henough).1
    · obtain ⟨p', hp', -, -, hrun⟩ :=
        (hsol 2 L .quiet telemetry (by decide) (fun _ _ => rfl)).2.2 hshort
      cases hp.symm.trans hp'
      rw [hrun, hgoes.2]
      rfl

end MixedInteger
