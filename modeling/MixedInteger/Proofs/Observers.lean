import MixedInteger.Proofs.ControllerSteps
import MixedInteger.Proofs.IterationCap

/-!
# Searching under observation

A controller could look at its telemetry at any time, since events are delivered between its
changes of the search. It comes to the same as a loop over the search alone, beside which events are
delivered. So two runs that are asked to stop after the same iterations return the same result,
whether their events reach an observer, get lost on the way, or are not told at all.

* `Search.unwatched`: the loop without telemetry and log;
* `Session.explore_unwatched`: the loop of a session does the same to its search;
* `conduct_unwatched`: the result of a run is that of the loop;
* `result_ignores_telemetry`: two runs with the same requests to stop return the same result;
* `result_solveObserved`: so do runs over a model with and without an observer.
-/

namespace MixedInteger

variable {R α : Type} [Scalar α] [Relaxation R α]

/-- The loop over a search that nobody watches, asked to stop after the given iterations. -/
def Search.unwatched (plan : Plan α) (stops : Nat → Bool) (remaining : Nat) (s : Search R α) :
    Session.Ending α × Search R α :=
  if s.pool.isEmpty then (.settled, s)
  else if stops s.tally.iterations then (.cancelled, s)
  else
    match remaining with
    | 0 => (.failed (.iterationLimit plan.settings.maxIterations.toNat
        s.incumbent.bestLowerBound), s)
    | left + 1 =>
      match (s.advance plan).2 with
      | .error e => (.failed e, s)
      | .ok p => if p.stop then (.settled, p.search) else unwatched plan stops left p.search

/-- The surroundings of a run that is asked to stop after the given iterations, whatever has become
of its link. -/
def Surroundings.stopping {L : Type} (stops : Nat → Bool) (clock : Nat → Nat) : Surroundings L :=
  ⟨fun iterations _ => stops iterations, clock⟩

section Sessions

variable {L : Type} [Link L]

/-- A loop ends as it does when nobody watches. -/
theorem Session.explore_unwatched (plan : Plan α) (stops : Nat → Bool) (clock : Nat → Nat)
    (remaining : Nat) (s : Session R α L) :
    ((s.explore plan (.stopping stops clock) remaining).1,
      (s.explore plan (.stopping stops clock) remaining).2.search)
      = s.search.unwatched plan stops remaining := by
  induction remaining generalizing s with
  | zero =>
    unfold explore Search.unwatched
    cases s.search.pool.isEmpty with
    | true => rfl
    | false =>
      cases hstop : stops s.search.tally.iterations with
      | true => simp [Surroundings.stopping, hstop, note]
      | false => simp [Surroundings.stopping, hstop, note]
  | succ left ih =>
    unfold explore Search.unwatched
    cases s.search.pool.isEmpty with
    | true => rfl
    | false =>
      cases hstop : stops s.search.tally.iterations with
      | true => simp [Surroundings.stopping, hstop, note]
      | false =>
        -- The iteration is one of the search; the session only passes on what it says.
        simp only [Surroundings.stopping, hstop, Bool.false_eq_true, ↓reduceIte]
        obtain ⟨notices, outcome⟩ := s.search.advance plan
        cases outcome with
        | error e => simp only [search_publish]
        | ok p =>
          dsimp only
          split
          · simp only [search_publish]
          · exact (ih _).trans (by rw [search_publish])

/-- The result of a run is that of a loop which nobody watches. -/
theorem conduct_unwatched (plan : Plan α) (stops : Nat → Bool) (clock : Nat → Nat)
    (telemetry : Telemetry L) (root : R) :
    (conduct plan (.stopping stops clock) telemetry root).result =
      match plan.settings.validate with
      | .error e => .error (.config e)
      | .ok () =>
        let last := (Search.initial plan.settings root).unwatched plan stops
          plan.settings.maxIterations.toNat
        last.1.result last.2 := by
  rw [conduct_eq]
  unfold branchAndCut
  cases plan.settings.validate with
  | error e => rfl
  | ok checked =>
    dsimp only
    obtain ⟨s, hs, hrun⟩ := Session.result_run plan (.stopping stops clock)
      ⟨Search.initial plan.settings root, telemetry, #[]⟩
    have hlast := s.explore_unwatched plan stops clock plan.settings.maxIterations.toNat
    rw [hs] at hlast
    rw [hrun, ← hlast]

end Sessions

/-- A run returns the same result under any two telemetries: the same error, or the same status,
objective, values, description, incumbent node, tree, trace, bound history and counters. Either
telemetry may be switched off from the start or fail at any call of its link, between any two
changes of the search. -/
theorem result_ignores_telemetry (plan : Plan α) (root : R) (stops : Nat → Bool)
    (clock clock' : Nat → Nat) (L L' : Type) [Link L] [Link L'] (telemetry : Telemetry L)
    (telemetry' : Telemetry L') :
    (conduct plan (.stopping stops clock) telemetry root).result
      = (conduct plan (.stopping stops clock') telemetry' root).result := by
  rw [conduct_unwatched, conduct_unwatched]

/-- Unless an observer is to be waited for and does not come, an observed run returns what a run
without observers returns. -/
theorem result_solveObserved {L : Type} [Link L] (net : Network L) (model : Model α)
    (settings : Settings α) : (solveObserved net model settings).result =
      match settings.validate, model.validate, (settings.telemetry net).2 with
      | .ok (), .ok (), .error e => .error (.telemetry e)
      | _, _, _ => (solveModel model settings).result := by
  unfold solveObserved solveModel
  cases settings.validate with
  | error e => rfl
  | ok hvalid =>
    cases model.validate with
    | error e => rfl
    | ok hmodel =>
      dsimp only
      obtain ⟨records, telemetry⟩ := settings.telemetry net
      cases telemetry with
      | error e => rfl
      | ok telemetry =>
        dsimp only
        change (conduct _ (.stopping (fun _ => false) fun _ => 0) _ _).result
          = (branchAndCut _ (.stopping (fun _ => false) fun _ => 0) _ _).result
        rw [← conduct_eq, conduct_unwatched, conduct_unwatched]

end MixedInteger
