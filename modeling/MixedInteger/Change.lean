/-!
# Changes in place

A change reads and writes a state where it is, and it may fail on the way. What it has written
before it fails stays written, so what a failure leaves behind has to be proved of each change.

* `Change`: an answer or a failure, with the state that either leaves behind;
* `Change.after`: the state that is left behind;
* `Change.atomic`: a change that puts a whole new state in place, or fails before it writes;
* `Change.onPart`: a change of one part of a larger state.
-/

namespace MixedInteger

/-- A change of a state `σ` that gives an answer `β` or fails with `ε`. -/
abbrev Change (ε σ β : Type) : Type := EStateM ε σ β

namespace Change

variable {ε σ τ β γ : Type}

/-- The state that a change leaves behind, also when it fails. -/
def after (c : Change ε σ β) (s : σ) : σ :=
  match c.run s with
  | .ok _ s' => s'
  | .error _ s' => s'

/-- Puts the state in place to which `step` leads, and reads the answer off it. Where there is no
such step nothing is written. -/
def atomic (step : σ → Except ε σ) (answer : σ → β) : Change ε σ β := fun s =>
  match step s with
  | .ok s' => .ok (answer s') s'
  | .error e => .error e s

/-- Changes a part of the state. What has become of the part goes back into the whole, also after a
failure. -/
def onPart (part : σ → τ) (replace : σ → τ → σ) (c : Change ε τ β) : Change ε σ β := fun s =>
  match c.run (part s) with
  | .ok b p => .ok b (replace s p)
  | .error e p => .error e (replace s p)

theorem run_map (g : β → γ) (c : Change ε σ β) (s : σ) : (g <$> c : Change ε σ γ).run s =
    match c.run s with
    | .ok b s' => .ok (g b) s'
    | .error e s' => .error e s' :=
  rfl

theorem run_ofExcept (r : Except ε β) (s : σ) : (ofExcept r : Change ε σ β).run s =
    match r with
    | .ok b => .ok b s
    | .error e => .error e s := by
  cases r <;> rfl

theorem run_onPart (part : σ → τ) (replace : σ → τ → σ) (c : Change ε τ β) (s : σ) :
    (onPart part replace c).run s =
      match c.run (part s) with
      | .ok b p => .ok b (replace s p)
      | .error e p => .error e (replace s p) :=
  rfl

theorem run_adaptExcept {ε' : Type} (f : ε → ε') (c : Change ε σ β) (s : σ) :
    (EStateM.adaptExcept f c : Change ε' σ β).run s =
      match c.run s with
      | .ok b s' => .ok b s'
      | .error e s' => .error (f e) s' := by
  unfold EStateM.adaptExcept EStateM.run
  dsimp only
  cases c s <;> rfl

section Atomic

variable (step : σ → Except ε σ) (answer : σ → β)

theorem run_atomic (s : σ) : (atomic step answer).run s =
    match step s with
    | .ok s' => .ok (answer s') s'
    | .error e => .error e s :=
  rfl

theorem after_atomic (s : σ) : (atomic step answer).after s =
    match step s with
    | .ok s' => s'
    | .error _ => s := by
  unfold after
  rw [run_atomic]
  cases step s <;> rfl

theorem map_atomic (g : β → γ) :
    (g <$> atomic step answer : Change ε σ γ) = atomic step (g ∘ answer) := by
  funext s
  change (g <$> atomic step answer : Change ε σ γ).run s = (atomic step (g ∘ answer)).run s
  rw [run_map, run_atomic, run_atomic]
  cases step s <;> rfl

end Atomic

end Change

end MixedInteger
