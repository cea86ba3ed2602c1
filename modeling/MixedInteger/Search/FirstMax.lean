import MixedInteger.Scalar

/-!
# The first largest score

Node selection and branching rules both scan scores from left to right and keep the first one that
no later score exceeds. A score that cannot be compared replaces the one before it.
-/

namespace MixedInteger

variable {α : Type} [Scalar α]

/-- The search with `best` the leading score so far, at position `found`, and the scores left
starting at `next`. -/
def firstMaxFrom (best : α) (found next : Nat) : List α → Nat
  | [] => found
  | s :: rest =>
    if s ≤ best then firstMaxFrom best found (next + 1) rest
    else firstMaxFrom s next (next + 1) rest

/-- The position found is the one before the scan or one that was scanned. -/
theorem firstMaxFrom_lt (best : α) {found next : Nat} (scores : List α) (h : found < next) :
    firstMaxFrom best found next scores < next + scores.length := by
  induction scores generalizing best found next with
  | nil => exact h
  | cons s rest ih =>
    unfold firstMaxFrom
    split
    · have := ih best (show found < next + 1 by omega)
      simp only [List.length_cons]
      omega
    · have := ih s (show next < next + 1 by omega)
      simp only [List.length_cons]
      omega

/-- The position of the first largest score. -/
def firstMax? : List α → Option Nat
  | [] => none
  | s :: rest => some (firstMaxFrom s 0 1 rest)

theorem exists_firstMax? {scores : List α} (h : scores ≠ []) :
    ∃ i, firstMax? scores = some i ∧ i < scores.length := by
  cases scores with
  | nil => exact absurd rfl h
  | cons s rest =>
    have hlt := firstMaxFrom_lt s rest Nat.zero_lt_one
    refine ⟨firstMaxFrom s 0 1 rest, rfl, ?_⟩
    rw [List.length_cons]
    omega

end MixedInteger
