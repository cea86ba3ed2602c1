import Mathlib.Order.Bounds.Defs
import MixedInteger.Proofs.NumberOrder
import MixedInteger.Search.Branching

/-!
# The first largest score

Node selection and branching scan scores from left to right. What they find is the first position
with a largest score, as long as no score is undefined. An undefined score replaces the one before
it and is replaced by the one after it, so that the last undefined score hides all before it. Even
then the scan finds one of the positions, and scores that come later either leave it or take over.

* `firstMax?_split`: the score found is the first largest one;
* `firstMaxFrom_append`: what further scores do to the position found;
* `largestAt`, `isLeast_largestAt`: the least position with a largest score;
* `BranchingRule.picks_firstLargest`: what the branching rules pick.
-/

namespace MixedInteger

open Scalar

variable {α : Type} [Scalar α]

/-! ## Scores of any kind -/

/-- The scan keeps the position with which it starts or moves on to one that it scans. -/
theorem firstMaxFrom_cases (best : α) (found next : Nat) (scores : List α) :
    firstMaxFrom best found next scores = found ∨ next ≤ firstMaxFrom best found next scores := by
  induction scores generalizing best found next with
  | nil => exact .inl rfl
  | cons s rest ih =>
    unfold firstMaxFrom
    split
    · exact (ih best found (next + 1)).imp_right Nat.le_of_succ_le
    · -- The position of `s` is the first one scanned.
      rcases ih s next (next + 1) with heq | hle
      · exact .inr heq.ge
      · exact .inr (Nat.le_of_succ_le hle)

/-- Further scores leave the position found, or the new one is among theirs. -/
theorem firstMaxFrom_append (best : α) (found next : Nat) (scores more : List α) :
    firstMaxFrom best found next (scores ++ more) = firstMaxFrom best found next scores ∨
      next + scores.length ≤ firstMaxFrom best found next (scores ++ more) := by
  induction scores generalizing best found next with
  | nil => exact firstMaxFrom_cases best found next more
  | cons s rest ih =>
    have hlength : next + (s :: rest).length = next + 1 + rest.length := by
      rw [List.length_cons]
      omega
    rw [hlength, List.cons_append]
    unfold firstMaxFrom
    split
    · exact ih best found (next + 1)
    · exact ih s next (next + 1)

theorem firstMax?_append {scores : List α} {i : Nat} (h : firstMax? scores = some i)
    (more : List α) :
    ∃ j, firstMax? (scores ++ more) = some j ∧ (j = i ∨ scores.length ≤ j) := by
  cases scores with
  | nil => cases h
  | cons s rest =>
    cases h
    have hlength : (s :: rest).length = 1 + rest.length := Nat.add_comm rest.length 1
    rw [hlength]
    exact ⟨_, rfl, firstMaxFrom_append s 0 1 rest more⟩

/-! ## Scores that are defined -/

/-- The positions at which the score is largest. -/
def largestAt {β : Type} (score : β → α) (xs : List β) : Set Nat :=
  {i | ∃ x, xs[i]? = some x ∧ ∀ y ∈ xs, score y ≤ score x}

section Defined

variable [Ordered α]

/-- The scan has seen `before`, all below `best`, and `between`, none of them above it. -/
theorem firstMaxFrom_split {before between rest : List α} {best : α}
    (hdef : ∀ b ∈ before ++ best :: (between ++ rest), isNaN b = false)
    (hbefore : ∀ b ∈ before, b < best) (hbetween : ∀ b ∈ between, b ≤ best) :
    ∃ front b back, before ++ best :: (between ++ rest) = front ++ b :: back ∧
      firstMaxFrom best before.length (before.length + 1 + between.length) rest = front.length ∧
      (∀ c ∈ front, c < b) ∧ ∀ c ∈ back, c ≤ b := by
  induction rest generalizing before between best with
  | nil => exact ⟨before, best, between, by simp, rfl, hbefore, hbetween⟩
  | cons s rest ih =>
    have hbest : isNaN best = false := hdef best (by simp)
    have hs : isNaN s = false := hdef s (by simp)
    unfold firstMaxFrom
    by_cases hle : s ≤ best
    · have hlist : before ++ best :: (between ++ s :: rest)
          = before ++ best :: ((between ++ [s]) ++ rest) := by simp
      rw [if_pos hle]
      rw [hlist] at hdef ⊢
      have hnext : before.length + 1 + between.length + 1
          = before.length + 1 + (between ++ [s]).length := by
        rw [List.length_append, List.length_singleton, Nat.add_assoc]
      rw [hnext]
      apply ih hdef hbefore
      intro b hb
      rcases List.mem_append.mp hb with hb | hb
      · exact hbetween b hb
      · rw [List.mem_singleton.mp hb]
        exact hle
    · have hlt : best < s := (Ordered.le_or_lt hs hbest).resolve_left hle
      have hlist : before ++ best :: (between ++ s :: rest)
          = (before ++ best :: between) ++ s :: ([] ++ rest) := by simp
      have hfound : before.length + 1 + between.length = (before ++ best :: between).length := by
        rw [List.length_append, List.length_cons]
        omega
      rw [if_neg hle, hfound]
      rw [hlist] at hdef ⊢
      apply ih hdef
      · intro b hb
        have hb' : isNaN b = false := hdef b (List.mem_append_left _ hb)
        rcases List.mem_append.mp hb with hold | hnew
        · exact Ordered.lt_of_le_of_lt hb' hs (Ordered.le_of_lt (hbefore b hold)) hlt
        · rcases List.mem_cons.mp hnew with rfl | hbetw
          · exact hlt
          · exact Ordered.lt_of_le_of_lt hb' hs (hbetween b hbetw) hlt
      · intro b hb
        cases hb

/-- Among scores that are defined, the one found is a largest one, and all before it are smaller. -/
theorem firstMax?_split {scores : List α} (hdef : ∀ b ∈ scores, isNaN b = false)
    (hscores : scores ≠ []) :
    ∃ front b back, scores = front ++ b :: back ∧ firstMax? scores = some front.length ∧
      (∀ c ∈ front, c < b) ∧ ∀ c ∈ back, c ≤ b := by
  cases scores with
  | nil => exact absurd rfl hscores
  | cons s rest =>
    obtain ⟨front, b, back, hsplit, hfound, hfront, hback⟩ :=
      @firstMaxFrom_split _ _ _ [] [] rest s hdef (by simp) (by simp)
    exact ⟨front, b, back, hsplit, congrArg some hfound, hfront, hback⟩

/-- Among scores that are defined, the position found is the least one with a largest score. -/
theorem isLeast_largestAt {β : Type} {score : β → α} {xs : List β}
    (hdef : ∀ x ∈ xs, isNaN (score x) = false) (hxs : xs ≠ []) :
    ∃ i, firstMax? (xs.map score) = some i ∧ IsLeast (largestAt score xs) i := by
  have hscores : ∀ s ∈ xs.map score, isNaN s = false := List.forall_mem_map.mpr hdef
  obtain ⟨front, s, back, hsplit, hfound, hfront, hback⟩ :=
    firstMax?_split hscores (mt List.map_eq_nil_iff.mp hxs)
  obtain ⟨before, tail, rfl, rfl, htail⟩ := List.map_eq_append_iff.mp hsplit
  obtain ⟨x, after, rfl, rfl, rfl⟩ := List.map_eq_cons_iff.mp htail
  rw [List.forall_mem_map] at hfront hback
  rw [List.length_map] at hfound
  have hx : x ∈ before ++ x :: after := List.mem_append_right _ List.mem_cons_self
  refine ⟨before.length, hfound, ⟨x, by simp, ?_⟩, ?_⟩
  · rw [List.forall_mem_append, List.forall_mem_cons]
    exact ⟨fun y hy => Ordered.le_of_lt (hfront y hy), Ordered.le_refl (hdef x hx), hback⟩
  · rintro j ⟨y, hy, hlargest⟩
    by_contra hj
    have hmem : y ∈ before := by
      rw [List.getElem?_append_left (Nat.lt_of_not_le hj)] at hy
      exact List.mem_of_getElem? hy
    exact Ordered.not_lt_of_le (hlargest x hx) (hfront y hmem)

end Defined

/-- The score after an undefined one is taken, although the one before both is larger. -/
example : firstMax? [(1 : Float), 0 / 0, 0] = some 2 := by decide +kernel

namespace BranchingRule

/-! ## Branching rules -/

variable {vs : List (Violation α)} {i : Nat}

theorem select?_eq_none_iff (rule : BranchingRule) : rule.select? vs = none ↔ vs = [] := by
  constructor
  · intro hnone
    by_contra hvs
    obtain ⟨i, hi, -⟩ := rule.exists_select? hvs
    cases hnone.symm.trans hi
  · rintro rfl
    cases rule <;> rfl

theorem select?_lt {rule : BranchingRule} (h : rule.select? vs = some i) : i < vs.length := by
  have hvs : vs ≠ [] := by
    intro hnil
    cases h.symm.trans (rule.select?_eq_none_iff.mpr hnil)
  obtain ⟨j, hj, hlt⟩ := rule.exists_select? hvs
  cases h.symm.trans hj
  exact hlt

/-- Further violations leave the choice, or take it over. -/
theorem select?_append {rule : BranchingRule} (h : rule.select? vs = some i)
    (more : List (Violation α)) :
    ∃ j, rule.select? (vs ++ more) = some j ∧ (j = i ∨ vs.length ≤ j) := by
  have hscores {score : Violation α → α} (hi : firstMax? (vs.map score) = some i) :
      ∃ j, firstMax? ((vs ++ more).map score) = some j ∧ (j = i ∨ vs.length ≤ j) := by
    rw [List.map_append, ← List.length_map score]
    exact firstMax?_append hi (more.map score)
  cases rule with
  | inOrder =>
    cases vs with
    | nil => cases h
    | cons v vs => exact ⟨i, h, .inl rfl⟩
  | closestToHalf => exact hscores h
  | greatestObjectiveImpact => exact hscores h

/-- What the branching rules pick from any number of violations. Unless a score is undefined, one
rule picks the least position at which the distance of the fractional part from a half is smallest,
and the other the least position at which the absolute value of the objective coefficient is
largest. However the violations score, each rule picks one of them, nothing only if there are none,
and further violations leave the choice or take it over. -/
theorem picks_firstLargest [Ordered α] (vs : List (Violation α)) :
    let closeness (v : Violation α) : α := -Scalar.abs (v.value - floor v.value - 0.5)
    let impact (v : Violation α) : α := Scalar.abs v.objective
    (vs ≠ [] → (∀ v ∈ vs, isNaN (closeness v) = false) → ∃ i,
      closestToHalf.select? vs = some i ∧ IsLeast (largestAt closeness vs) i) ∧
    (vs ≠ [] → (∀ v ∈ vs, isNaN (impact v) = false) → ∃ i,
      greatestObjectiveImpact.select? vs = some i ∧ IsLeast (largestAt impact vs) i) ∧
    ∀ rule : BranchingRule,
      (rule.select? vs = none ↔ vs = []) ∧
      ∀ i, rule.select? vs = some i → i < vs.length ∧ ∀ more, ∃ j,
        rule.select? (vs ++ more) = some j ∧ i ≤ j ∧ (j = i ∨ vs.length ≤ j) := by
  intro closeness impact
  refine ⟨?_, ?_, fun rule => ⟨rule.select?_eq_none_iff, fun i hi => ⟨select?_lt hi, ?_⟩⟩⟩
  · intro hvs hdef
    exact isLeast_largestAt hdef hvs
  · intro hvs hdef
    exact isLeast_largestAt hdef hvs
  · intro more
    obtain ⟨j, hj, hcases⟩ := select?_append hi more
    refine ⟨j, hj, ?_, hcases⟩
    rcases hcases with rfl | hle
    · exact Nat.le_refl j
    · exact (select?_lt hi).le.trans hle

/-- The first has the largest value and the third the largest objective coefficient. The second and
the third are both a quarter away from a half and weigh the same. -/
def fourViolations : List (Violation Float) :=
  [⟨0, 5.9, 3⟩, ⟨2, 4.25, -7⟩, ⟨5, 0.75, 7⟩, ⟨6, 2.9, 1⟩]

theorem picks_firstLargest_fourViolations :
    closestToHalf.select? fourViolations = some 1 ∧
    IsLeast (largestAt (fun v : Violation Float =>
      -Scalar.abs (v.value - floor v.value - 0.5)) fourViolations) 1 ∧
    greatestObjectiveImpact.select? fourViolations = some 1 ∧
    IsLeast (largestAt (fun v : Violation Float => Scalar.abs v.objective) fourViolations) 1 := by
  have hcloseness : closestToHalf.select? fourViolations = some 1 := by decide +kernel
  have himpact : greatestObjectiveImpact.select? fourViolations = some 1 := by decide +kernel
  obtain ⟨hclosest, hgreatest, -⟩ := picks_firstLargest fourViolations
  obtain ⟨i, hi, hleast⟩ := hclosest (by simp [fourViolations]) (by decide +kernel)
  obtain ⟨j, hj, hleast'⟩ := hgreatest (by simp [fourViolations]) (by decide +kernel)
  cases hi.symm.trans hcloseness
  cases hj.symm.trans himpact
  exact ⟨hcloseness, hleast, himpact, hleast'⟩

end BranchingRule

end MixedInteger
