import MixedInteger.Proofs.RatioTest

/-!
# One step without tolerances

A step moves the point of the tableau along the velocities of the variables until the first of them
is stopped. It crosses the end of no range on the way, so what it gains is linear: the distance from
the ranges shrinks while there is any, and afterwards the objective grows.

* `Model.drive`: the cost of a step is determined by the point alone;
* `Tableau.entering_spec`: which variable moves, and which do not;
* `Tableau.Poised`: the invariant of a run without tolerances;
* `Tableau.move_strides`, `Tableau.next?_spec`: what a step does;
* `Tableau.Strides.merit_lt`: a step that moves the point makes progress.
-/

namespace MixedInteger

open Exact hiding isFinite isNaN
open Scalar (isFinite isNaN)

/-! ## Resting variables -/

namespace Resting

variable {range : Exact × Exact} {rest : Resting} {dir : Heading} {x : ℚ}

/-- A variable that rests there may move in this direction. -/
def Allows (rest : Resting) : Heading → Prop
  | .up => rest.canGrow = true
  | .down => rest.canShrink = true

/-- A variable moves away from the end where it rests, or is free. -/
theorem Allows.cases (h : rest.Allows dir) :
    rest = .free ∨ (dir = .up ∧ rest = .atLower) ∨ (dir = .down ∧ rest = .atUpper) := by
  cases dir with
  | up =>
    cases rest with
    | atLower => exact .inr (.inl ⟨rfl, rfl⟩)
    | free => exact .inl rfl
    | atUpper => cases h
    | fixed => cases h
  | down =>
    cases rest with
    | atUpper => exact .inr (.inr ⟨rfl, rfl⟩)
    | free => exact .inl rfl
    | atLower => cases h
    | fixed => cases h

theorem Allows.ne_fixed (h : rest.Allows dir) : rest ≠ .fixed := by
  rintro rfl
  cases dir <;> cases h

/-- A variable that rests is in its range. -/
theorem Fits.inside (h : rest.Fits range.1 range.2) (hle : range.1 ≤ range.2)
    (hx : rest.value range.1 range.2 = .fin x) : range.1 ≤ .fin x ∧ .fin x ≤ range.2 := by
  cases rest with
  | atLower =>
    rw [Resting.value] at hx
    rw [hx] at hle ⊢
    exact ⟨fin_le.mpr le_rfl, hle⟩
  | atUpper =>
    rw [Resting.value] at hx
    rw [hx] at hle ⊢
    exact ⟨hle, fin_le.mpr le_rfl⟩
  | fixed =>
    rw [Resting.value] at hx
    rw [← h.2, hx]
    exact ⟨fin_le.mpr le_rfl, fin_le.mpr le_rfl⟩
  | free =>
    rw [h.1, h.2]
    exact ⟨negInf_le_fin x, fin_le_posInf x⟩

/-- A variable that moves as far as its range is wide comes to the other end. -/
theorem Fits.crosses (h : rest.Fits range.1 range.2) (hdir : rest.Allows dir) {l u : ℚ}
    (hl : range.1 = .fin l) (hu : range.2 = .fin u) (hx : rest.value range.1 range.2 = .fin x) :
    dir.target.value range.1 range.2 = .fin (x + (u - l) * dir.sign) := by
  rcases hdir.cases with rfl | ⟨rfl, rfl⟩ | ⟨rfl, rfl⟩
  · simp [Fits, hl] at h
  · obtain rfl : l = x := by simpa [value, hl] using hx
    simp [Heading.target, Heading.sign, value, hu]
  · obtain rfl : u = x := by simpa [value, hu] using hx
    simp [Heading.target, Heading.sign, value, hl]

/-- A variable that moves away from where it rests is stopped only if its range is finite, and then
after its whole width. -/
theorem Fits.stopped (h : rest.Fits range.1 range.2) (hint : IsInterval range)
    (hdir : rest.Allows dir) (hx : rest.value range.1 range.2 = .fin x) {leave : Resting}
    (hstop : stop? range x dir.sign = some leave) :
    ∃ l u, range.1 = .fin l ∧ range.2 = .fin u ∧ travelTime range x dir.sign leave = u - l := by
  obtain ⟨hlow, hup⟩ := h.inside hint.ordered hx
  rcases stop?_cases hint.proper hstop with
    ⟨-, rfl, e, he, hlt⟩ | ⟨-, rfl, e, he, hlt⟩ | ⟨hw, rfl, e, he, -⟩ | ⟨hw, rfl, e, he, -⟩
  · rw [he, fin_le] at hlow
    exact absurd hlt hlow.not_gt
  · rw [he, fin_le] at hup
    exact absurd hlt hup.not_gt
  · rcases hdir.cases with rfl | ⟨rfl, rfl⟩ | ⟨rfl, rfl⟩
    · simp [Fits, he] at h
    · exact ⟨x, e, hx, he, by simp [travelTime, value, he, Heading.sign]⟩
    · norm_num [Heading.sign] at hw
  · rcases hdir.cases with rfl | ⟨rfl, rfl⟩ | ⟨rfl, rfl⟩
    · simp [Fits, he] at h
    · norm_num [Heading.sign] at hw
    · exact ⟨e, x, he, hx, by simp [travelTime, value, he, Heading.sign, div_neg]⟩

/-- A variable that may move is not pressed against the end that it moves towards. -/
theorem Fits.not_isStuck (h : rest.Fits range.1 range.2) (hopen : range.1 ≠ range.2)
    (hdir : rest.Allows dir) (hx : rest.value range.1 range.2 = .fin x) {w : ℚ}
    (hw : 0 < w * dir.sign) : ¬ IsStuck range x w := by
  rintro (⟨hpos, hu⟩ | ⟨hneg, hl⟩)
  · rcases hdir.cases with rfl | ⟨rfl, rfl⟩ | ⟨rfl, rfl⟩
    · simp [Fits, hu] at h
    · exact hopen (hx.trans hu.symm)
    · rw [Heading.sign, mul_neg_one, neg_pos] at hw
      exact absurd hw hpos.not_gt
  · rcases hdir.cases with rfl | ⟨rfl, rfl⟩ | ⟨rfl, rfl⟩
    · simp [Fits, hl] at h
    · rw [Heading.sign, mul_one] at hw
      exact absurd hw hneg.not_gt
    · exact hopen (hl.trans hx.symm)

/-- A variable that moves in a direction in which it may not is pressed against its range. -/
theorem Fits.isStuck (h : rest.Fits range.1 range.2) (hx : rest.value range.1 range.2 = .fin x)
    {w : ℚ} (hw : w ≠ 0) (hup : 0 < w → ¬ rest.Allows .up) (hdown : w < 0 → ¬ rest.Allows .down) :
    IsStuck range x w := by
  rcases hw.lt_or_gt with hneg | hpos
  · refine .inr ⟨hneg, ?_⟩
    cases rest with
    | atLower => exact hx
    | fixed => exact hx
    | atUpper => exact absurd rfl (hdown hneg)
    | free => exact absurd rfl (hdown hneg)
  · refine .inl ⟨hpos, ?_⟩
    cases rest with
    | atUpper => exact hx
    | fixed => exact h.2 ▸ hx
    | atLower => exact absurd rfl (hup hpos)
    | free => exact absurd rfl (hup hpos)

end Resting

/-! ## The cost of a step -/

namespace Model

variable {model : Model Exact}

/-- The cost that a step from the point `x` improves: the way back into the ranges while a variable
is outside, afterwards the objective. -/
def drive (model : Model Exact) (x : Fin (model.numRows + model.numCols) → ℚ)
    (k : Fin (model.numRows + model.numCols)) : ℚ :=
  if ∀ j : Fin (model.numRows + model.numCols), pull (model.varRange j) (x j) = 0
  then model.costAt k
  else pull (model.varRange k) (x k)

/-- How good a point is: by its distance from the ranges, and then by its objective. -/
def merit (model : Model Exact) (x : Fin (model.numRows + model.numCols) → ℚ) : ℚ ×ₗ ℚ :=
  toLex (-∑ k : Fin (model.numRows + model.numCols), shortfall (model.varRange k) (x k),
    ∑ k, model.costAt k * x k)

end Model

namespace Tableau

section Drive

variable {model : Model Exact} {t : Tableau Exact model.numRows model.numCols}

theorem Sound.resting_value (ht : t.Sound) {k : Fin (model.numRows + model.numCols)}
    {rest : Resting} (hk : t.place.get k = .nonbasic rest) :
    rest.value (model.varRange k).1 (model.varRange k).2 = .fin (t.point k) := by
  rw [← ht.values_eq, point_resting t hk, ht.lower, ht.upper]

theorem Sound.resting_fits (ht : t.Sound) {k : Fin (model.numRows + model.numCols)}
    {rest : Resting} (hk : t.place.get k = .nonbasic rest) :
    rest.Fits (model.varRange k).1 (model.varRange k).2 := by
  have hfits := ht.fits k rest hk
  rwa [ht.lower, ht.upper] at hfits

theorem pull_resting (hint : HasIntervals model) (ht : t.Sound)
    {k : Fin (model.numRows + model.numCols)} {rest : Resting}
    (hk : t.place.get k = .nonbasic rest) : pull (model.varRange k) (t.point k) = 0 := by
  obtain ⟨hlow, hup⟩ := (ht.resting_fits hk).inside (hint k).ordered (ht.resting_value hk)
  exact pull_inside hlow hup

theorem isBelow_iff (ht : t.Sound) (k : Fin (model.numRows + model.numCols)) :
    t.isBelow 0 t.values k = true ↔ .fin (t.point k) < (model.varRange k).1 := by
  simp [isBelow, ht.values_eq, ht.lower]

theorem isAbove_iff (ht : t.Sound) (k : Fin (model.numRows + model.numCols)) :
    t.isAbove 0 t.values k = true ↔ (model.varRange k).2 < .fin (t.point k) := by
  simp [isAbove, ht.values_eq, ht.upper]

theorem outside_iff (ht : t.Sound) (k : Fin (model.numRows + model.numCols)) :
    (t.isBelow 0 t.values k || t.isAbove 0 t.values k) = true
      ↔ pull (model.varRange k) (t.point k) ≠ 0 := by
  rw [Bool.or_eq_true, isBelow_iff ht, isAbove_iff ht, pull]
  by_cases hbelow : .fin (t.point k) < (model.varRange k).1
  · simp [hbelow]
  · by_cases habove : (model.varRange k).2 < .fin (t.point k)
    · simp [hbelow, habove]
    · simp [hbelow, habove]

theorem inPhaseOne_iff (hint : HasIntervals model) (ht : t.Sound) :
    t.inPhaseOne 0 t.values = true ↔
      ∃ j : Fin (model.numRows + model.numCols), pull (model.varRange j) (t.point j) ≠ 0 := by
  rw [inPhaseOne, List.any_eq_true]
  constructor
  · rintro ⟨r, -, hr⟩
    exact ⟨_, (outside_iff ht _).mp hr⟩
  · rintro ⟨j, hj⟩
    cases hplace : t.place.get j with
    | nonbasic rest => exact absurd (pull_resting hint ht hplace) hj
    | basic r =>
      refine ⟨r, List.mem_finRange r, (outside_iff ht _).mpr ?_⟩
      rwa [ht.canonical.head_place j r hplace]

theorem inPhaseOne_eq_false (hint : HasIntervals model) (ht : t.Sound) :
    t.inPhaseOne 0 t.values = false ↔
      ∀ j : Fin (model.numRows + model.numCols), pull (model.varRange j) (t.point j) = 0 := by
  rw [← Bool.not_eq_true, inPhaseOne_iff hint ht]
  push Not
  rfl

/-- The cost of a step depends on the point alone. -/
theorem cost_eq (wf : model.WellFormed) (hint : HasIntervals model) (ht : t.Sound)
    (k : Fin (model.numRows + model.numCols)) :
    (t.cost 0 model.objective t.values).get k = .fin (model.drive t.point k) := by
  rw [cost, Model.drive]
  by_cases hphase : t.inPhaseOne 0 t.values = true
  · obtain ⟨j, hj⟩ := (inPhaseOne_iff hint ht).mp hphase
    have hnot : ¬ ∀ j : Fin (model.numRows + model.numCols),
        pull (model.varRange j) (t.point j) = 0 := fun hall => hj (hall j)
    rw [if_pos hphase, if_neg hnot, repairCost, get_ofFn]
    cases hplace : t.place.get k with
    | nonbasic rest =>
      rw [pull_resting hint ht hplace]
      rfl
    | basic r =>
      have hbelow := isBelow_iff ht k
      have habove := isAbove_iff ht k
      simp only [Place.isBasic, Bool.not_true, Bool.false_eq_true, ↓reduceIte, hbelow, habove, pull]
      split
      · rfl
      · split <;> rfl
  · have hall := (inPhaseOne_eq_false hint ht).mp (Bool.eq_false_iff.mpr hphase)
    rw [if_neg hphase, if_pos hall, Model.objectiveCost_eq wf]

end Drive

/-! ## The entering variable -/

section Entering

variable {model : Model Exact} {t : Tableau Exact model.numRows model.numCols}
  {q : Fin (model.numRows + model.numCols)} {dir : Heading}

/-- Variable `q` may move in a direction that pays, and no variable of smaller index may. -/
structure Enters (t : Tableau Exact model.numRows model.numCols)
    (c : Fin (model.numRows + model.numCols) → ℚ) (q : Fin (model.numRows + model.numCols))
    (dir : Heading) : Prop where
  resting : ∃ rest, t.place.get q = .nonbasic rest ∧ rest.Allows dir
  pays : 0 < t.reduced c q * dir.sign
  first : ∀ k < q, ∀ rest, t.place.get k = .nonbasic rest →
    (rest.Allows .up → t.reduced c k ≤ 0) ∧ (rest.Allows .down → 0 ≤ t.reduced c k)

/-- What the search through the indices in increasing order passes over. -/
theorem entering_first {α : Type} [Scalar α] {m n : Nat} {t : Tableau α m n} {tolCost : α}
    {cost : Vector α (m + n)} {q : Fin (m + n)} {dir : Heading}
    (h : t.entering tolCost cost = some (q, dir)) :
    t.improving? tolCost cost q = some dir ∧ ∀ k < q, t.improving? tolCost cost k = none := by
  obtain ⟨before, k, after, hsplit, hfound, hnone⟩ := List.findSome?_eq_some_iff.mp h
  obtain ⟨dir', himp, heq⟩ := Option.map_eq_some_iff.mp hfound
  obtain ⟨rfl, rfl⟩ := Prod.mk.inj heq
  refine ⟨himp, fun j hj => ?_⟩
  have hsorted := List.pairwise_lt_finRange (m + n)
  have hmem := List.mem_finRange j
  rw [hsplit] at hsorted hmem
  rcases List.mem_append.mp hmem with hbefore | hafter
  · exact Option.map_eq_none_iff.mp (hnone j hbefore)
  · rcases List.mem_cons.mp hafter with rfl | hlater
    · exact absurd hj (lt_irrefl j)
    · have hlt := List.rel_of_pairwise_cons (List.pairwise_append.mp hsorted).2.1 hlater
      exact absurd hj hlt.not_gt

/-- The variable that enters may move in its direction, and that pays. -/
theorem entering_pays (ht : t.Canonical)
    {cost : Vector Exact (model.numRows + model.numCols)}
    {c : Fin (model.numRows + model.numCols) → ℚ} (hcost : ∀ k, cost.get k = .fin (c k))
    {tol : Exact} (htol : 0 ≤ tol) (h : t.entering tol cost = some (q, dir)) :
    (∃ rest, t.place.get q = .nonbasic rest ∧ rest.Allows dir) ∧
      0 < t.reduced c q * dir.sign := by
  have himp := (entering_first h).1
  unfold improving? at himp
  split at himp
  · cases himp
  · rename_i rest hplace
    rw [reducedCost_eq ht hcost] at himp
    split at himp
    · cases himp
    · rcases tolerance_cases htol with rfl | ⟨e, he, rfl⟩
      · cases himp
      · dsimp only at himp
        split at himp
        · rename_i hup
          cases himp
          simp only [Bool.and_eq_true, decide_eq_true_eq, gt_iff_lt, fin_lt] at hup
          refine ⟨⟨rest, hplace, hup.2⟩, ?_⟩
          rw [Heading.sign, mul_one]
          exact he.trans_lt hup.1
        · split at himp
          · rename_i hdown
            cases himp
            simp only [Bool.and_eq_true, decide_eq_true_eq, neg_fin, fin_lt] at hdown
            refine ⟨⟨rest, hplace, hdown.2⟩, ?_⟩
            rw [Heading.sign, mul_neg_one, neg_pos]
            exact hdown.1.trans_le (neg_nonpos.mpr he)
          · cases himp

theorem entering_spec (ht : t.Canonical)
    {cost : Vector Exact (model.numRows + model.numCols)}
    {c : Fin (model.numRows + model.numCols) → ℚ} (hcost : ∀ k, cost.get k = .fin (c k))
    (h : t.entering 0 cost = some (q, dir)) : t.Enters c q dir := by
  obtain ⟨hresting, hpays⟩ := entering_pays ht hcost (fin_le.mpr le_rfl) h
  refine ⟨hresting, hpays, fun k hk rest hrest => ?_⟩
  have hnone := (entering_first h).2 k hk
  have hbounds := reduced_bounds_of_improving? ht hcost (e := 0) hrest hnone
  rwa [neg_zero] at hbounds

end Entering

/-! ## The invariant -/

section Poised

variable {model : Model Exact} {t : Tableau Exact model.numRows model.numCols}

/-- The tableau is sound, and a variable whose ends coincide rests as fixed. -/
structure Poised (t : Tableau Exact model.numRows model.numCols) : Prop where
  sound : t.Sound
  isOpen : ∀ k rest, t.place.get k = .nonbasic rest → rest ≠ .fixed →
    (model.varRange k).1 ≠ (model.varRange k).2

/-- Ends that coincide compare equal. -/
theorem beq_of_eq {range : Exact × Exact} (h : IsProper range) (heq : range.1 = range.2) :
    (range.1 == range.2) = true := by
  rcases h.lower_cases with hl | ⟨l, hl⟩
  · have hup := h.2
    rw [← heq, hl] at hup
    cases hup
  · rw [← heq, hl, fin_beq]
    exact decide_eq_true rfl

theorem poised_slackBasis (wf : model.WellFormed) (hint : HasIntervals model) :
    (slackBasis model).Poised := by
  refine ⟨sound_slackBasis wf fun k hk => (hint ⟨k, hk⟩).proper, ?_⟩
  intro k rest hk hfixed heq
  simp only [slackBasis, get_ofFn] at hk
  split at hk
  · cases hk
  · cases hk
    apply hfixed
    rw [Resting.initial, if_pos (beq_of_eq (hint k).proper heq)]

theorem poised_flip (ht : t.Poised) {q : Fin (model.numRows + model.numCols)} {rest : Resting}
    (hq : t.place.get q = .nonbasic rest) (hopen : rest ≠ .fixed) {target : Resting}
    (hsound : (t.flip q target).Sound) : (t.flip q target).Poised := by
  refine ⟨hsound, ?_⟩
  intro k rest' hk hfixed
  rw [place_flip] at hk
  split at hk
  · subst k
    exact ht.isOpen q rest hq hopen
  · exact ht.isOpen k rest' hk hfixed

theorem poised_pivot (hint : HasIntervals model) (ht : t.Poised) {p : Fin model.numRows}
    {q : Fin (model.numRows + model.numCols)} {leave : Resting}
    (hsound : (t.pivot 0 p q leave).Sound) : (t.pivot 0 p q leave).Poised := by
  refine ⟨hsound, ?_⟩
  intro k rest hk hfixed heq
  rw [place_pivot] at hk
  split at hk
  · cases hk
  · split at hk
    · subst k
      cases hk
      apply hfixed
      rw [ht.sound.lower, ht.sound.upper, if_pos (beq_of_eq (hint _).proper heq)]
    · exact ht.isOpen k rest hk hfixed heq

end Poised

/-! ## Steps -/

section Stride

variable {model : Model Exact} {t next : Tableau Exact model.numRows model.numCols}
  {s : SimplexSettings Exact} {q : Fin (model.numRows + model.numCols)} {dir : Heading}
  {rest : Resting} {θ : ℚ}

/-- The tableau after one step, none where the run stops. -/
def next? {α : Type} [Scalar α] {m n : Nat} (s : SimplexSettings α) (objective : Array α)
    (t : Tableau α m n) : Option (Tableau α m n) :=
  (t.entering s.tolCost (t.cost s.tolFeas objective t.values)).bind fun (q, dir) =>
    t.move s t.values q dir

/-- A step from `t` to `next`: variable `q` enters and moves for the time `θ`. If that is no time at
all, a basic variable that is stuck leaves, the one of smallest index. -/
structure Strides (t : Tableau Exact model.numRows model.numCols)
    (q : Fin (model.numRows + model.numCols)) (dir : Heading) (θ : ℚ)
    (next : Tableau Exact model.numRows model.numCols) : Prop where
  enters : t.Enters (model.drive t.point) q dir
  nonneg : 0 ≤ θ
  point : ∀ k, next.point k = t.point k + θ * t.velocity q dir k
  sameSide : ∀ k : Fin (model.numRows + model.numCols),
    SameSide (model.varRange k) (t.point k) (next.point k)
  leaves : θ = 0 → ∃ r leave, next = t.pivot 0 r q leave ∧
    IsStuck (model.varRange (t.head.get r)) (t.point (t.head.get r))
      (t.velocity q dir (t.head.get r)) ∧
    ∀ r', IsStuck (model.varRange (t.head.get r')) (t.point (t.head.get r'))
      (t.velocity q dir (t.head.get r')) → t.head.get r ≤ t.head.get r'

/-- No variable is stopped before the time `θ` if no basic one is and `q` does not cross its
range. -/
theorem sameSide_of_time (hs : s.IsStrict) (hint : HasIntervals model) (ht : t.Sound)
    (hq : t.place.get q = .nonbasic rest) (hdir : rest.Allows dir) (hθ : 0 ≤ θ)
    (hbasic : ∀ r c, t.candidate s t.values q dir r = some c →
      ∃ γ : ℚ, c.ratio = .fin γ ∧ θ ≤ γ)
    (hown : ∀ l u, (model.varRange q).1 = .fin l → (model.varRange q).2 = .fin u → θ ≤ u - l)
    (k : Fin (model.numRows + model.numCols)) :
    SameSide (model.varRange k) (t.point k) (t.point k + θ * t.velocity q dir k) := by
  refine sameSide_of_le (hint k) hθ fun leave hstop => ?_
  cases hk : t.place.get k with
  | basic r =>
    have hhead := ht.canonical.head_place k r hk
    have hcand := candidate_eq hs hint ht q dir r
    rw [hhead, hstop] at hcand
    obtain ⟨γ, hγ, hle⟩ := hbasic r _ hcand
    cases hγ
    exact hle
  | nonbasic rest' =>
    rw [velocity_resting hk] at hstop ⊢
    by_cases hkq : k = q
    · subst hkq
      rw [if_pos rfl] at hstop ⊢
      obtain ⟨l, u, hl, hu, htime⟩ := (ht.resting_fits hq).stopped (hint k) hdir
        (ht.resting_value hq) hstop
      rw [htime]
      exact hown l u hl hu
    · rw [if_neg hkq, stop?, if_pos rfl] at hstop
      cases hstop

/-- A flip moves the point through the range of the variable. -/
theorem point_flip (ht : t.Sound) (hq : t.place.get q = .nonbasic rest) (hdir : rest.Allows dir)
    {l u : ℚ} (hl : (model.varRange q).1 = .fin l) (hu : (model.varRange q).2 = .fin u)
    (hnext : (t.flip q dir.target).Sound) (k : Fin (model.numRows + model.numCols)) :
    (t.flip q dir.target).point k = t.point k + (u - l) * t.velocity q dir k := by
  refine (congrFun (eq_point hnext (solves_along ht hq dir (u - l)) ?_) k).symm
  intro j rest' hj
  rw [along]
  have hvalue := hnext.resting_value hj
  rw [place_flip] at hj
  by_cases hjq : j = q
  · subst hjq
    rw [if_pos rfl] at hj
    cases hj
    rw [(ht.resting_fits hq).crosses hdir hl hu (ht.resting_value hq)] at hvalue
    rw [velocity_resting hq, if_pos rfl]
    exact Exact.fin.inj hvalue
  · rw [if_neg hjq] at hj
    rw [ht.resting_value hj] at hvalue
    rw [velocity_resting hj, if_neg hjq, mul_zero, add_zero]
    exact Exact.fin.inj hvalue

/-- A variable whose ends coincide rests there, fixed or not. -/
theorem value_fixed {range : Exact × Exact} (h : IsProper range) {leave : Resting}
    (hleave : leave = .atLower ∨ leave = .atUpper) :
    (if range.1 == range.2 then Resting.fixed else leave).value range.1 range.2
      = leave.value range.1 range.2 := by
  split
  · obtain ⟨-, heq⟩ := h.fixed ‹_›
    rcases hleave with rfl | rfl
    · rfl
    · exact heq
  · rfl

/-- A pivot moves the point until the leaving variable is stopped. -/
theorem point_pivot (hint : HasIntervals model) (ht : t.Sound)
    (hq : t.place.get q = .nonbasic rest) {r : Fin model.numRows} {leave : Resting}
    (hstop : stop? (model.varRange (t.head.get r)) (t.point (t.head.get r))
      (t.velocity q dir (t.head.get r)) = some leave)
    (hnext : (t.pivot 0 r q leave).Sound) (k : Fin (model.numRows + model.numCols)) :
    (t.pivot 0 r q leave).point k = t.point k +
      travelTime (model.varRange (t.head.get r)) (t.point (t.head.get r))
        (t.velocity q dir (t.head.get r)) leave * t.velocity q dir k := by
  have hproper := (hint (t.head.get r)).proper
  refine (congrFun (eq_point hnext (solves_along ht hq dir _) ?_) k).symm
  intro j rest' hj
  rw [along]
  have hvalue := hnext.resting_value hj
  rw [place_pivot] at hj
  split at hj
  · cases hj
  · rename_i hjq
    split at hj
    · subst j
      have hleave : leave = .atLower ∨ leave = .atUpper := by
        rcases stop?_cases hproper hstop with ⟨-, h, -⟩ | ⟨-, h, -⟩ | ⟨-, h, -⟩ | ⟨-, h, -⟩
        all_goals simp [h]
      cases hj
      rw [ht.lower, ht.upper, value_fixed hproper hleave, (travelTime_reaches hproper hstop).2]
        at hvalue
      exact Exact.fin.inj hvalue
    · rw [ht.resting_value hj] at hvalue
      rw [velocity_resting hj, if_neg hjq, mul_zero, add_zero]
      exact Exact.fin.inj hvalue

theorem flip_strides (hs : s.IsStrict) (hint : HasIntervals model) (ht : t.Poised)
    (henter : t.Enters (model.drive t.point) q dir) (hnext : (t.flip q dir.target).Sound) {l u : ℚ}
    (hl : (model.varRange q).1 = .fin l) (hu : (model.varRange q).2 = .fin u)
    (hbasic : ∀ r c, t.candidate s t.values q dir r = some c →
      ∃ γ : ℚ, c.ratio = .fin γ ∧ u - l ≤ γ) :
    (t.flip q dir.target).Poised ∧ t.Strides q dir (u - l) (t.flip q dir.target) := by
  obtain ⟨rest, hq, hdir⟩ := henter.resting
  have hwide : 0 < u - l := by
    have hle := (hint q).ordered
    have hne := ht.isOpen q rest hq hdir.ne_fixed
    rw [hl, hu] at hle hne
    exact sub_pos.mpr (lt_of_le_of_ne (fin_le.mp hle) fun heq => hne (congrArg _ heq))
  have hpoint := point_flip ht.sound hq hdir hl hu hnext
  refine ⟨poised_flip ht hq hdir.ne_fixed hnext, henter, hwide.le, hpoint, ?_, ?_⟩
  · intro k
    rw [hpoint]
    refine sameSide_of_time hs hint ht.sound hq hdir hwide.le hbasic ?_ k
    intro l' u' hl' hu'
    cases hl.symm.trans hl'
    cases hu.symm.trans hu'
    exact le_rfl
  · intro hzero
    exact absurd hzero hwide.ne'

theorem pivot_strides (hs : s.IsStrict) (hint : HasIntervals model) (ht : t.Poised)
    (henter : t.Enters (model.drive t.point) q dir) {b : Block Exact model.numRows}
    (hrow : t.candidate s t.values q dir b.row = some b)
    (hfirst : ∀ r c, t.candidate s t.values q dir r = some c → t.Precedes b c)
    (hnext : (t.pivot 0 b.row q b.leave).Sound)
    (hspan : ¬ (isFinite (t.upper.get q - t.lower.get q)
      && decide (t.upper.get q - t.lower.get q ≤ b.ratio)) = true) :
    (t.pivot 0 b.row q b.leave).Poised ∧
      ∃ θ, b.ratio = .fin θ ∧ t.Strides q dir θ (t.pivot 0 b.row q b.leave) := by
  obtain ⟨rest, hq, hdir⟩ := henter.resting
  have hcand := hrow
  rw [candidate_eq hs hint ht.sound] at hcand
  obtain ⟨leave, hstop, hb⟩ := Option.map_eq_some_iff.mp hcand
  have hproper := (hint (t.head.get b.row)).proper
  obtain rfl : leave = b.leave := congrArg Block.leave hb
  have hratio := (congrArg Block.ratio hb).symm
  dsimp only at hratio
  have htime := (travelTime_reaches hproper hstop).1
  have hpoint := point_pivot hint ht.sound hq hstop hnext
  have hstuck := isStuck_of_travelTime hproper hstop
  generalize travelTime _ _ _ _ = θ at hratio htime hpoint hstuck
  refine ⟨poised_pivot hint ht hnext, θ, hratio, henter, htime, hpoint, ?_, ?_⟩
  · intro k
    rw [hpoint]
    refine sameSide_of_time hs hint ht.sound hq hdir htime ?_ ?_ k
    · intro r c hc
      exact (hfirst r c hc).ratio_le hratio
    · intro l u hl hu
      rw [ht.sound.lower, ht.sound.upper, hl, hu, hratio] at hspan
      simp only [fin_sub, isFinite_fin, fin_le, Bool.true_and, decide_eq_true_eq, not_le] at hspan
      exact hspan.le
  · intro hzero
    refine ⟨b.row, b.leave, rfl, hstuck hzero, ?_⟩
    intro r' hstuck'
    obtain ⟨leave', hstop', htime'⟩ := hstuck'.stop? (hint _)
    have hcand' := candidate_eq hs hint ht.sound q dir r'
    rw [hstop', Option.map_some, htime'] at hcand'
    obtain ⟨β, γ, hβ, hγ, hle⟩ := hfirst r' _ hcand'
    cases hγ
    obtain rfl : θ = β := Exact.fin.inj (hratio.symm.trans hβ)
    rcases hle with hlt | ⟨-, hhead⟩
    · exact absurd hzero hlt.ne
    · exact hhead

/-- How a movement of the time `θ` ends: `q` has crossed its range, or a row stops it. -/
inductive Halts (s : SimplexSettings Exact) (t : Tableau Exact model.numRows model.numCols)
    (q : Fin (model.numRows + model.numCols)) (dir : Heading) (θ : ℚ) :
    Tableau Exact model.numRows model.numCols → Prop
  | flip (span : t.upper.get q - t.lower.get q = .fin θ) : Halts s t q dir θ (t.flip q dir.target)
  | pivot (b : Block Exact model.numRows) (found : t.ratioTest s t.values q dir = some b)
      (ratio : b.ratio = .fin θ) : Halts s t q dir θ (t.pivot s.dropTol b.row q b.leave)

/-- What moving the entering variable does. -/
theorem move_strides (hs : s.IsStrict) (wf : model.WellFormed) (hint : HasIntervals model)
    (ht : t.Poised)
    (henter : t.entering s.tolCost (t.cost s.tolFeas model.objective t.values) = some (q, dir))
    (hmove : t.move s t.values q dir = some next) :
    next.Poised ∧ ∃ θ, t.Strides q dir θ next ∧ Halts s t q dir θ next := by
  have hproper (k : Nat) (hk : k < model.numRows + model.numCols) :
      IsProper (model.varRange k) := (hint ⟨k, hk⟩).proper
  have hpivot : 0 ≤ s.tolPivot := by simp [hs.tolPivot]
  rw [hs.tolCost, hs.tolFeas] at henter
  have hent := entering_spec ht.sound.canonical (cost_eq wf hint ht.sound) henter
  obtain ⟨rest, hq, hdir⟩ := hent.resting
  have hnext := sound_move hs.dropTol hpivot hproper ht.sound hq hmove
  have hflip (hfin : isFinite (t.upper.get q - t.lower.get q) = true) :
      ∃ l u, (model.varRange q).1 = .fin l ∧ (model.varRange q).2 = .fin u ∧
        t.upper.get q - t.lower.get q = .fin (u - l) := by
    rw [ht.sound.lower, ht.sound.upper] at hfin ⊢
    obtain ⟨hl, hu⟩ := isFinite_of_span hfin
    refine ⟨_, _, eq_fin hl, eq_fin hu, ?_⟩
    rw [← fin_sub, ← eq_fin hl, ← eq_fin hu]
  unfold move at hmove
  dsimp only at hmove
  rcases ratioTest_cases hs hint ht.sound q dir with ⟨hnone, hall⟩ | ⟨b, hb, hfirst⟩
  · rw [hnone] at hmove
    dsimp only at hmove
    split at hmove
    · cases hmove
      obtain ⟨l, u, hl, hu, hspan⟩ := hflip ‹_›
      obtain ⟨hpoised, hstride⟩ := flip_strides hs hint ht hent hnext hl hu (by simp [hall])
      exact ⟨hpoised, _, hstride, .flip hspan⟩
    · cases hmove
  · obtain ⟨r, hr⟩ := ratioTest_eq_some hb
    rw [hb] at hmove
    dsimp only at hmove
    split at hmove
    · rename_i hshort
      cases hmove
      obtain ⟨hfin, hle⟩ := (Bool.and_eq_true _ _).mp hshort
      obtain ⟨l, u, hl, hu, hspan⟩ := hflip hfin
      obtain ⟨β, hβ⟩ := candidate_ratio hs hint ht.sound hr
      rw [decide_eq_true_eq, hspan, hβ, fin_le] at hle
      have hbasic (r' : Fin model.numRows) (c : Block Exact model.numRows)
          (hc : t.candidate s t.values q dir r' = some c) :
          ∃ γ : ℚ, c.ratio = .fin γ ∧ u - l ≤ γ := by
        obtain ⟨γ, hγ, hβγ⟩ := (hfirst r' c hc).ratio_le hβ
        exact ⟨γ, hγ, hle.trans hβγ⟩
      obtain ⟨hpoised, hstride⟩ := flip_strides hs hint ht hent hnext hl hu hbasic
      exact ⟨hpoised, _, hstride, .flip hspan⟩
    · rename_i hlong
      cases hmove
      obtain ⟨rfl, -⟩ := candidate_eq_some hr
      have hdrop := hs.dropTol
      rw [hdrop] at hnext
      obtain ⟨hpoised, θ, hratio, hstride⟩ := pivot_strides hs hint ht hent hr hfirst hnext hlong
      rw [← hdrop] at hpoised hstride
      exact ⟨hpoised, θ, hstride, .pivot b hb hratio⟩

/-- What a step does. -/
theorem next?_spec (hs : s.IsStrict) (wf : model.WellFormed) (hint : HasIntervals model)
    (ht : t.Poised) (h : t.next? s model.objective = some next) :
    next.Poised ∧ ∃ q dir θ, t.Strides q dir θ next := by
  obtain ⟨⟨q, dir⟩, henter, hmove⟩ := Option.bind_eq_some_iff.mp h
  obtain ⟨hpoised, θ, hstride, -⟩ := move_strides hs wf hint ht henter hmove
  exact ⟨hpoised, q, dir, θ, hstride⟩

end Stride

/-! ## Progress -/

section Merit

variable {model : Model Exact} {t next : Tableau Exact model.numRows model.numCols}
  {q : Fin (model.numRows + model.numCols)} {dir : Heading} {θ : ℚ}

/-- A step gains in proportion to its time. -/
theorem Strides.gain (ht : t.Canonical) (h : t.Strides q dir θ next)
    (c : Fin (model.numRows + model.numCols) → ℚ) :
    ∑ k, c k * next.point k = ∑ k, c k * t.point k + θ * (t.reduced c q * dir.sign) := by
  obtain ⟨rest, hq, -⟩ := h.enters.resting
  rw [← sum_along ht hq, show next.point = t.along q dir θ from funext h.point]

/-- While some variable is outside its range, the distance from the ranges shrinks in proportion to
the time: no variable crosses an end of its range, so it is linear. -/
theorem Strides.sum_shortfall (hint : HasIntervals model) (ht : t.Canonical)
    (h : t.Strides q dir θ next)
    (hout : ¬ ∀ j : Fin (model.numRows + model.numCols), pull (model.varRange j) (t.point j) = 0) :
    ∑ k : Fin (model.numRows + model.numCols), shortfall (model.varRange k) (next.point k)
      = ∑ k : Fin (model.numRows + model.numCols), shortfall (model.varRange k) (t.point k)
        - θ * (t.reduced (model.drive t.point) q * dir.sign) := by
  have hgain := h.gain ht (model.drive t.point)
  have hdrive : model.drive t.point = fun k : Fin _ => pull (model.varRange k) (t.point k) :=
    funext fun k => if_neg hout
  have hlinear : ∑ k : Fin (model.numRows + model.numCols),
        shortfall (model.varRange k) (next.point k)
      = ∑ k : Fin (model.numRows + model.numCols), shortfall (model.varRange k) (t.point k)
        - (∑ k, model.drive t.point k * next.point k - ∑ k, model.drive t.point k * t.point k) := by
    rw [hdrive, ← Finset.sum_sub_distrib, ← Finset.sum_sub_distrib]
    refine Finset.sum_congr rfl fun k _ => ?_
    rw [shortfall_sameSide (hint k) (h.sameSide k), mul_sub]
  linarith

/-- Where every variable is in its range, it stays there, and the objective grows in proportion to
the time. -/
theorem Strides.sum_costAt (hint : HasIntervals model) (ht : t.Canonical)
    (h : t.Strides q dir θ next)
    (hin : ∀ j : Fin (model.numRows + model.numCols), pull (model.varRange j) (t.point j) = 0) :
    (∀ j : Fin (model.numRows + model.numCols), pull (model.varRange j) (next.point j) = 0) ∧
    ∑ k, model.costAt k * next.point k = ∑ k, model.costAt k * t.point k
      + θ * (t.reduced (model.drive t.point) q * dir.sign) := by
  constructor
  · intro j
    obtain ⟨hlow, hup⟩ := inside_of_pull (hint j).proper (hin j)
    obtain ⟨hlow', hup'⟩ := (h.sameSide j).inside hlow hup
    exact pull_inside hlow' hup'
  · have hdrive : model.drive t.point = model.costAt := funext fun k => if_pos hin
    rw [hdrive]
    exact h.gain ht model.costAt

theorem sum_shortfall_eq_zero (hint : HasIntervals model)
    {x : Fin (model.numRows + model.numCols) → ℚ}
    (hin : ∀ j : Fin (model.numRows + model.numCols), pull (model.varRange j) (x j) = 0) :
    ∑ k : Fin (model.numRows + model.numCols), shortfall (model.varRange k) (x k) = 0 := by
  refine Finset.sum_eq_zero fun k _ => ?_
  obtain ⟨hlow, hup⟩ := inside_of_pull (hint k).proper (hin k)
  exact shortfall_inside hlow hup

/-- A step that takes time makes progress. -/
theorem Strides.merit_lt (hint : HasIntervals model) (ht : t.Canonical)
    (h : t.Strides q dir θ next) (hθ : 0 < θ) : model.merit t.point < model.merit next.point := by
  have hpays := mul_pos hθ h.enters.pays
  rw [Model.merit, Model.merit, Prod.Lex.toLex_lt_toLex]
  by_cases hall : ∀ j : Fin (model.numRows + model.numCols),
      pull (model.varRange j) (t.point j) = 0
  · right
    obtain ⟨hstays, hgain⟩ := h.sum_costAt hint ht hall
    dsimp only
    rw [sum_shortfall_eq_zero hint hall, sum_shortfall_eq_zero hint hstays, hgain]
    exact ⟨rfl, by linarith⟩
  · left
    have hshort := h.sum_shortfall hint ht hall
    dsimp only
    linarith

end Merit

end Tableau

end MixedInteger
