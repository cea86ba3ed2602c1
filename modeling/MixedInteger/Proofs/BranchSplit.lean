import MixedInteger.Proofs.NodeBounds

/-!
# Splitting the model of a solver

Branching on a value between two integers gives the solver of each child a model that differs from
that of the parent in the range of one column. The children share out the points of the parent that
are integral there, and lose those at the value that was branched on. This holds of columns of every
kind and of every range around the value, also where it leaves a child no point at all.

* `Model.Narrowed`: the same model but for a narrower range of one column;
* `Simplex.setBound_narrowed`: what moving a bound inwards does to the model of a solver;
* `Subproblem.child_narrowed`: the same for a child, whose points are those that its bound admits;
* `Subproblem.children_split`: the two children of a node.
-/

namespace MixedInteger

open Exact hiding isFinite isNaN
open Scalar (isFinite isNaN)

/-- `m'` is `m` but for the range of column `j`, which lies within the one that `m` has. It may be
empty. -/
structure Model.Narrowed (m m' : Model Exact) (j : Nat) : Prop where
  objective : m'.objective = m.objective
  matrix : m'.matrix = m.matrix
  rowLower : m'.rowLower = m.rowLower
  rowUpper : m'.rowUpper = m.rowUpper
  kinds : m'.kinds = m.kinds
  others : ∀ k, k ≠ j →
    m'.colLower[k]? = m.colLower[k]? ∧ m'.colUpper[k]? = m.colUpper[k]?
  lower : (m.colRange j).1 ≤ (m'.colRange j).1
  upper : (m'.colRange j).2 ≤ (m.colRange j).2

namespace Model

variable {m m' : Model Exact} {j : Nat} {lower upper : Exact}

/-- A range within the present one is accepted as it is given, and nothing else changes. -/
theorem narrowed_of_setColBounds (wf : m.WellFormed) (h : m.setColBounds j lower upper = .ok m')
    (hlower : (m.colRange j).1 ≤ lower) (hupper : upper ≤ (m.colRange j).2) :
    m.Narrowed m' j ∧ m'.colRange j = (lower, upper) := by
  have hrange : m'.colRange j = (lower, upper) := by
    rw [colRange_setColBounds wf.colLower wf.colUpper h, if_pos rfl,
      clampRange_narrow wf hlower hupper]
  refine ⟨?_, hrange⟩
  obtain ⟨-, -, -, rfl⟩ := setColBounds_ok h
  constructor
  case others =>
    intro k hk
    exact ⟨Array.getElem?_setIfInBounds_ne hk.symm, Array.getElem?_setIfInBounds_ne hk.symm⟩
  case lower => rwa [hrange]
  case upper => rwa [hrange]
  all_goals rfl

end Model

namespace Simplex

variable {s : Simplex Exact} {j : Nat} {side : Side} {v : Exact}

/-- The end that is moved replaces the old one, and the other end is passed on. -/
theorem setBound_eq (s : Simplex Exact) (j : Nat) (side : Side) (v : Exact) :
    s.setBound j side v = s.setColBounds j (side.replace v (s.model.colRange j)).1
      (side.replace v (s.model.colRange j)).2 := by
  cases side <;> rfl

/-- Moving an end of a range inwards succeeds, leaves the rest of the model, and keeps exactly the
points on the inner side. -/
theorem setBound_narrowed (wf : s.model.WellFormed) (hj : j < s.model.numCols)
    (hlower : (s.model.colRange j).1 ≤ (side.replace v (s.model.colRange j)).1)
    (hupper : (side.replace v (s.model.colRange j)).2 ≤ (s.model.colRange j).2) :
    ∃ s' : Simplex Exact, s.setBound j side v = .ok s' ∧ s.model.Narrowed s'.model j ∧
      s'.model.colRange j = side.replace v (s.model.colRange j) ∧
      ∀ x, s'.model.Admits x ↔ s.model.Admits x ∧ side.Allows v (x.coord j) := by
  rw [setBound_eq]
  generalize hrange : side.replace v (s.model.colRange j) = range at hlower hupper ⊢
  have hset : ∃ m, s.model.setColBounds j range.1 range.2 = .ok m := by
    unfold Model.setColBounds
    rw [if_neg (Nat.not_le.mpr hj), (isNaN_of_le hlower).2, (isNaN_of_le hupper).1]
    exact ⟨_, rfl⟩
  obtain ⟨m, hm⟩ := hset
  obtain ⟨hnarrowed, hcol⟩ := Model.narrowed_of_setColBounds wf hm hlower hupper
  refine ⟨s.withModel m, ?_, hnarrowed, hcol, ?_⟩
  · rw [setColBounds, hm]
    rfl
  intro x
  refine (Model.admits_narrow wf hm hlower hupper).trans ?_
  apply and_congr_right
  intro hx
  obtain ⟨hlow, hup⟩ := hx.columns j hj
  subst hrange
  cases side with
  | lower => exact and_iff_left hup
  | upper => exact and_iff_right hlow

end Simplex

/-- A bound change admits the values on the inner side of its bound. -/
theorem BoundChange.admits_iff {change : BoundChange Exact} {x : Exact} :
    change.admits x = true ↔ change.side.Allows change.bound x := by
  unfold BoundChange.admits Side.Allows
  cases change.side <;> simp

namespace Subproblem

variable {s : Simplex Exact}

/-- A child whose bound moves inwards has the points of its parent that the bound change admits. -/
theorem child_narrowed (wf : s.model.WellFormed) (id parent : NodeId) (depth : Nat)
    (change : BoundChange Exact) (hj : change.column < s.model.numCols)
    (hlower : (s.model.colRange change.column).1
      ≤ (change.side.replace change.bound (s.model.colRange change.column)).1)
    (hupper : (change.side.replace change.bound (s.model.colRange change.column)).2
      ≤ (s.model.colRange change.column).2) :
    ∃ c : Subproblem (Simplex Exact) Exact, child id parent depth s change = .ok c ∧
      s.model.Narrowed c.model.model change.column ∧
      c.model.model.colRange change.column
        = change.side.replace change.bound (s.model.colRange change.column) ∧
      ∀ x, c.model.model.Admits x ↔
        s.model.Admits x ∧ change.admits (x.coord change.column) = true := by
  obtain ⟨s', hset, hnarrowed, hrange, hadmits⟩ := Simplex.setBound_narrowed wf hj hlower hupper
  refine ⟨⟨id, some parent, depth, false, s', Scalar.posInf, Scalar.negInf, some change⟩, ?_,
    hnarrowed, hrange, ?_⟩
  · have happly : change.apply s = .ok s' := hset
    rw [child, happly]
    rfl
  · intro x
    rw [hadmits, BoundChange.admits_iff]

/-- The children that come from branching on a value that is no integer and lies in the range of its
column. Their models differ from that of the parent in this range only, which each of them narrows.
A point of the parent that is integral in the column is a point of exactly one child, points of the
children are points of the parent, and no child has a point at the value itself. -/
theorem children_split (built : s.model.Built) {j : Nat} (hj : j < s.model.numCols) {q : ℚ}
    (hfractional : ¬ ∃ z : ℤ, q = z) (hlower : (s.model.colRange j).1 ≤ .fin q)
    (hupper : .fin q ≤ (s.model.colRange j).2) (downId upId parent : NodeId) (depth : Nat) :
    ∃ down up : Subproblem (Simplex Exact) Exact,
      child downId parent depth s (.down j (.fin q)) = .ok down ∧
      child upId parent depth s (.up j (.fin q)) = .ok up ∧
      s.model.Narrowed down.model.model j ∧ s.model.Narrowed up.model.model j ∧
      down.model.model.colRange j = ((s.model.colRange j).1, .fin ⌊q⌋) ∧
      up.model.model.colRange j = (.fin ⌈q⌉, (s.model.colRange j).2) ∧
      (∀ x, s.model.Admits x → (x.coord j).IsInteger →
        (down.model.model.Admits x ∧ ¬ up.model.model.Admits x) ∨
        (¬ down.model.model.Admits x ∧ up.model.model.Admits x)) ∧
      (∀ x, down.model.model.Admits x ∨ up.model.model.Admits x → s.model.Admits x) ∧
      ∀ x, x.coord j = .fin q →
        ¬ down.model.model.Admits x ∧ ¬ up.model.model.Admits x := by
  have wf := built.wellFormed
  have hdefined := (isNaN_of_le hlower).1
  have hdefined' := (isNaN_of_le hupper).2
  obtain ⟨down, hdown, hnarrow, hrange, hpoints⟩ := child_narrowed wf downId parent depth
    ⟨j, .fin q, .upper, .fin ⌊q⌋⟩ hj (Exact.le_refl hdefined)
    (Exact.le_trans (fin_le.mpr (Int.floor_le q)) hupper)
  obtain ⟨up, hup, hnarrow', hrange', hpoints'⟩ := child_narrowed wf upId parent depth
    ⟨j, .fin q, .lower, .fin ⌈q⌉⟩ hj
    (Exact.le_trans hlower (fin_le.mpr (Int.le_ceil q))) (Exact.le_refl hdefined')
  simp only [BoundChange.admits_iff, Side.Allows] at hpoints hpoints'
  rw [BoundChange.down, BoundChange.up, floor_fin, ceil_fin]
  have hgap := floor_lt_ceil_of_not_integer hfractional
  refine ⟨down, up, hdown, hup, hnarrow, hnarrow', hrange, hrange', ?_, ?_, ?_⟩
  · rintro x hx ⟨z, hz⟩
    rw [hpoints, hpoints', hz, fin_le, fin_le, Int.cast_le, Int.cast_le]
    -- The column is at most the floor or at least the ceiling, and not both.
    rcases le_or_gt z ⌊q⌋ with hle | hlt
    · exact .inl ⟨⟨hx, hle⟩, fun h => by omega⟩
    · have hceil : ⌈q⌉ ≤ z := (Int.ceil_le_floor_add_one q).trans hlt
      exact .inr ⟨fun h => by omega, hx, hceil⟩
  · rintro x (hx | hx)
    · exact ((hpoints x).mp hx).1
    · exact ((hpoints' x).mp hx).1
  · intro x hq
    rw [hpoints, hpoints', hq, fin_le, fin_le]
    constructor
    · rintro ⟨-, hle⟩
      exact hfractional ⟨⌊q⌋, le_antisymm hle (Int.floor_le q)⟩
    · rintro ⟨-, hle⟩
      exact hfractional ⟨⌈q⌉, le_antisymm (Int.le_ceil q) hle⟩

/-- One integral column `x ≥ lower`. -/
def halfLine (lower : Exact) : Model Exact :=
  ⟨#[1], .zero 0 1, #[], #[], #[lower], #[.posInf], #[.integer]⟩

theorem built_halfLine (q : ℚ) : (halfLine (.fin q)).Built := by
  have start : (halfLine 0).Built := .new (show Model.new? #[1] #[.integer] = _ by cbv)
  exact start.setColBounds (show Model.setColBounds _ 0 (.fin q) .posInf = _ from rfl)

/-- From `x ≥ -5/2`, branching at `-9/4` leaves one child without a point and the other with
`-2`. -/
theorem children_split_halfLine : ∃ down up : Subproblem (Simplex Exact) Exact,
    child 2 1 1 (Simplex.ofModel (halfLine (.fin (-5 / 2)))) (.down 0 (.fin (-9 / 4))) = .ok down ∧
    child 3 1 1 (Simplex.ofModel (halfLine (.fin (-5 / 2)))) (.up 0 (.fin (-9 / 4))) = .ok up ∧
    down.model.model.colRange 0 = (.fin (-5 / 2), .fin (-3)) ∧
    up.model.model.colRange 0 = (.fin (-2), .posInf) ∧
    ¬ down.model.model.Admits #[.fin (-2)] ∧ up.model.model.Admits #[.fin (-2)] := by
  have hfractional : ¬ ∃ z : ℤ, (-9 / 4 : ℚ) = z := by
    rw [← roundHalf_eq_self_iff]
    decide +kernel
  have hadmits : (halfLine (.fin (-5 / 2))).Admits #[.fin (-2)] :=
    Model.admits_iff.mpr ⟨Point.isRational_of_lt (by decide), by decide +kernel⟩
  obtain ⟨down, up, hdown, hup, hnarrowed, -, hrange, hrange', hsplit, -, -⟩ :=
    children_split (s := Simplex.ofModel (halfLine (.fin (-5 / 2)))) (built_halfLine _) (j := 0)
      (by decide) hfractional (by decide +kernel) (by decide +kernel) 2 3 1 1
  have hfloor : down.model.model.colRange 0 = (.fin (-5 / 2), .fin (-3)) :=
    hrange.trans (by decide +kernel)
  have hceil : up.model.model.colRange 0 = (.fin (-2), .posInf) :=
    hrange'.trans (by decide +kernel)
  have hempty : ¬ down.model.model.Admits #[.fin (-2)] := by
    intro hx
    have hcol : 0 < down.model.model.numCols := by
      rw [Model.numCols, hnarrowed.objective]
      decide
    have hle := (hx.columns 0 hcol).2
    rw [hfloor] at hle
    exact absurd hle (by decide +kernel)
  have hsides := hsplit _ hadmits ⟨-2, by simp [Point.coord]⟩
  exact ⟨down, up, hdown, hup, hfloor, hceil, hsides.resolve_left fun h => hempty h.1⟩

end Subproblem

end MixedInteger
