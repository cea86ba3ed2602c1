import MixedInteger.Proofs.Infinities

/-!
# The order of numbers

Rounding does not touch comparisons: defined numbers are in order, in double precision as in exact
arithmetic. Only `==` does not tell apart all numbers, since it takes both zeros for one.

* `Scalar.Ordered`: what comparisons obey, with instances for exact arithmetic and for double
  precision;
* `foldl_larger_spec`: the largest of several numbers;
* `Binary64.place?`: where a number lies, by its sign, exponent and mantissa;
* `Binary64.compare_place`: numbers compare as their places do.
-/

namespace MixedInteger

open Scalar

/-- Defined numbers are in order from negative infinity on, those that `==` calls equal are at one
place, and the larger of two is one of them. -/
class Scalar.Ordered (α : Type) [Scalar α] : Prop where
  le_trans : ∀ {a b c : α}, a ≤ b → b ≤ c → a ≤ c
  le_of_lt : ∀ {a b : α}, a < b → a ≤ b
  not_lt_of_le : ∀ {a b : α}, a ≤ b → ¬ b < a
  le_or_lt : ∀ {a b : α}, isNaN a = false → isNaN b = false → a ≤ b ∨ b < a
  beq_iff : ∀ {a b : α}, (a == b) = true ↔ a ≤ b ∧ b ≤ a
  negInf : isNaN (negInf : α) = false
  negInf_le : ∀ {a : α}, isNaN a = false → (Scalar.negInf : α) ≤ a
  larger_cases : ∀ {a b : α}, isNaN a = false → isNaN b = false →
    larger a b = a ∧ b ≤ a ∨ larger a b = b ∧ a ≤ b

section Laws

variable {α : Type} [Scalar α] [Ordered α] {a b c : α}

theorem Scalar.Ordered.le_refl (ha : isNaN a = false) : a ≤ a :=
  (le_or_lt ha ha).elim id le_of_lt

theorem Scalar.Ordered.lt_of_le_of_lt (ha : isNaN a = false) (hc : isNaN c = false) (hab : a ≤ b)
    (hbc : b < c) : a < c := by
  apply (le_or_lt hc ha).resolve_left
  intro hca
  exact not_lt_of_le (le_trans hca hab) hbc

theorem larger_spec (ha : isNaN a = false) (hb : isNaN b = false) :
    (larger a b = a ∨ larger a b = b) ∧ a ≤ larger a b ∧ b ≤ larger a b := by
  rcases Ordered.larger_cases ha hb with ⟨heq, hle⟩ | ⟨heq, hle⟩
  · rw [heq]
    exact ⟨.inl rfl, Ordered.le_refl ha, hle⟩
  · rw [heq]
    exact ⟨.inr rfl, hle, Ordered.le_refl hb⟩

/-- The largest of several numbers, one of which is given first, is one of them. -/
theorem foldl_larger_spec {scores : List α} {first : α}
    (hdef : ∀ b ∈ first :: scores, isNaN b = false) :
    scores.foldl larger first ∈ first :: scores ∧
      ∀ b ∈ first :: scores, b ≤ scores.foldl larger first := by
  induction scores generalizing first with
  | nil => simpa using Ordered.le_refl (hdef first List.mem_cons_self)
  | cons s rest ih =>
    obtain ⟨hfirst, hs, hrest⟩ : isNaN first = false ∧ isNaN s = false ∧
        ∀ b ∈ rest, isNaN b = false := by simpa using hdef
    obtain ⟨hone, hfirstle, hsle⟩ := larger_spec hfirst hs
    have hlarger : isNaN (larger first s) = false := by
      rcases hone with heq | heq
      · rw [heq]
        exact hfirst
      · rw [heq]
        exact hs
    obtain ⟨hmem, hle⟩ := ih (List.forall_mem_cons.mpr ⟨hlarger, hrest⟩)
    obtain ⟨hhead, htail⟩ := List.forall_mem_cons.mp hle
    rw [List.foldl_cons]
    constructor
    · rcases List.mem_cons.mp hmem with heq | hmem
      · rw [heq]
        rcases hone with heq | heq
        · rw [heq]
          exact List.mem_cons_self
        · rw [heq]
          exact List.mem_cons_of_mem _ List.mem_cons_self
      · exact List.mem_cons_of_mem _ (List.mem_cons_of_mem _ hmem)
    · rw [List.forall_mem_cons, List.forall_mem_cons]
      exact ⟨Ordered.le_trans hfirstle hhead, Ordered.le_trans hsle hhead, htail⟩

end Laws

/-- Of two numbers the first is chosen where it is above the second. -/
theorem choice_above {α : Type} [LE α] {a b : α} {p q r : Prop} [Decidable p] [Decidable q]
    [Decidable r] (hp : ¬ p) (hq : ¬ q) (ha : r → b ≤ a) (hb : ¬ r → a ≤ b) :
    (if p then b else if q then a else if r then a else b) = a ∧ b ≤ a ∨
      (if p then b else if q then a else if r then a else b) = b ∧ a ≤ b := by
  rw [if_neg hp, if_neg hq]
  by_cases hr : r
  · rw [if_pos hr]
    exact .inl ⟨rfl, ha hr⟩
  · rw [if_neg hr]
    exact .inr ⟨rfl, hb hr⟩

/-! ## Exact arithmetic -/

instance : Ordered Exact where
  le_trans := Exact.le_trans
  le_of_lt := Exact.le_of_lt
  not_lt_of_le := Exact.not_lt_of_le
  le_or_lt := Exact.le_or_lt
  beq_iff {a b} := by
    constructor
    · intro h
      cases a <;> cases b <;> simp_all [BEq.beq, Exact.eq] <;> exact Exact.le_refl rfl
    · rintro ⟨hab, hba⟩
      cases Exact.le_antisymm hab hba
      cases a with
      | undefined => cases hab
      | negInf | posInf => rfl
      | fin q => exact decide_eq_true rfl
  negInf := rfl
  negInf_le {a} h := by
    cases a with
    | undefined => cases h
    | negInf | fin | posInf => rfl
  larger_cases ha hb :=
    choice_above (Bool.not_eq_true _ ▸ ha) (Bool.not_eq_true _ ▸ hb) Exact.le_of_lt
      (Exact.le_or_lt ha hb).resolve_right

/-! ## Double precision -/

namespace Binary64

open Float.Model UnpackedFloat

/-- The place of a number on the line: the part of the line, and the place in that part. Both zeros
are at one place, and an undefined number has none. -/
def place? : UnpackedFloat → Option (ℤ ×ₗ ℤ ×ₗ ℤ)
  | .notANumber => none
  | .infinity .negative => some (toLex (-2, toLex (0, 0)))
  | .finite .negative m e _ => some (toLex (-1, toLex (-e, -(m : ℤ))))
  | .zero _ => some (toLex (0, toLex (0, 0)))
  | .finite .positive m e _ => some (toLex (1, toLex (e, (m : ℤ))))
  | .infinity .positive => some (toLex (2, toLex (0, 0)))

theorem compare_cast (m n : ℕ) : compare (m : ℤ) (n : ℤ) = compare m n := by
  rw [← cmp_eq_compare, ← cmp_eq_compare]
  exact Nat.strictMono_cast.cmp_map_eq m n

theorem compare_neg (a b : ℤ) : compare (-a) (-b) = (compare a b).swap := by
  rw [← cmp_eq_compare, ← cmp_eq_compare, cmp_swap]
  exact StrictAnti.cmp_map_eq (fun _ _ => neg_lt_neg) a b

/-- Numbers compare as their places do, which is by part of the line, exponent and mantissa. -/
theorem compare_place (x y : UnpackedFloat) :
    x.compare y = (place? x).bind fun a => (place? y).map (compare a) := by
  cases x with
  | notANumber => rfl
  | infinity s =>
    cases s <;> cases y with
    | notANumber | zero => rfl
    | infinity s' | finite s' => cases s' <;> rfl
  | zero s =>
    cases y with
    | notANumber | zero => rfl
    | infinity s' | finite s' => cases s' <;> rfl
  | finite s m e hm =>
    cases s <;> cases y with
    | notANumber | zero => rfl
    | infinity s' => cases s' <;> rfl
    | finite s' m' e' hm' =>
      -- In the negative part a larger exponent or mantissa is further to the left.
      cases s' <;> first
      | rfl
      | change some ((compare e e').then (compare m m'))
          = some ((compare e e').then (compare (m : ℤ) m'))
        rw [compare_cast]
      | change some ((compare e e').then (compare m m')).swap
          = some ((compare (-e) (-e')).then (compare (-(m : ℤ)) (-(m' : ℤ))))
        rw [compare_neg, compare_neg, compare_cast, Ordering.swap_then]

theorem compare_eq_some {x y : Float} {o : Ordering} :
    x.toModel.unpack.compare y.toModel.unpack = some o ↔
      ∃ a b, place? x.toModel.unpack = some a ∧ place? y.toModel.unpack = some b ∧
        compare a b = o := by
  rw [compare_place]
  constructor
  · intro h
    obtain ⟨a, ha, hb⟩ := Option.bind_eq_some_iff.mp h
    obtain ⟨b, hb, hab⟩ := Option.map_eq_some_iff.mp hb
    exact ⟨a, b, ha, hb, hab⟩
  · rintro ⟨a, b, ha, hb, hab⟩
    rw [ha, hb, ← hab]
    rfl

theorem le_iff_place {x y : Float} :
    x ≤ y ↔ ∃ a b, place? x.toModel.unpack = some a ∧ place? y.toModel.unpack = some b ∧
      a ≤ b := by
  have hle : x ≤ y ↔ (x.toModel.unpack.compare y.toModel.unpack).any Ordering.isLE = true :=
    ⟨of_decide_eq_true, decide_eq_true⟩
  rw [hle, Option.any_eq_true]
  constructor
  · rintro ⟨o, ho, hcompare⟩
    obtain ⟨a, b, ha, hb, rfl⟩ := compare_eq_some.mp ho
    exact ⟨a, b, ha, hb, compare_le_iff_le.mp (Ordering.ne_gt_iff_isLE.mpr hcompare)⟩
  · rintro ⟨a, b, ha, hb, hab⟩
    exact ⟨_, compare_eq_some.mpr ⟨a, b, ha, hb, rfl⟩,
      Ordering.ne_gt_iff_isLE.mp (compare_le_iff_le.mpr hab)⟩

theorem lt_iff_place {x y : Float} :
    x < y ↔ ∃ a b, place? x.toModel.unpack = some a ∧ place? y.toModel.unpack = some b ∧
      a < b := by
  simp only [lt_iff, UnpackedFloat.lt, beq_iff_eq, compare_eq_some, compare_lt_iff_lt]

theorem beq_iff_place {x y : Float} :
    (x == y) = true ↔ ∃ a b, place? x.toModel.unpack = some a ∧
      place? y.toModel.unpack = some b ∧ a = b := by
  simp only [beq_iff, UnpackedFloat.beq, beq_iff_eq, compare_eq_some, compare_eq_iff_eq]

theorem exists_place {x : Float} (h : x.isNaN = false) :
    ∃ a, place? x.toModel.unpack = some a := by
  unfold Float.isNaN Float.Model.isNaN at h
  cases hx : x.toModel.unpack with
  | notANumber =>
    rw [hx] at h
    cases h
  | infinity s => cases s <;> exact ⟨_, rfl⟩
  | zero => exact ⟨_, rfl⟩
  | finite s m e hm => cases s <;> exact ⟨_, rfl⟩

theorem le_trans {x y z : Float} (hxy : x ≤ y) (hyz : y ≤ z) : x ≤ z := by
  obtain ⟨a, b, ha, hb, hab⟩ := le_iff_place.mp hxy
  obtain ⟨b', c, hb', hc, hbc⟩ := le_iff_place.mp hyz
  cases hb.symm.trans hb'
  exact le_iff_place.mpr ⟨a, c, ha, hc, hab.trans hbc⟩

theorem not_lt_of_le {x y : Float} (h : x ≤ y) : ¬ y < x := by
  intro hlt
  obtain ⟨a, b, ha, hb, hab⟩ := le_iff_place.mp h
  obtain ⟨b', a', hb', ha', hba⟩ := lt_iff_place.mp hlt
  cases ha.symm.trans ha'
  cases hb.symm.trans hb'
  exact hab.not_gt hba

theorem le_or_lt {x y : Float} (hx : x.isNaN = false) (hy : y.isNaN = false) :
    x ≤ y ∨ y < x := by
  obtain ⟨a, ha⟩ := exists_place hx
  obtain ⟨b, hb⟩ := exists_place hy
  rcases le_or_gt a b with hab | hba
  · exact .inl (le_iff_place.mpr ⟨a, b, ha, hb, hab⟩)
  · exact .inr (lt_iff_place.mpr ⟨b, a, hb, ha, hba⟩)

theorem beq_iff_le {x y : Float} : (x == y) = true ↔ x ≤ y ∧ y ≤ x := by
  rw [beq_iff_place, le_iff_place, le_iff_place]
  constructor
  · rintro ⟨a, _, ha, hb, rfl⟩
    exact ⟨⟨a, a, ha, hb, le_rfl⟩, a, a, hb, ha, le_rfl⟩
  · rintro ⟨⟨a, b, ha, hb, hab⟩, b', a', hb', ha', hba⟩
    cases ha.symm.trans ha'
    cases hb.symm.trans hb'
    exact ⟨a, b, ha, hb, le_antisymm hab hba⟩

theorem negInf_le {x : Float} (h : x.isNaN = false) : (negInf : Float) ≤ x := by
  rcases infinite_cases x with ⟨hnan, -⟩ | ⟨-, -, hlt⟩ | ⟨heq, -⟩ | ⟨-, -, hlt⟩
  · cases hnan.symm.trans h
  · exact le_of_lt hlt
  · exact (beq_iff_le.mp heq).2
  · exact le_of_lt hlt

end Binary64

instance : Ordered Float where
  le_trans := Binary64.le_trans
  le_of_lt := Binary64.le_of_lt
  not_lt_of_le := Binary64.not_lt_of_le
  le_or_lt := Binary64.le_or_lt
  beq_iff := Binary64.beq_iff_le
  negInf := by decide
  negInf_le := Binary64.negInf_le
  larger_cases ha hb :=
    choice_above (Bool.not_eq_true _ ▸ ha) (Bool.not_eq_true _ ▸ hb) Binary64.le_of_lt
      (Binary64.le_or_lt ha hb).resolve_right

end MixedInteger
