import Mathlib
import MixedInteger.Proofs.SimplexRun

/-!
# The row that stops a movement

The ratio test goes through the rows in order and keeps one candidate. Another one takes its place
if it stops the movement earlier, or if it does so at the same time and has a basic variable of
smaller index. At the same time means up to the tolerance, so each exchange may put the stop off by
that much, and exchanges add up: what is kept in the end is earliest up to the tolerance for each
candidate but one.

* `Tableau.candidates`: the rows that stop a movement;
* `Tableau.ratioTest_eq`: the ratio test keeps one of two candidates at a time;
* `Tableau.foldl_keep_le`: how late the one can be that is kept;
* `Tableau.foldl_keep_le_of_sorted`: basic variables in increasing order are not exchanged for a
  smaller index;
* `Tableau.foldl_keep_notAfter`: without a tolerance the first is kept;
* `Tableau.ratioTest_drift`: all of this about the ratio test.
-/

namespace MixedInteger

open Exact hiding isFinite isNaN
open Scalar (isFinite isNaN)

/-! ## Comparing up to a tolerance -/

namespace Exact

variable {x y z : Exact} {a b : ℚ}

theorem le_add_trans (hxy : x ≤ y + .fin a) (hyz : y ≤ z + .fin b) : x ≤ z + .fin (a + b) := by
  cases z with
  | undefined => cases (isNaN_of_le hyz).2
  | posInf =>
    cases x with
    | undefined => cases (isNaN_of_le hxy).1
    | _ => rfl
  | negInf =>
    obtain rfl : y = .negInf := Exact.le_antisymm hyz (by cases y <;> first | rfl | cases hyz)
    exact hxy
  | fin r =>
    cases y with
    | undefined => cases hyz
    | posInf => cases hyz
    | negInf => exact Exact.le_trans hxy rfl
    | fin q =>
      refine Exact.le_trans hxy ?_
      simp only [fin_add, fin_le] at hyz ⊢
      linarith

theorem le_add_mono (h : x ≤ y + .fin a) (hab : a ≤ b) : x ≤ y + .fin b := by
  refine Exact.le_trans h ?_
  cases y with
  | undefined => cases (isNaN_of_le h).2
  | negInf => rfl
  | posInf => rfl
  | fin q => simpa using hab

theorem le_add_self (hx : 0 ≤ x) (ha : 0 ≤ a) : x ≤ x + .fin a := by
  have h : x ≤ x + .fin 0 := by
    rw [add_fin_zero]
    exact Exact.le_refl (isNaN_of_le hx).2
  exact le_add_mono h ha

theorem le_of_lt_sub (h : x < y - .fin a) (ha : 0 ≤ a) : x ≤ y := by
  refine Exact.le_trans (le_of_lt h) ?_
  cases y with
  | undefined => cases (isNaN_of_le (le_of_lt h)).2
  | negInf => rfl
  | posInf => rfl
  | fin q => simpa using ha

theorem le_add_of_not_lt_sub (hx : 0 ≤ x) (hy : 0 ≤ y) (h : ¬ x < y - .fin a) :
    y ≤ x + .fin a := by
  cases x with
  | undefined => cases hx
  | negInf => cases hx
  | posInf =>
    cases y with
    | undefined => cases hy
    | _ => rfl
  | fin p =>
    cases y with
    | undefined => cases hy
    | negInf => cases hy
    | posInf => exact absurd rfl h
    | fin q =>
      simp only [fin_sub, fin_lt, not_lt] at h
      rw [fin_add, fin_le]
      linarith

theorem nonneg_div (hx : 0 ≤ x) (ha : 0 < a) : 0 ≤ x / .fin a := by
  cases x with
  | undefined => cases hx
  | negInf => cases hx
  | posInf =>
    change 0 ≤ if a = 0 then Exact.posInf else infinity (1 * a)
    rw [if_neg ha.ne', one_mul, infinity, if_pos ha]
    rfl
  | fin p =>
    rw [fin_div _ ha.ne']
    exact fin_le.mpr (div_nonneg (fin_le.mp hx) ha.le)

theorem sub_nonneg_of_below {v : ℚ} (h : .fin v < x - .fin a) (ha : 0 ≤ a) : 0 ≤ x - .fin v := by
  cases x with
  | undefined => cases h
  | negInf => cases h
  | posInf => rfl
  | fin p =>
    rw [fin_sub, fin_lt] at h
    exact fin_le.mpr (by linarith)

theorem sub_nonneg_of_above {v : ℚ} (h : x + .fin a < .fin v) (ha : 0 ≤ a) : 0 ≤ .fin v - x := by
  cases x with
  | undefined => cases h
  | posInf => cases h
  | negInf => rfl
  | fin p =>
    rw [fin_add, fin_lt] at h
    exact fin_le.mpr (by linarith)

end Exact

namespace Tableau

/-! ## The scan -/

section Scan

variable {α : Type} [Scalar α] {m n : Nat} {t : Tableau α m n} {s : SimplexSettings α}
  {x : Vector α (m + n)} {q : Fin (m + n)} {dir : Heading}

/-- The rows that stop the movement of `q`, in order. -/
def candidates (t : Tableau α m n) (s : SimplexSettings α) (x : Vector α (m + n))
    (q : Fin (m + n)) (dir : Heading) : List (Block α m) :=
  (List.finRange m).filterMap (t.candidate s x q dir)

/-- The one of two candidates that the ratio test keeps. -/
def keep (t : Tableau α m n) (tol : α) (best c : Block α m) : Block α m :=
  if t.blocksBefore tol c best then c else best

theorem mem_candidates {b : Block α m} :
    b ∈ t.candidates s x q dir ↔ ∃ r, t.candidate s x q dir r = some b := by
  simp [candidates]

/-- A candidate is one of the row that it names. -/
theorem candidate_row {b : Block α m} (h : b ∈ t.candidates s x q dir) :
    t.candidate s x q dir b.row = some b := by
  obtain ⟨r, hr⟩ := mem_candidates.mp h
  rwa [(candidate_eq_some hr).1]

theorem candidates_eq_nil : t.candidates s x q dir = [] ↔ ∀ r, t.candidate s x q dir r = none := by
  simp [candidates]

theorem keep_mem (t : Tableau α m n) (tol : α) (best c : Block α m) :
    t.keep tol best c = best ∨ t.keep tol best c = c := by
  unfold keep
  split
  · exact .inr rfl
  · exact .inl rfl

/-- Once something is kept, the scan keeps one of two candidates at a time. -/
theorem foldl_some_eq (t : Tableau α m n) (tol : α) (l : List (Block α m)) (first : Block α m) :
    l.foldl (fun best c => match best with
      | none => some c
      | some b => if t.blocksBefore tol c b then some c else some b) (some first)
    = some (l.foldl (t.keep tol) first) := by
  induction l generalizing first with
  | nil => rfl
  | cons c rest ih =>
    rw [List.foldl_cons, List.foldl_cons, ← ih]
    unfold keep
    dsimp only
    split <;> rfl

/-- The ratio test compares what it has kept with one candidate after the other. -/
theorem ratioTest_eq : t.ratioTest s x q dir =
    match t.candidates s x q dir with
    | [] => none
    | first :: rest => some (rest.foldl (t.keep s.tolFeas) first) := by
  change (t.candidates s x q dir).foldl _ none = _
  cases t.candidates s x q dir with
  | nil => rfl
  | cons first rest => exact foldl_some_eq t s.tolFeas rest first

theorem ratioTest_eq_none :
    t.ratioTest s x q dir = none ↔ ∀ r, t.candidate s x q dir r = none := by
  rw [ratioTest_eq, ← candidates_eq_nil]
  cases t.candidates s x q dir with
  | nil => simp
  | cons first rest => simp

theorem ratioTest_scan {b : Block α m} (hb : t.ratioTest s x q dir = some b) :
    ∃ first rest, t.candidates s x q dir = first :: rest ∧
      b = rest.foldl (t.keep s.tolFeas) first := by
  rw [ratioTest_eq] at hb
  cases hlist : t.candidates s x q dir with
  | nil =>
    rw [hlist] at hb
    cases hb
  | cons first rest =>
    rw [hlist] at hb
    exact ⟨first, rest, rfl, (Option.some.inj hb).symm⟩

/-- Rows in increasing order of their basic variables give candidates in that order. -/
theorem candidates_sorted (hheads : StrictMono t.head.get) :
    (t.candidates s x q dir).Pairwise fun b c => t.head.get b.row < t.head.get c.row := by
  refine List.Pairwise.filterMap _ ?_ (List.pairwise_lt_finRange m)
  intro r r' hlt b hb c hc
  rw [(candidate_eq_some hb).1, (candidate_eq_some hc).1]
  exact hheads hlt

end Scan

/-! ## How late the kept candidate can be -/

section Drift

variable {m n : Nat} {t : Tableau Exact m n} {f : ℚ} {best c : Block Exact m}

/-- Whichever of two candidates is kept, it is later than neither by more than the tolerance. -/
theorem ratio_keep_le (hf : 0 ≤ f) (hbest : 0 ≤ best.ratio) (hc : 0 ≤ c.ratio) :
    (t.keep (.fin f) best c).ratio ≤ best.ratio + .fin f ∧
      (t.keep (.fin f) best c).ratio ≤ c.ratio + .fin f := by
  unfold keep
  split
  · rename_i hbefore
    refine ⟨?_, le_add_self hc hf⟩
    simp only [blocksBefore, Bool.or_eq_true, Bool.and_eq_true, decide_eq_true_eq] at hbefore
    rcases hbefore with hlt | ⟨hle, -⟩
    · exact Exact.le_trans (le_of_lt_sub hlt hf) (le_add_self hbest hf)
    · exact hle
  · rename_i hbefore
    refine ⟨le_add_self hbest hf, le_add_of_not_lt_sub hc hbest fun hlt => hbefore ?_⟩
    simp [blocksBefore, hlt]

/-- What is kept of several candidates is later than none of them by more than the tolerance for
each comparison. -/
theorem foldl_keep_le (hf : 0 ≤ f) {l : List (Block Exact m)} (hl : ∀ c ∈ best :: l, 0 ≤ c.ratio) :
    ∀ c ∈ best :: l,
      (l.foldl (t.keep (.fin f)) best).ratio ≤ c.ratio + .fin (l.length * f) := by
  induction l generalizing best with
  | nil =>
    intro c hc
    obtain rfl := List.mem_singleton.mp hc
    exact le_add_self (hl c hc) (by simp)
  | cons d rest ih =>
    obtain ⟨hbest, hd, hrest⟩ : 0 ≤ best.ratio ∧ 0 ≤ d.ratio ∧ ∀ c ∈ rest, 0 ≤ c.ratio := by
      simpa using hl
    obtain ⟨hkeep, hkeep'⟩ := ratio_keep_le (t := t) hf hbest hd
    have hkept : 0 ≤ (t.keep (.fin f) best d).ratio := by
      rcases keep_mem t (.fin f) best d with h | h
      · rwa [h]
      · rwa [h]
    have hlater := ih (List.forall_mem_cons.mpr ⟨hkept, hrest⟩)
    have hlength : ((d :: rest).length : ℚ) * f = rest.length * f + f := by
      rw [List.length_cons]
      push_cast
      ring
    rw [List.foldl_cons, hlength]
    intro c hc
    rcases List.mem_cons.mp hc with rfl | hc
    · exact le_add_trans (hlater _ List.mem_cons_self) hkeep
    · rcases List.mem_cons.mp hc with rfl | hc
      · exact le_add_trans (hlater _ List.mem_cons_self) hkeep'
      · exact le_add_mono (hlater c (List.mem_cons_of_mem _ hc)) (by linarith)

/-- Of candidates in increasing order of their basic variables a later one is kept only if it is
earlier by more than the tolerance, and nothing adds up. -/
theorem foldl_keep_le_of_sorted (hf : 0 ≤ f) {l : List (Block Exact m)}
    (hl : ∀ c ∈ best :: l, 0 ≤ c.ratio)
    (hsorted : (best :: l).Pairwise fun b c => t.head.get b.row < t.head.get c.row) :
    (l.foldl (t.keep (.fin f)) best).ratio ≤ best.ratio ∧
      ∀ c ∈ l, (l.foldl (t.keep (.fin f)) best).ratio ≤ c.ratio + .fin f := by
  induction l generalizing best with
  | nil => exact ⟨Exact.le_refl (isNaN_of_le (hl best List.mem_cons_self)).2, by simp⟩
  | cons d rest ih =>
    obtain ⟨hbest, hd, hrest⟩ : 0 ≤ best.ratio ∧ 0 ≤ d.ratio ∧ ∀ c ∈ rest, 0 ≤ c.ratio := by
      simpa using hl
    obtain ⟨hfirst, htail⟩ := List.pairwise_cons.mp hsorted
    have hlt := hfirst d List.mem_cons_self
    have hkeep' := (ratio_keep_le (t := t) hf hbest hd).2
    rw [List.foldl_cons]
    unfold keep at hkeep' ⊢
    split at hkeep'
    · rename_i hbefore
      obtain ⟨hle, hall⟩ := ih (List.forall_mem_cons.mpr ⟨hd, hrest⟩) htail
      have hearlier : d.ratio ≤ best.ratio := by
        simp only [blocksBefore, Bool.or_eq_true, Bool.and_eq_true, decide_eq_true_eq] at hbefore
        rcases hbefore with hearly | ⟨-, hsmall⟩
        · exact le_of_lt_sub hearly hf
        · exact absurd hsmall hlt.not_gt
      rw [if_pos hbefore]
      refine ⟨Exact.le_trans hle hearlier, List.forall_mem_cons.mpr ⟨?_, hall⟩⟩
      exact Exact.le_trans hle hkeep'
    · rename_i hbefore
      obtain ⟨hle, hall⟩ := ih (List.forall_mem_cons.mpr ⟨hbest, hrest⟩)
        (List.pairwise_cons.mpr ⟨fun c hc => hfirst c (List.mem_cons_of_mem _ hc),
          (List.pairwise_cons.mp htail).2⟩)
      rw [if_neg hbefore]
      exact ⟨hle, List.forall_mem_cons.mpr ⟨Exact.le_trans hle hkeep', hall⟩⟩

end Drift

/-! ## Without a tolerance -/

section Exactly

variable {m n : Nat} {t : Tableau Exact m n} {b c d best : Block Exact m}

/-- Block `b` stops the movement no later than `c`, and if at the same time, with a basic variable
of no larger index. -/
def NotAfter (t : Tableau Exact m n) (b c : Block Exact m) : Prop :=
  b.ratio ≤ c.ratio ∧ (c.ratio ≤ b.ratio → t.head.get b.row ≤ t.head.get c.row)

theorem notAfter_refl (hb : 0 ≤ b.ratio) : t.NotAfter b b :=
  ⟨Exact.le_refl (isNaN_of_le hb).2, fun _ => le_rfl⟩

theorem NotAfter.trans (hbc : t.NotAfter b c) (hcd : t.NotAfter c d) : t.NotAfter b d := by
  refine ⟨Exact.le_trans hbc.1 hcd.1, fun hdb => ?_⟩
  have hhead := hbc.2 (Exact.le_trans hcd.1 hdb)
  have hhead' := hcd.2 (Exact.le_trans hdb hbc.1)
  exact hhead.trans hhead'

theorem keep_notAfter (hbest : 0 ≤ best.ratio) (hc : 0 ≤ c.ratio) :
    t.NotAfter (t.keep 0 best c) best ∧ t.NotAfter (t.keep 0 best c) c := by
  have hiff : t.blocksBefore 0 c best = true ↔
      c.ratio < best.ratio ∨ c.ratio ≤ best.ratio ∧ t.head.get c.row < t.head.get best.row := by
    simp [blocksBefore]
  unfold keep
  split
  · rename_i hbefore
    refine ⟨?_, notAfter_refl hc⟩
    rcases hiff.mp hbefore with hlt | ⟨hle, hhead⟩
    · exact ⟨le_of_lt hlt, fun hback => absurd hlt (not_lt_of_le hback)⟩
    · exact ⟨hle, fun _ => hhead.le⟩
  · rename_i hbefore
    rw [hiff, not_or, not_and, not_lt] at hbefore
    refine ⟨notAfter_refl hbest, ?_, hbefore.2⟩
    exact (le_or_lt (isNaN_of_le hbest).2 (isNaN_of_le hc).2).resolve_right hbefore.1

/-- What is kept of several candidates comes after none of them. -/
theorem foldl_keep_notAfter {l : List (Block Exact m)} (hl : ∀ c ∈ best :: l, 0 ≤ c.ratio) :
    ∀ c ∈ best :: l, t.NotAfter (l.foldl (t.keep 0) best) c := by
  induction l generalizing best with
  | nil =>
    intro c hc
    obtain rfl := List.mem_singleton.mp hc
    exact notAfter_refl (hl c hc)
  | cons d rest ih =>
    obtain ⟨hbest, hd, hrest⟩ : 0 ≤ best.ratio ∧ 0 ≤ d.ratio ∧ ∀ c ∈ rest, 0 ≤ c.ratio := by
      simpa using hl
    obtain ⟨hkeep, hkeep'⟩ := keep_notAfter (t := t) hbest hd
    have hkept : 0 ≤ (t.keep 0 best d).ratio := by
      rcases keep_mem t 0 best d with h | h
      · rwa [h]
      · rwa [h]
    have hlater := ih (List.forall_mem_cons.mpr ⟨hkept, hrest⟩)
    have hfirst := hlater _ List.mem_cons_self
    intro c hc
    rcases List.mem_cons.mp hc with rfl | hc
    · exact hfirst.trans hkeep
    · rcases List.mem_cons.mp hc with rfl | hc
      · exact hfirst.trans hkeep'
      · exact hlater c (List.mem_cons_of_mem _ hc)

end Exactly

/-! ## The ratio test -/

section Ratio

variable {m n : Nat} {t : Tableau Exact m n} {s : SimplexSettings Exact}
  {x : Vector Exact (m + n)} {q : Fin (m + n)} {dir : Heading}

theorem orient_finite (dir : Heading) {v : Exact} (hv : isFinite v = true) :
    ∃ w : ℚ, dir.orient (-v) = .fin w := by
  obtain ⟨a, rfl⟩ := isFinite_iff.mp hv
  cases dir with
  | up => exact ⟨-a, rfl⟩
  | down => exact ⟨- -a, rfl⟩

/-- A candidate stops the movement on the way and not behind its start. -/
theorem candidate_nonneg {f : ℚ} (hfeas : s.tolFeas = .fin f) (hf : 0 ≤ f) {r : Fin m}
    (hcoef : isFinite (t.coef r q) = true) (hvalue : isFinite (x.get (t.head.get r)) = true)
    {b : Block Exact m} (h : t.candidate s x q dir r = some b) : 0 ≤ b.ratio := by
  obtain ⟨w, hw⟩ := orient_finite dir hcoef
  obtain ⟨v, hv⟩ := isFinite_iff.mp hvalue
  have hlarger (y : Exact) : 0 ≤ Scalar.larger y (.fin 0) := le_larger_right (Exact.le_refl rfl) y
  unfold candidate rate at h
  simp only [isBelow, isAbove, hw, hv, hfeas, decide_eq_true_eq, gt_iff_lt, zero_eq, fin_lt,
    neg_fin] at h
  split at h
  · cases h
  · split at h
    · rename_i hbelow
      split at h
      · cases h
        exact nonneg_div (sub_nonneg_of_below hbelow hf) ‹_›
      · cases h
    · split at h
      · rename_i habove
        split at h
        · cases h
          exact nonneg_div (sub_nonneg_of_above habove hf) (neg_pos.mpr ‹_›)
        · cases h
      · split at h
        · split at h
          · cases h
            exact hlarger _
          · cases h
        · split at h
          · cases h
            exact hlarger _
          · cases h

section Found

variable {f : ℚ} {b : Block Exact m}

theorem ratioTest_le (hfeas : s.tolFeas = .fin f) (hf : 0 ≤ f)
    (hnonneg : ∀ c ∈ t.candidates s x q dir, 0 ≤ c.ratio)
    (hb : t.ratioTest s x q dir = some b) : ∀ c ∈ t.candidates s x q dir,
      b.ratio ≤ c.ratio + .fin (((t.candidates s x q dir).length - 1 : ℕ) * f) := by
  obtain ⟨first, rest, hlist, rfl⟩ := ratioTest_scan hb
  rw [hlist] at hnonneg ⊢
  rw [hfeas]
  exact foldl_keep_le hf hnonneg

theorem ratioTest_le_of_sorted (hfeas : s.tolFeas = .fin f) (hf : 0 ≤ f)
    (hnonneg : ∀ c ∈ t.candidates s x q dir, 0 ≤ c.ratio) (hheads : StrictMono t.head.get)
    (hb : t.ratioTest s x q dir = some b) :
    ∀ c ∈ t.candidates s x q dir, b.ratio ≤ c.ratio + .fin f := by
  have hsorted : (t.candidates s x q dir).Pairwise fun b c =>
      t.head.get b.row < t.head.get c.row := candidates_sorted hheads
  obtain ⟨first, rest, hlist, rfl⟩ := ratioTest_scan hb
  rw [hlist] at hnonneg hsorted ⊢
  rw [hfeas]
  obtain ⟨hle, hall⟩ := foldl_keep_le_of_sorted hf hnonneg hsorted
  refine List.forall_mem_cons.mpr ⟨?_, hall⟩
  exact Exact.le_trans hle (le_add_self (hnonneg first List.mem_cons_self) hf)

theorem ratioTest_notAfter (hfeas : s.tolFeas = 0)
    (hnonneg : ∀ c ∈ t.candidates s x q dir, 0 ≤ c.ratio)
    (hb : t.ratioTest s x q dir = some b) :
    ∀ c ∈ t.candidates s x q dir, t.NotAfter b c := by
  obtain ⟨first, rest, hlist, rfl⟩ := ratioTest_scan hb
  rw [hlist] at hnonneg ⊢
  rw [hfeas]
  exact foldl_keep_notAfter hnonneg

end Found

/-- The ratio test finds nothing exactly if no row is a candidate, and otherwise a candidate. That
one is later than no other by more than the tolerance for each of the other candidates. It is late
by the tolerance at most if there are no more than two of them, or if the basic variables are in
increasing order, as they are at the start of a solve. Without a tolerance it is the one of smallest
index among those that stop the movement first. -/
theorem ratioTest_drift (t : Tableau Exact m n) (s : SimplexSettings Exact)
    (x : Vector Exact (m + n)) (q : Fin (m + n)) (dir : Heading)
    (hcoef : ∀ r, isFinite (t.coef r q) = true)
    (hvalue : ∀ r, isFinite (x.get (t.head.get r)) = true)
    (hdistinct : Function.Injective t.head.get)
    {f : ℚ} (hfeas : s.tolFeas = .fin f) (hf : 0 ≤ f) :
    (t.ratioTest s x q dir = none ↔ ∀ r, t.candidate s x q dir r = none) ∧
    ∀ b, t.ratioTest s x q dir = some b →
      t.candidate s x q dir b.row = some b ∧
      ∀ r c, t.candidate s x q dir r = some c →
        b.ratio ≤ c.ratio + .fin (((t.candidates s x q dir).length - 1 : ℕ) * f) ∧
        ((t.candidates s x q dir).length ≤ 2 ∨ StrictMono t.head.get →
          b.ratio ≤ c.ratio + s.tolFeas) ∧
        (f = 0 → b.ratio ≤ c.ratio ∧
          (c.ratio = b.ratio → c ≠ b → t.head.get b.row < t.head.get r)) := by
  refine ⟨ratioTest_eq_none, fun b hb => ?_⟩
  have hrow := candidate_row (mem_candidates.mpr (ratioTest_eq_some hb))
  refine ⟨hrow, fun r c hcr => ?_⟩
  obtain rfl : c.row = r := (candidate_eq_some hcr).1
  have hc : c ∈ t.candidates s x q dir := mem_candidates.mpr ⟨_, hcr⟩
  have hnonneg (d : Block Exact m) (hd : d ∈ t.candidates s x q dir) : 0 ≤ d.ratio :=
    candidate_nonneg hfeas hf (hcoef _) (hvalue _) (candidate_row hd)
  have hlate := ratioTest_le hfeas hf hnonneg hb c hc
  refine ⟨hlate, ?_, ?_⟩
  · rw [hfeas]
    rintro (hfew | hmono)
    · refine le_add_mono hlate ?_
      have hone : (((t.candidates s x q dir).length - 1 : ℕ) : ℚ) ≤ 1 := by
        exact_mod_cast Nat.sub_le_of_le_add hfew
      exact (mul_le_mul_of_nonneg_right hone hf).trans_eq (one_mul f)
    · exact ratioTest_le_of_sorted hfeas hf hnonneg hmono hb c hc
  · rintro rfl
    obtain ⟨hle, hhead⟩ := ratioTest_notAfter hfeas hnonneg hb c hc
    refine ⟨hle, fun heq hne => lt_of_le_of_ne (hhead ?_) fun hsame => hne ?_⟩
    · rw [heq]
      exact Exact.le_refl (isNaN_of_le hle).1
    · rw [hdistinct hsame] at hrow
      exact Option.some.inj (hcr.symm.trans hrow)

end Ratio

end Tableau

/-! ## Three rows in the wrong order -/

namespace Simplex

/-- The largest `x₀ + x₁ + 3 x₂` with `x₁ + x₂ ≤ 1`, `x₀ + x₂ ≤ 2` and `x₂ ≤ 3`, stopped after two
steps. The tolerance for ranges is 1. -/
def drifting : Simplex Exact := .new
  { objective := #[1, 1, .fin 3]
    matrix := ⟨3, 3, .byRow, #[[(1, 1), (2, 1)], [(0, 1), (2, 1)], [(2, 1)]]⟩
    rowLower := #[.negInf, .negInf, .negInf]
    rowUpper := #[1, .fin 2, .fin 3]
    colLower := #[0, 0, 0]
    colUpper := #[.posInf, .posInf, .posInf]
    kinds := #[.continuous, .continuous, .continuous] } ⟨2, 1, 0, 0, 0⟩

theorem built_drifting : drifting.model.Built :=
  .ofRows #[1, 1, .fin 3] #[.continuous, .continuous, .continuous]
    [([(1, 1), (2, 1)], .negInf, 1), ([(0, 1), (2, 1)], .negInf, .fin 2),
      ([(2, 1)], .negInf, .fin 3)] (by cbv)

/-- Where the two steps lead. -/
def drifted : Tableau Exact drifting.model.numRows drifting.model.numCols := drifting.run.tableau

/-- Variable `x₂` among all variables. -/
def lastColumn : Fin (drifting.model.numRows + drifting.model.numCols) := ⟨5, by decide⟩

/-- The first row of three. -/
def firstRow : Fin drifting.model.numRows := ⟨0, by decide⟩

theorem ratioTest_drifted : drifted.ratioTest drifting.settings drifted.values lastColumn .up
    = some ⟨⟨2, by decide⟩, .fin 3, .atUpper⟩ := by
  cbv

theorem candidate_drifted :
    drifted.candidate drifting.settings drifted.values lastColumn .up firstRow
      = some ⟨firstRow, .fin 1, .atLower⟩ := by
  cbv

/-- The basic variables are `x₁`, `x₀` and the last row. While `x₂` grows they stop it after 1, 2
and 3, and each is exchanged for the next. -/
theorem ratioTest_drift_drifted : ∃ b c,
    drifted.ratioTest drifting.settings drifted.values lastColumn .up = some b ∧
    drifted.candidate drifting.settings drifted.values lastColumn .up firstRow = some c ∧
    b.ratio = .fin 3 ∧
    (drifted.candidates drifting.settings drifted.values lastColumn .up).length = 3 ∧
    b.ratio ≤ c.ratio + .fin (((drifted.candidates drifting.settings drifted.values lastColumn
      .up).length - 1 : ℕ) * 1) := by
  have hspec := Tableau.ratioTest_drift drifted drifting.settings drifted.values lastColumn .up
    (by decide +kernel) (by decide +kernel) (by decide +kernel) (f := 1) rfl (by decide +kernel)
  obtain ⟨-, hlate⟩ := hspec.2 _ ratioTest_drifted
  exact ⟨_, _, ratioTest_drifted, candidate_drifted, rfl, by decide +kernel,
    (hlate firstRow _ candidate_drifted).1⟩

/-- So the stop that is found is late by more than the tolerance. -/
theorem ratioTest_not_within_tolerance : drifting.model.Built ∧ drifting.run.pivots = 2 ∧
    drifted.entering drifting.settings.tolCost (drifted.cost drifting.settings.tolFeas
      drifting.model.objective drifted.values) = some (lastColumn, .up) ∧
    Function.Injective drifted.head.get ∧ (∀ k, drifted.lower.get k ≤ drifted.upper.get k) ∧
    ∃ b c, drifted.ratioTest drifting.settings drifted.values lastColumn .up = some b ∧
      drifted.candidate drifting.settings drifted.values lastColumn .up firstRow = some c ∧
      ¬ b.ratio ≤ c.ratio + drifting.settings.tolFeas :=
  ⟨built_drifting, by decide +kernel, by decide +kernel, by decide +kernel, by decide +kernel,
    _, _, ratioTest_drifted, candidate_drifted, by decide +kernel⟩

end Simplex

end MixedInteger
