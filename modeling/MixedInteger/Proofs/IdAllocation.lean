import Mathlib.Data.List.Basic
import Mathlib.Data.List.Induction
import MixedInteger.Search.NodeId

/-!
# Handing out ids

Single ids and pairs of ids may be asked for in any order. Ids come in increasing order, and a pair
is an even id with the odd one after it. A pair that finds an odd id free skips it for good. The
count of ids used up takes in the skipped ones, so it is the number of ids handed out only as long
as every pair comes after an odd number of single ids, as those of a search do.

* `NodeIds.Call`, `NodeIds.performAll`: what can be asked for;
* `NodeIds.Issuing.Accounts`: the invariant; `NodeIds.accounts_performAll`: it holds;
* `NodeIds.skipped`, `NodeIds.skipped_eq_zero_iff`: how many ids are skipped, and when none is;
* `NodeIds.performAll_allocates`: what any calls hand out.
-/

namespace MixedInteger

namespace NodeIds

/-- What can be asked for. -/
inductive Call where
  | single
  | pair
  deriving DecidableEq, Repr

/-- What is handed out for one call. -/
inductive Grant where
  | single (id : NodeId)
  | pair (even odd : NodeId)
  deriving DecidableEq, Repr

def Grant.call : Grant → Call
  | .single _ => .single
  | .pair _ _ => .pair

def Grant.ids : Grant → List Nat
  | .single id => [id]
  | .pair even odd => [even, odd]

/-- The ids that are free, and what was handed out for one call after the other. -/
structure Issuing where
  ids : NodeIds
  grants : List Grant

namespace Issuing

def handed (s : Issuing) : List Nat := s.grants.flatMap Grant.ids

def perform (s : Issuing) : Call → Issuing
  | .single =>
    let (id, ids) := s.ids.nextId
    ⟨ids, s.grants ++ [.single id]⟩
  | .pair =>
    let ((even, odd), ids) := s.ids.nextPair
    ⟨ids, s.grants ++ [.pair even odd]⟩

@[simp] theorem next_single (s : Issuing) : (s.perform .single).ids.next = s.ids.next + 1 := rfl

@[simp] theorem next_pair (s : Issuing) : (s.perform .pair).ids.next = s.ids.nextEven + 2 := rfl

@[simp] theorem handed_single (s : Issuing) :
    (s.perform .single).handed = s.handed ++ [s.ids.next] :=
  List.flatMap_append

@[simp] theorem handed_pair (s : Issuing) :
    (s.perform .pair).handed = s.handed ++ [s.ids.nextEven, s.ids.nextEven + 1] :=
  List.flatMap_append

/-- Each call has its grant, and each id before the first free one was handed out or skipped for the
pair after it. -/
structure Accounts (s : Issuing) (calls : List Call) : Prop where
  answered : s.grants.map Grant.call = calls
  positive : 1 ≤ s.ids.next
  increasing : s.handed.Pairwise (· < ·)
  paired : ∀ even odd : Nat, .pair even odd ∈ s.grants →
    ∃ k, 1 ≤ k ∧ even = 2 * k ∧ odd = 2 * k + 1
  used : ∀ id : Nat,
    id ∈ s.handed ∨ .pair (id + 1) (id + 2) ∈ s.grants ↔ 1 ≤ id ∧ id < s.ids.next

variable {s : Issuing} {calls : List Call}

/-- Free ids come after those handed out. -/
theorem Accounts.increasing_append (hs : s.Accounts calls) {new : List Nat}
    (hnew : new.Pairwise (· < ·)) (hfree : ∀ id ∈ new, s.ids.next ≤ id) :
    (s.handed ++ new).Pairwise (· < ·) := by
  refine List.pairwise_append.mpr ⟨hs.increasing, hnew, ?_⟩
  intro old hold id hid
  exact Nat.lt_of_lt_of_le ((hs.used old).mp (.inl hold)).2 (hfree id hid)

theorem Accounts.single (hs : s.Accounts calls) :
    (s.perform .single).Accounts (calls ++ [.single]) := by
  have hpositive := hs.positive
  have hpairs (even odd : Nat) :
      .pair even odd ∈ (s.perform .single).grants ↔ .pair even odd ∈ s.grants := by
    change .pair even odd ∈ s.grants ++ [.single s.ids.next] ↔ _
    simp
  constructor
  case answered =>
    change (s.grants ++ [_]).map Grant.call = _
    rw [List.map_append, hs.answered]
    rfl
  case positive => exact Nat.le_add_left 1 s.ids.next
  case increasing =>
    rw [handed_single]
    exact hs.increasing_append (List.pairwise_singleton _ _) (by simp)
  case paired =>
    intro even odd hmem
    exact hs.paired even odd ((hpairs even odd).mp hmem)
  case used =>
    intro id
    rw [hpairs, handed_single, List.mem_append, List.mem_singleton, or_right_comm, hs.used,
      next_single]
    omega

theorem Accounts.pair (hs : s.Accounts calls) :
    (s.perform .pair).Accounts (calls ++ [.pair]) := by
  have hpositive := hs.positive
  have heven := s.ids.nextEven_eq
  have hpairs (even odd : Nat) : .pair even odd ∈ (s.perform .pair).grants ↔
      .pair even odd ∈ s.grants ∨ even = s.ids.nextEven ∧ odd = s.ids.nextEven + 1 := by
    change .pair even odd ∈ s.grants ++ [.pair s.ids.nextEven (s.ids.nextEven + 1)] ↔ _
    simp
  constructor
  case answered =>
    change (s.grants ++ [_]).map Grant.call = _
    rw [List.map_append, hs.answered]
    rfl
  case positive =>
    rw [next_pair]
    omega
  case increasing =>
    rw [handed_pair]
    apply hs.increasing_append
    · simp
    · intro id hid
      rcases List.mem_pair.mp hid with rfl | rfl <;> omega
  case paired =>
    intro even odd hmem
    rcases (hpairs even odd).mp hmem with hold | ⟨rfl, rfl⟩
    · exact hs.paired even odd hold
    · exact ⟨s.ids.nextEven / 2, by omega, by omega, by omega⟩
  case used =>
    -- The id before the pair was free, and is skipped now, if it is odd.
    intro id
    rw [hpairs, handed_pair, List.mem_append, List.mem_pair, or_or_or_comm, hs.used, next_pair]
    omega

end Issuing

/-- Any calls from the start. -/
def performAll (calls : List Call) : Issuing := calls.foldl Issuing.perform ⟨initial, []⟩

theorem accounts_performAll (calls : List Call) : (performAll calls).Accounts calls := by
  induction calls using List.reverseRecOn with
  | nil =>
    refine ⟨rfl, Nat.le_refl 1, List.Pairwise.nil, by simp [performAll], ?_⟩
    intro id
    simp [performAll, Issuing.handed, initial]
    omega
  | append_singleton calls c ih =>
    have hstep : performAll (calls ++ [c]) = (performAll calls).perform c := by
      simp [performAll]
    rw [hstep]
    cases c with
    | single => exact ih.single
    | pair => exact ih.pair

/-! ## Skipped ids -/

/-- How many ids are skipped if the first free one is odd or even as `next` is. -/
def skipped (next : Nat) : List Call → Nat
  | [] => 0
  | .single :: rest => skipped (next + 1) rest
  | .pair :: rest => next % 2 + skipped 0 rest

theorem skipped_congr {m n : Nat} (h : m % 2 = n % 2) (calls : List Call) :
    skipped m calls = skipped n calls := by
  induction calls generalizing m n with
  | nil => rfl
  | cons c rest ih =>
    cases c with
    | single => exact ih (by omega)
    | pair =>
      rw [skipped, skipped, h]

/-- No id is skipped just if each pair finds an even id free. -/
theorem skipped_eq_zero_iff {next : Nat} {calls : List Call} : skipped next calls = 0 ↔
    ∀ before after, calls = before ++ .pair :: after →
      (next + before.count .single) % 2 = 0 := by
  induction calls generalizing next with
  | nil => simp [skipped]
  | cons c rest ih =>
    cases c with
    | single =>
      rw [skipped, ih]
      constructor
      · intro heven before after hsplit
        cases before with
        | nil => cases hsplit
        | cons c' before =>
          cases hsplit
          have hrest := heven before after rfl
          rw [List.count_cons_self]
          omega
      · intro heven before after hsplit
        have hrest := heven (.single :: before) after (congrArg _ hsplit)
        rw [List.count_cons_self] at hrest
        omega
    | pair =>
      rw [skipped, Nat.add_eq_zero_iff, ih]
      constructor
      · rintro ⟨hnext, heven⟩ before after hsplit
        cases before with
        | nil => exact hnext
        | cons c' before =>
          cases hsplit
          have hrest := heven before after rfl
          rw [List.count_cons_of_ne (by decide)]
          omega
      · intro heven
        have hnext := heven [] rest rfl
        refine ⟨hnext, fun before after hsplit => ?_⟩
        have hrest := heven (.pair :: before) after (congrArg _ hsplit)
        rw [List.count_cons_of_ne (by decide)] at hrest
        rw [List.count_nil] at hnext
        omega

/-- What is used up beyond the ids handed out is skipped. -/
theorem next_foldl (s : Issuing) (calls : List Call) :
    (calls.foldl Issuing.perform s).ids.next + s.handed.length
      = s.ids.next + (calls.foldl Issuing.perform s).handed.length
        + skipped s.ids.next calls := by
  induction calls generalizing s with
  | nil => rfl
  | cons c rest ih =>
    have hrest := ih (s.perform c)
    rw [List.foldl_cons]
    cases c with
    | single =>
      rw [skipped]
      rw [Issuing.next_single, Issuing.handed_single, List.length_append,
        List.length_singleton] at hrest
      omega
    | pair =>
      have hskip := s.ids.nextEven_eq
      have heven : (s.ids.nextEven + 2) % 2 = 0 % 2 := by omega
      rw [skipped]
      rw [Issuing.next_pair, Issuing.handed_pair, List.length_append, skipped_congr heven] at hrest
      simp only [List.length_cons, List.length_nil] at hrest
      omega

/-- What any calls hand out. Each call has its grant, the ids increase from one to the next, and a
pair is an even id with the odd one after it. The ids used up are those handed out and those before
a pair; they are as many as those handed out and those skipped, and no more than those handed out
just if every pair comes after an odd number of single ids. -/
theorem performAll_allocates (calls : List Call) :
    let s := performAll calls
    s.grants.map Grant.call = calls ∧
    s.handed.Pairwise (· < ·) ∧ s.handed.Nodup ∧
    (∀ even odd : Nat, .pair even odd ∈ s.grants →
      ∃ k, 1 ≤ k ∧ even = 2 * k ∧ odd = 2 * k + 1) ∧
    (∀ id : Nat, id ∈ s.handed ∨ .pair (id + 1) (id + 2) ∈ s.grants ↔
      1 ≤ id ∧ id ≤ s.ids.issued) ∧
    s.ids.issued = s.handed.length + skipped 1 calls ∧
    (s.ids.issued = s.handed.length ↔ ∀ before after, calls = before ++ .pair :: after →
      before.count .single % 2 = 1) := by
  intro s
  have hs : s.Accounts calls := accounts_performAll calls
  have hpositive := hs.positive
  have hissued : s.ids.issued = s.handed.length + skipped 1 calls := by
    have hnext : s.ids.next + 0 = 1 + s.handed.length + skipped 1 calls :=
      next_foldl ⟨initial, []⟩ calls
    rw [issued]
    omega
  refine ⟨hs.answered, hs.increasing, hs.increasing.imp Nat.ne_of_lt, hs.paired, ?_, hissued, ?_⟩
  · intro id
    rw [hs.used, issued]
    omega
  · rw [hissued, Nat.add_eq_left, skipped_eq_zero_iff]
    refine forall₃_congr fun before after _ => ?_
    omega

/-- The id 3 is skipped so that the pair begins with 4, and it is counted all the same. -/
theorem issued_counts_skipped :
    let s := performAll [.single, .single, .pair]
    s.grants = [.single 1, .single 2, .pair 4 5] ∧ s.handed = [1, 2, 4, 5] ∧
    s.ids.issued = 5 ∧ s.ids.issued ≠ s.handed.length := by
  decide

end NodeIds

end MixedInteger
