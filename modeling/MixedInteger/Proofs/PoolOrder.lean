import MixedInteger.Proofs.FirstLargest
import MixedInteger.Proofs.SearchStep

/-!
# The pool as a priority list

Nodes come to the end of the pool and are taken from any position that a selector names. None is
lost and none is given twice, and those that wait stay in the order in which they came. If all
bounds are defined, the best bound is the bound of the node that is taken for it, of several such
nodes the one that came first. So emptying the pool sorts its nodes by their bounds, and equal
bounds keep their order.

* `NodePool.Call`, `NodePool.performAll`: what can be asked of a pool;
* `NodePool.Handled.Accounts`: the invariant; `NodePool.accounts_performAll`: it holds;
* `NodePool.drain`, `NodePool.drain_depthFirst`, `NodePool.drain_bestBound`: emptying a pool;
* `NodePool.performAll_priority`: what every reachable pool shows.
-/

namespace MixedInteger

open Scalar

namespace NodePool

variable {R α : Type}

/-! ## Taking a node -/

section Taking

variable {pool pool' : NodePool R α} {selector : NodeSelector α} {node : Subproblem R α} {i : Nat}

/-- A node is taken at the position named, and the others close up. -/
theorem take?_of_split {before after : List (Subproblem R α)}
    (hwaiting : pool.waiting.toList = before ++ node :: after)
    (hselect : selector pool.bounds = some before.length) :
    ∃ pool', pool.take? selector = some ((node, before.length), pool') ∧
      pool'.waiting.toList = before ++ after := by
  have hnode : pool.waiting[before.length]? = some node := by
    rw [← Array.getElem?_toList, hwaiting, List.getElem?_append_right (Nat.le_refl _),
      Nat.sub_self]
    rfl
  refine ⟨_, take?_eq_some_iff.mpr ⟨hselect, hnode, rfl⟩, ?_⟩
  rw [Array.toList_eraseIdxIfInBounds, hwaiting,
    List.eraseIdx_append_of_length_le (Nat.le_refl _), Nat.sub_self]
  rfl

theorem size_take? (h : pool.take? selector = some ((node, i), pool')) :
    pool'.size + 1 = pool.size := by
  obtain ⟨before, after, hwaiting, hleft, -⟩ := take?_split h
  rw [size, size, ← Array.length_toList, ← Array.length_toList, hwaiting, hleft]
  simp only [List.length_append, List.length_cons]
  omega

end Taking

/-! ## Calls -/

/-- What can be asked of a pool. A selector may name any position, or none. -/
inductive Call (R α : Type) where
  | push (node : Subproblem R α)
  | take (selector : NodeSelector α)

/-- The node that a call adds. -/
def Call.pushed? : Call R α → Option (Subproblem R α)
  | .push node => some node
  | .take _ => none

/-- A pool, and the nodes that were taken from it one after the other. -/
structure Handled (R α : Type) where
  pool : NodePool R α
  taken : List (Subproblem R α)

namespace Handled

/-- What a call leaves behind, also when it takes nothing. -/
def perform (s : Handled R α) : Call R α → Handled R α
  | .push node => { s with pool := s.pool.push node }
  | .take selector =>
    let (taken, pool) := (takeInPlace selector).run s.pool
    ⟨pool, s.taken ++ (taken.map Prod.fst).toList⟩

theorem perform_take (s : Handled R α) (selector : NodeSelector α) : s.perform (.take selector) =
    match s.pool.take? selector with
    | none => s
    | some ((node, _), pool) => ⟨pool, s.taken ++ [node]⟩ := by
  unfold perform
  dsimp only
  rw [run_takeInPlace]
  cases s.pool.take? selector with
  | none => simp
  | some taken => rfl

/-- The nodes given are those taken and those waiting, and those that wait are in the order in
which they were given. -/
structure Accounts (s : Handled R α) (given : List (Subproblem R α)) : Prop where
  added : s.pool.totalAdded = given.length
  removed : s.pool.totalTaken = s.taken.length
  shared : (s.taken ++ s.pool.waiting.toList).Perm given
  ordered : s.pool.waiting.toList.Sublist given

variable {s : Handled R α} {given : List (Subproblem R α)}

theorem Accounts.push (hs : s.Accounts given) (node : Subproblem R α) :
    (s.perform (.push node)).Accounts (given ++ [node]) := by
  have hwaiting : (s.pool.push node).waiting.toList = s.pool.waiting.toList ++ [node] :=
    Array.toList_push
  constructor
  case added =>
    change s.pool.totalAdded + 1 = _
    rw [hs.added, List.length_append]
    rfl
  case removed => exact hs.removed
  case shared =>
    change (s.taken ++ (s.pool.push node).waiting.toList).Perm _
    rw [hwaiting, ← List.append_assoc]
    exact hs.shared.append_right [node]
  case ordered =>
    change (s.pool.push node).waiting.toList.Sublist _
    rw [hwaiting]
    exact hs.ordered.append (List.Sublist.refl [node])

theorem Accounts.take (hs : s.Accounts given) (selector : NodeSelector α) :
    (s.perform (.take selector)).Accounts given := by
  rw [perform_take]
  split
  · exact hs
  · rename_i node i pool' htake
    obtain ⟨before, after, hwaiting, hleft, hadded, htaken⟩ := take?_split htake
    constructor
    case added => exact hadded.trans hs.added
    case removed =>
      change pool'.totalTaken = _
      rw [htaken, hs.removed, List.length_append]
      rfl
    case shared =>
      change ((s.taken ++ [node]) ++ pool'.waiting.toList).Perm given
      have hshared := hs.shared
      rw [hwaiting] at hshared
      rw [hleft, List.append_assoc, List.singleton_append]
      exact (List.perm_middle.symm.append_left s.taken).trans hshared
    case ordered =>
      change pool'.waiting.toList.Sublist given
      have hordered := hs.ordered
      rw [hwaiting] at hordered
      rw [hleft]
      exact ((List.sublist_cons_self node after).append_left before).trans hordered

theorem Accounts.perform (hs : s.Accounts given) (c : Call R α) :
    (s.perform c).Accounts (given ++ c.pushed?.toList) := by
  cases c with
  | push node => exact hs.push node
  | take selector => simpa [Call.pushed?] using hs.take selector

end Handled

/-- Any calls on an empty pool. -/
def performAll (calls : List (Call R α)) : Handled R α := calls.foldl Handled.perform ⟨empty, []⟩

/-- The nodes that calls add, in their order. -/
def pushed (calls : List (Call R α)) : List (Subproblem R α) := calls.filterMap Call.pushed?

theorem accounts_performAll (calls : List (Call R α)) :
    (performAll calls).Accounts (pushed calls) := by
  suffices hfold : ∀ (s : Handled R α) (given : List (Subproblem R α)), s.Accounts given →
      (calls.foldl Handled.perform s).Accounts (given ++ pushed calls) by
    exact hfold ⟨empty, []⟩ [] ⟨rfl, rfl, List.Perm.nil, List.Sublist.refl []⟩
  induction calls with
  | nil =>
    intro s given hs
    simpa [pushed] using hs
  | cons c rest ih =>
    intro s given hs
    have hpushed : pushed (c :: rest) = c.pushed?.toList ++ pushed rest := by
      cases c <;> rfl
    rw [List.foldl_cons, hpushed, ← List.append_assoc]
    exact ih _ _ (hs.perform c)

/-! ## Emptying a pool -/

/-- The nodes that a selector takes until it takes none. -/
def drain (pool : NodePool R α) (selector : NodeSelector α) : List (Subproblem R α) :=
  match _h : pool.take? selector with
  | none => []
  | some ((node, _), pool') => node :: pool'.drain selector
termination_by pool.size
decreasing_by
  have hsize := size_take? _h
  omega

section Draining

variable [Scalar α] {pool pool' : NodePool R α} {selector : NodeSelector α}
  {node : Subproblem R α} {i : Nat}

omit [Scalar α] in
theorem drain_of_none (h : pool.take? selector = none) : pool.drain selector = [] := by
  rw [drain]
  split
  · rfl
  · rename_i heq
    cases h.symm.trans heq

omit [Scalar α] in
theorem drain_of_some (h : pool.take? selector = some ((node, i), pool')) :
    pool.drain selector = node :: pool'.drain selector := by
  rw [drain]
  split
  · rename_i heq
    cases h.symm.trans heq
  · rename_i heq
    cases h.symm.trans heq
    rfl

omit [Scalar α] in
theorem drain_of_waiting_nil (h : pool.waiting.toList = []) : pool.drain selector = [] := by
  apply drain_of_none
  rw [take?_eq_none_iff]
  intro i _
  rw [size, ← Array.length_toList, h]
  exact Nat.zero_le i

/-- The front of the pool is taken each time. -/
theorem drain_depthFirst (pool : NodePool R α) :
    pool.drain NodeOrder.depthFirst.selector = pool.waiting.toList := by
  generalize hwaiting : pool.waiting.toList = nodes
  induction nodes generalizing pool with
  | nil => exact drain_of_waiting_nil hwaiting
  | cons node rest ih =>
    have hselect : NodeOrder.depthFirst.selector pool.bounds = some 0 := by
      rw [bounds, hwaiting]
      rfl
    have hsplit : pool.waiting.toList = [] ++ node :: rest := hwaiting
    obtain ⟨pool', htake, hleft⟩ := take?_of_split hsplit hselect
    rw [drain_of_some htake, ih pool' hleft]

/-- The nodes `sorted` are the nodes `given`, with larger bounds first, and those with equal bounds
in the order in which they were given. -/
structure StablySorts (given sorted : List (Subproblem R α)) : Prop where
  perm : sorted.Perm given
  decreasing : sorted.Pairwise fun a b => b.upperBound ≤ a.upperBound
  stable : ∀ bound, sorted.filter (·.upperBound == bound) = given.filter (·.upperBound == bound)

variable [Ordered α]

/-- The best bound is that of the first node with a largest bound, which is taken for it. -/
theorem take?_best (hdef : ∀ n ∈ pool.waiting, isNaN n.upperBound = false)
    (hsome : pool.waiting.toList ≠ []) :
    ∃ before node after pool', pool.waiting.toList = before ++ node :: after ∧
      (∀ n ∈ before, n.upperBound < node.upperBound) ∧
      (∀ n ∈ after, n.upperBound ≤ node.upperBound) ∧
      (node.upperBound == pool.bestBound) = true ∧
      pool.take? NodeOrder.bestBound.selector = some ((node, before.length), pool') ∧
      pool'.waiting.toList = before ++ after := by
  have hbounds : ∀ b ∈ pool.bounds, isNaN b = false := by
    intro b hb
    obtain ⟨n, hn, rfl⟩ := List.mem_map.mp hb
    exact hdef n (Array.mem_toList_iff.mp hn)
  obtain ⟨front, b, back, hsplit, hselect, hfront, hback⟩ :=
    firstMax?_split hbounds (by simpa [bounds] using hsome)
  obtain ⟨before, tail, hwaiting, rfl, htail⟩ := List.map_eq_append_iff.mp hsplit
  obtain ⟨node, after, rfl, rfl, rfl⟩ := List.map_eq_cons_iff.mp htail
  have hselect : NodeOrder.bestBound.selector pool.bounds = some before.length := by
    rw [← List.length_map Subproblem.upperBound]
    exact hselect
  obtain ⟨pool', htake, hleft⟩ := take?_of_split hwaiting hselect
  have hnode : node.upperBound ∈ pool.bounds := by
    rw [hsplit]
    exact List.mem_append_right _ List.mem_cons_self
  have hmax : ∀ b ∈ pool.bounds, b ≤ node.upperBound := by
    rw [hsplit, List.forall_mem_append, List.forall_mem_cons]
    refine ⟨?_, Ordered.le_refl (hbounds _ hnode), hback⟩
    intro b hb
    exact Ordered.le_of_lt (hfront b hb)
  rw [List.forall_mem_map] at hfront hback
  refine ⟨before, node, after, pool', hwaiting, hfront, hback, ?_, htake, hleft⟩
  obtain ⟨hmem, hle⟩ := foldl_larger_spec (List.forall_mem_cons.mpr ⟨Ordered.negInf, hbounds⟩)
  apply Ordered.beq_iff.mpr
  constructor
  · exact hle _ (List.mem_cons_of_mem _ hnode)
  · rcases List.mem_cons.mp hmem with heq | hmem
    · rw [bestBound, heq]
      exact Ordered.negInf_le (hbounds _ hnode)
    · exact hmax _ hmem

/-- The node with the best bound is taken each time. What it is taken before is no better, and what
stands in front of it is worse. -/
theorem drain_bestBound (pool : NodePool R α)
    (hdef : ∀ n ∈ pool.waiting, isNaN n.upperBound = false) :
    StablySorts pool.waiting.toList (pool.drain NodeOrder.bestBound.selector) := by
  induction hsize : pool.size generalizing pool with
  | zero =>
    have hnil : pool.waiting.toList = [] := by
      rw [← List.length_eq_zero_iff, Array.length_toList]
      exact hsize
    rw [hnil, drain_of_waiting_nil hnil]
    exact ⟨List.Perm.nil, List.Pairwise.nil, fun _ => rfl⟩
  | succ n ih =>
    have hsome : pool.waiting.toList ≠ [] := by
      intro hnil
      rw [← List.length_eq_zero_iff, Array.length_toList] at hnil
      exact absurd (hsize.symm.trans hnil) (Nat.succ_ne_zero n)
    obtain ⟨before, node, after, pool', hwaiting, hbefore, hafter, -, htake, hleft⟩ :=
      take?_best hdef hsome
    have hothers : ∀ m ∈ pool'.waiting, m ∈ before ∨ m ∈ after := by
      intro m hm
      rwa [← Array.mem_toList_iff, hleft, List.mem_append] at hm
    have hdef' : ∀ m ∈ pool'.waiting, isNaN m.upperBound = false := by
      intro m hm
      apply hdef
      rw [← Array.mem_toList_iff, hwaiting, List.mem_append, List.mem_cons]
      exact (hothers m hm).imp id .inr
    have hsize' := size_take? htake
    have hrest := ih pool' hdef' (by omega)
    rw [hleft] at hrest
    rw [hwaiting, drain_of_some htake]
    constructor
    case perm => exact (hrest.perm.cons node).trans List.perm_middle.symm
    case decreasing =>
      apply List.Pairwise.cons _ hrest.decreasing
      intro m hm
      rcases List.mem_append.mp (hrest.perm.mem_iff.mp hm) with hm | hm
      · exact Ordered.le_of_lt (hbefore m hm)
      · exact hafter m hm
    case stable =>
      intro bound
      rw [List.filter_cons, hrest.stable, List.filter_append, List.filter_append, List.filter_cons]
      split
      · rename_i hnode
        -- No bound in front is equal to that of the node.
        have hnone : before.filter (·.upperBound == bound) = [] := by
          rw [List.filter_eq_nil_iff]
          intro m hm heq
          have hle := Ordered.le_trans (Ordered.beq_iff.mp hnode).1 (Ordered.beq_iff.mp heq).2
          exact Ordered.not_lt_of_le hle (hbefore m hm)
        rw [hnone]
        rfl
      · rfl

end Draining

/-- A pool after any calls, with any selectors. The counters give its size, the nodes given are
those taken and those waiting, and the latter are in the order in which they were given. A call
that takes nothing changes nothing; any other takes the node at the position that it names. If no
bound is undefined, the order by best bound takes the first of the nodes with a largest bound, which
is the best bound. So it empties the pool by decreasing bounds, equal ones in their order, and the
order by depth empties it from the front. -/
theorem performAll_priority [Scalar α] [Ordered α] (calls : List (Call R α)) :
    let s := performAll calls
    let waiting := s.pool.waiting.toList
    s.pool.totalTaken ≤ s.pool.totalAdded ∧
    s.pool.size = s.pool.totalAdded - s.pool.totalTaken ∧
    s.Accounts (pushed calls) ∧
    (∀ selector, s.pool.take? selector = none →
      s.perform (.take selector) = s ∧ ∀ i, selector s.pool.bounds = some i → s.pool.size ≤ i) ∧
    (∀ selector node i pool', s.pool.take? selector = some ((node, i), pool') →
      s.perform (.take selector) = ⟨pool', s.taken ++ [node]⟩ ∧
      selector s.pool.bounds = some i ∧ waiting[i]? = some node ∧
      pool'.waiting.toList = waiting.eraseIdx i) ∧
    s.pool.drain NodeOrder.depthFirst.selector = waiting ∧
    ((∀ node ∈ s.pool.waiting, isNaN node.upperBound = false) →
      (waiting ≠ [] → ∃ before node after pool', waiting = before ++ node :: after ∧
        (∀ n ∈ before, n.upperBound < node.upperBound) ∧
        (∀ n ∈ after, n.upperBound ≤ node.upperBound) ∧
        (node.upperBound == s.pool.bestBound) = true ∧
        s.pool.take? NodeOrder.bestBound.selector = some ((node, before.length), pool') ∧
        pool'.waiting.toList = before ++ after) ∧
      StablySorts waiting (s.pool.drain NodeOrder.bestBound.selector)) := by
  intro s waiting
  have hs : s.Accounts (pushed calls) := accounts_performAll calls
  have hcount := hs.shared.length_eq
  rw [List.length_append, Array.length_toList] at hcount
  have hadded := hs.added
  have hremoved := hs.removed
  refine ⟨by omega, ?_, hs, ?_, ?_, drain_depthFirst s.pool, ?_⟩
  · rw [size]
    omega
  · intro selector hnone
    refine ⟨?_, take?_eq_none_iff.mp hnone⟩
    rw [Handled.perform_take, hnone]
  · intro selector node i pool' htake
    obtain ⟨hi, hnode, rfl⟩ := take?_eq_some_iff.mp htake
    refine ⟨?_, hi, ?_, Array.toList_eraseIdxIfInBounds⟩
    · rw [Handled.perform_take, htake]
    · rw [Array.getElem?_toList]
      exact hnode
  · intro hdef
    exact ⟨take?_best hdef, drain_bestBound s.pool hdef⟩

/-- A node with an id and a bound. -/
def bare (id : NodeId) (bound : Float) : Subproblem Unit Float :=
  ⟨id, none, 0, false, (), bound, negInf, none⟩

/-- Five nodes are given, and the first of them is taken. A position out of range takes nothing. -/
def fiveGiven : List (Call Unit Float) :=
  [.push (bare 2 1), .push (bare 3 5), .take fun _ => some 7, .push (bare 4 5),
    .take NodeOrder.depthFirst.selector, .push (bare 5 negInf), .push (bare 6 3)]

/-- Nodes 3 and 4 have the same bound, and 5 has none. -/
theorem performAll_priority_fiveGiven :
    let s := performAll fiveGiven
    s.taken.map Subproblem.id = [2] ∧ s.pool.size = 4 ∧ s.pool.totalAdded = 5 ∧
    s.pool.totalTaken = 1 ∧ s.pool.waiting.toList.map Subproblem.id = [3, 4, 5, 6] ∧
    (∀ node ∈ s.pool.waiting, isNaN node.upperBound = false) ∧
    StablySorts s.pool.waiting.toList (s.pool.drain NodeOrder.bestBound.selector) ∧
    (s.pool.drain NodeOrder.bestBound.selector).map Subproblem.id = [3, 4, 6, 5] := by
  have hdef : ∀ node ∈ (performAll fiveGiven).pool.waiting, isNaN node.upperBound = false := by
    decide +kernel
  obtain ⟨-, -, -, -, -, -, hbest⟩ := performAll_priority fiveGiven
  refine ⟨by decide +kernel, by decide +kernel, by decide +kernel, by decide +kernel,
    by decide +kernel, hdef, (hbest hdef).2, by decide +kernel⟩

end NodePool

end MixedInteger
