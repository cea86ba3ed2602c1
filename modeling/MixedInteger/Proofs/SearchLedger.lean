import MixedInteger.Proofs.SearchOptimum

/-!
# The books of a search

The pool, the tree, the ids, the counters and the trace of a search are kept at different moments of
an iteration and agree at its end: every node has an id and a record, and either waits or is in the
trace with its fate.

* `Search.Counts`: the counters;
* `Search.Filed`: which nodes wait, which have been taken, and how these are marked;
* `Search.Family`: the children of branched nodes;
* `visits_ledger`: the books agree wherever a run comes to.
-/

namespace MixedInteger

section Books

variable {R α : Type}

/-- The ids of the waiting nodes, in order. -/
def NodePool.ids (p : NodePool R α) : List NodeId := p.waiting.toList.map Subproblem.id

namespace Search

/-- The ids of the nodes taken, in order. -/
def takenIds (s : Search R α) : List NodeId := s.trace.toList.map Prod.fst

/-- The ids of the branched nodes, in order. -/
def branchedIds (s : Search R α) : List NodeId :=
  (s.trace.toList.filter fun entry => decide (entry.2 = .branched)).map Prod.fst

/-- Every counter is a number of nodes: of those taken, one for each fate, or of those created, the
root and two for each branched node. -/
structure Counts (s : Search R α) : Prop where
  iterations : s.tally.iterations = s.trace.size
  taken : s.pool.totalTaken = s.trace.size
  fates : s.trace.size = s.tally.prunedIntegral + s.tally.prunedInfeasible
    + s.tally.prunedByBound + s.tally.branched
  branched : s.branchedIds.length = s.tally.branched
  created : s.tally.nodesCreated = 1 + 2 * s.tally.branched
  recorded : s.tree.size = 1 + 2 * s.tally.branched
  added : s.pool.totalAdded = 1 + 2 * s.tally.branched
  issued : s.ids.issued = 1 + 2 * s.tally.branched
  waiting : s.pool.size + s.pool.totalTaken = s.pool.totalAdded

/-- The ids issued are those of the records. Each waits or has been taken, once, and those taken
have the marks of their fates. -/
structure Filed (s : Search R α) : Prop where
  indexed : s.tree.Indexed
  known : ∀ id : Nat, s.tree.contains id = true ↔ 1 ≤ id ∧ id ≤ s.ids.issued
  pooled : ∀ id, id ∈ s.pool.ids ↔ s.tree.contains id = true ∧ id ∉ s.takenIds
  pooledOnce : s.pool.ids.Nodup
  takenOnce : s.takenIds.Nodup
  takenKnown : ∀ id ∈ s.takenIds, s.tree.contains id = true
  marked : ∀ id fate, (id, fate) ∈ s.trace → ∃ n, s.tree.get? id = some n ∧ n.mark = fate.mark
  unmarked : ∀ id n, s.tree.get? id = some n → id ∉ s.takenIds → n.mark = .unmarked

/-! ## What an iteration enters -/

section Iteration

variable {s s' : Search R α} {node : Subproblem R α} {fate : Fate}
  {children : List (Subproblem R α)}

namespace Iterates

theorem takenIds (h : s.Iterates node fate children s') :
    s'.takenIds = s.takenIds ++ [node.id] := by
  rw [Search.takenIds, h.trace, Array.toList_push, List.map_append]
  rfl

/-- The counters that an iteration moves. -/
theorem counters (h : s.Iterates node fate children s') :
    s'.tally.iterations = s.tally.iterations + 1 ∧
    s'.tally.nodesCreated = s.tally.nodesCreated + children.length ∧
    s'.tally.branched = s.tally.branched + (if fate = .branched then 1 else 0) ∧
    s'.tally.prunedIntegral + s'.tally.prunedInfeasible + s'.tally.prunedByBound
        + s'.tally.branched
      = s.tally.prunedIntegral + s.tally.prunedInfeasible + s.tally.prunedByBound
        + s.tally.branched + 1 := by
  obtain ⟨generated, injected, updates, htally⟩ := h.tally
  rw [htally]
  refine ⟨?_, ?_, ?_, ?_⟩
  · cases fate <;> rfl
  · cases fate <;> rfl
  · cases fate <;> rfl
  · cases fate <;> simp only [Tally.record] <;> omega

theorem branchedIds (h : s.Iterates node fate children s') :
    s'.branchedIds = s.branchedIds ++ if fate = .branched then [node.id] else [] := by
  rw [Search.branchedIds, h.trace, Array.toList_push, List.filter_append, List.map_append]
  by_cases hfate : fate = .branched
  · simp [hfate, Search.branchedIds]
  · simp [hfate, Search.branchedIds]

theorem ids (h : s.Iterates node fate children s') :
    ∃ before after, s.pool.ids = before ++ node.id :: after ∧
      s'.pool.ids = before ++ after ++ children.map Subproblem.id := by
  obtain ⟨before, after, hwaiting, hleft⟩ := h.pool
  refine ⟨before.map Subproblem.id, after.map Subproblem.id, ?_, ?_⟩
  · rw [NodePool.ids, hwaiting, List.map_append, List.map_cons]
  · rw [NodePool.ids, hleft, List.map_append, List.map_append]

/-- A waiting node was waiting before or is one of the children. -/
theorem mem_waiting (h : s.Iterates node fate children s') {other : Subproblem R α}
    (hother : other ∈ s'.pool.waiting) : other ∈ s.pool.waiting ∨ other ∈ children := by
  obtain ⟨before, after, hwaiting, hleft⟩ := h.pool
  rw [← Array.mem_toList_iff] at hother ⊢
  rw [hleft, List.mem_append] at hother
  rw [hwaiting]
  rcases hother with hold | hnew
  · left
    rcases List.mem_append.mp hold with hb | ha
    · exact List.mem_append_left _ hb
    · exact List.mem_append_right _ (List.mem_cons_of_mem _ ha)
  · exact .inr hnew

/-- The node taken was waiting, with a record and no entry in the trace. -/
theorem node_pooled (h : s.Iterates node fate children s') : node ∈ s.pool.waiting := by
  obtain ⟨before, after, hwaiting, -⟩ := h.pool
  rw [← Array.mem_toList_iff, hwaiting]
  exact List.mem_append_right _ List.mem_cons_self

end Iterates

theorem mem_ids {pool : NodePool R α} (h : node ∈ pool.waiting) : node.id ∈ pool.ids :=
  List.mem_map_of_mem (Array.mem_toList_iff.mpr h)

theorem branchedIds_subset {id : NodeId} (h : id ∈ s.branchedIds) : id ∈ s.takenIds := by
  obtain ⟨entry, hentry, rfl⟩ := List.mem_map.mp h
  exact List.mem_map_of_mem (List.mem_filter.mp hentry).1

/-- The counters after an iteration. -/
theorem Counts.iterates (hs : s.Counts) (hindexed : s.tree.Indexed)
    (h : s.Iterates node fate children s')
    (hlength : children.length = if fate = .branched then 2 else 0)
    (hids : s'.ids.issued = s.ids.issued + children.length) : s'.Counts := by
  obtain ⟨hiterations, hcreated, hbranched, hfates⟩ := h.counters
  obtain ⟨before, after, hwaiting, hleft⟩ := h.pool
  have hsize : s'.trace.size = s.trace.size + 1 := by rw [h.trace, Array.size_push]
  have hpool : s.pool.size = before.length + (after.length + 1) := by
    rw [NodePool.size, ← Array.length_toList, hwaiting, List.length_append, List.length_cons]
  have hpool' : s'.pool.size = before.length + after.length + children.length := by
    rw [NodePool.size, ← Array.length_toList, hleft, List.length_append, List.length_append]
  have htree := (h.tree hindexed).size
  rw [List.length_map] at htree
  have hbranches := congrArg List.length h.branchedIds
  rw [List.length_append, apply_ite List.length, List.length_singleton, List.length_nil]
    at hbranches
  have hadded := h.added
  have htaken := h.taken
  have hbalance : children.length = 2 * if fate = .branched then 1 else 0 := by
    rw [hlength]
    split <;> rfl
  obtain ⟨iterations, taken, fates, branched, created, recorded, added, issued, waiting⟩ := hs
  constructor <;> omega

section Files

variable {id : NodeId}

/-- The node of an iteration has a record and is not in the trace. -/
theorem Filed.isOpen (hs : s.Filed) (h : s.Iterates node fate children s') :
    s.tree.contains node.id = true ∧ node.id ∉ s.takenIds :=
  (hs.pooled node.id).mp (mem_ids h.node_pooled)

/-- The children of an iteration have neither a record nor an entry in the trace before. -/
theorem Filed.isFresh (hs : s.Filed) (h : s.Iterates node fate children s')
    (hchild : id ∈ children.map Subproblem.id) :
    s.tree.contains id = false ∧ id ∉ s.takenIds := by
  have hfree := (h.tree hs.indexed).fresh id hchild
  have hnew : s.tree.contains id = false := by
    rw [← Bool.not_eq_true, hs.indexed.contains_iff, hfree]
    rintro ⟨n, hn⟩
    cases hn
  refine ⟨hnew, fun htaken => ?_⟩
  rw [hs.takenKnown id htaken] at hnew
  cases hnew

theorem Filed.not_child (hs : s.Filed) (h : s.Iterates node fate children s')
    (hknown : s.tree.contains id = true) : id ∉ children.map Subproblem.id := by
  intro hchild
  rw [(hs.isFresh h hchild).1] at hknown
  cases hknown

/-- The records of the other nodes stay as they are. -/
theorem Filed.get?_other (hs : s.Filed) (h : s.Iterates node fate children s')
    (hknown : s.tree.contains id = true) (hne : id ≠ node.id) :
    s'.tree.get? id = s.tree.get? id :=
  (h.tree hs.indexed).other id hne (hs.not_child h hknown)

/-- An iteration gives no recorded node another parent. -/
theorem Filed.parent?_iterates (hs : s.Filed) (h : s.Iterates node fate children s')
    (hknown : s.tree.contains id = true) : s'.tree.parent? id = s.tree.parent? id := by
  by_cases hid : id = node.id
  · subst hid
    obtain ⟨n, hn, hn', -⟩ := (h.tree hs.indexed).parent
    rw [SearchTree.parent?_eq hn, SearchTree.parent?_eq hn']
  · unfold SearchTree.parent?
    rw [hs.get?_other h hknown hid]

/-- The records of the nodes taken before stay as they are. -/
theorem Filed.get?_taken (hs : s.Filed) (h : s.Iterates node fate children s')
    (htaken : id ∈ s.takenIds) : s'.tree.get? id = s.tree.get? id := by
  apply hs.get?_other h (hs.takenKnown id htaken)
  rintro rfl
  exact (hs.isOpen h).2 htaken

/-- The ids that wait after an iteration are those that waited before, without that of its node,
and those of its children. -/
theorem Filed.mem_ids_iterates (hs : s.Filed) (h : s.Iterates node fate children s') :
    id ∈ s'.pool.ids ↔
      (id ∈ s.pool.ids ∧ id ≠ node.id) ∨ id ∈ children.map Subproblem.id := by
  obtain ⟨before, after, hids, hids'⟩ := h.ids
  have honce := hs.pooledOnce
  rw [hids, List.nodup_middle, List.nodup_cons, List.mem_append] at honce
  simp only [hids, hids', List.mem_append, List.mem_cons]
  constructor
  · rintro (hrest | hchild)
    · refine .inl ⟨hrest.imp_right .inr, ?_⟩
      rintro rfl
      exact honce.1 hrest
    · exact .inr hchild
  · rintro (⟨hb | heq | ha, hne⟩ | hchild)
    · exact .inl (.inl hb)
    · exact absurd heq hne
    · exact .inl (.inr ha)
    · exact .inr hchild

theorem Filed.nodup_ids_iterates (hs : s.Filed) (h : s.Iterates node fate children s')
    (honce : (children.map Subproblem.id).Nodup) : s'.pool.ids.Nodup := by
  obtain ⟨before, after, hids, hids'⟩ := h.ids
  have hbefore := hs.pooledOnce
  rw [hids, List.nodup_middle, List.nodup_cons] at hbefore
  rw [hids', List.nodup_append]
  refine ⟨hbefore.2, honce, ?_⟩
  rintro a ha b hb rfl
  have hmem : a ∈ s.pool.ids := by
    rw [hids, List.mem_append, List.mem_cons]
    exact (List.mem_append.mp ha).imp_right .inr
  exact hs.not_child h ((hs.pooled a).mp hmem).1 hb

/-- The files after an iteration, whose children have the ids that were issued for them. -/
theorem Filed.iterates (hs : s.Filed) (h : s.Iterates node fate children s')
    (hnew : ∀ id : Nat,
      id ∈ children.map Subproblem.id ↔ s.ids.issued < id ∧ id ≤ s'.ids.issued)
    (hmono : s.ids.issued ≤ s'.ids.issued) (honce : (children.map Subproblem.id).Nodup) :
    s'.Filed := by
  obtain ⟨hnode, hopen⟩ := hs.isOpen h
  have hgrows := h.tree hs.indexed
  have hcontains (k : NodeId) := hgrows.contains_iff hs.indexed (k := k)
  constructor
  case indexed => exact hgrows.indexed
  case known =>
    intro id
    rw [hcontains, hs.known, hnew]
    omega
  case pooled =>
    intro id
    rw [hs.mem_ids_iterates h, hs.pooled, hcontains, h.takenIds, List.mem_append,
      List.mem_singleton, not_or]
    constructor
    · rintro (⟨⟨hknown, hfree⟩, hne⟩ | hchild)
      · exact ⟨.inl hknown, hfree, hne⟩
      · refine ⟨.inr hchild, (hs.isFresh h hchild).2, ?_⟩
        rintro rfl
        exact hs.not_child h hnode hchild
    · rintro ⟨hknown | hchild, hfree, hne⟩
      · exact .inl ⟨⟨hknown, hfree⟩, hne⟩
      · exact .inr hchild
  case pooledOnce => exact hs.nodup_ids_iterates h honce
  case takenOnce =>
    rw [h.takenIds, List.nodup_append]
    refine ⟨hs.takenOnce, List.nodup_singleton _, ?_⟩
    rintro a ha b hb rfl
    rw [List.mem_singleton.mp hb] at ha
    exact hopen ha
  case takenKnown =>
    intro id hid
    rw [h.takenIds, List.mem_append, List.mem_singleton] at hid
    rw [hcontains]
    rcases hid with hold | rfl
    · exact .inl (hs.takenKnown id hold)
    · exact .inl hnode
  case marked =>
    intro id fate' hentry
    rw [h.trace, Array.mem_push] at hentry
    rcases hentry with hold | hlast
    · have htaken : id ∈ s.takenIds :=
        List.mem_map_of_mem (f := Prod.fst) (Array.mem_toList_iff.mpr hold)
      rw [hs.get?_taken h htaken]
      exact hs.marked id fate' hold
    · cases hlast
      obtain ⟨p, -, hp, -⟩ := hgrows.parent
      exact ⟨_, hp, rfl⟩
  case unmarked =>
    intro id n hget hfree
    rw [h.takenIds, List.mem_append, List.mem_singleton, not_or] at hfree
    by_cases hchild : id ∈ children.map Subproblem.id
    · obtain ⟨p, -, -, hchildren⟩ := hgrows.parent
      rw [hchildren id hchild] at hget
      cases hget
      rfl
    · rw [hgrows.other id hfree.2 hchild] at hget
      exact hs.unmarked id n hget hfree.1

end Files

/-- The record of a node that goes on waiting stays as it is. -/
theorem Filed.get?_waiting (hs : s.Filed) (hs' : s'.Filed) (h : s.Iterates node fate children s')
    {other : Subproblem R α} (hold : other ∈ s.pool.waiting) (hother : other ∈ s'.pool.waiting) :
    s'.tree.get? other.id = s.tree.get? other.id := by
  have hfree := ((hs'.pooled other.id).mp (mem_ids hother)).2
  rw [h.takenIds, List.mem_append, List.mem_singleton, not_or] at hfree
  exact hs.get?_other h ((hs.pooled other.id).mp (mem_ids hold)).1 hfree.2

end Iteration

end Search

end Books

variable {R α : Type} [Scalar α] [Relaxation R α]

namespace Search

/-- The node branched on pick number `k`, counted from zero, has the children `2 (k + 1)`, with the
column at most the floor of its value, and `2 (k + 1) + 1`, with the column at least the ceiling.
Other nodes have none. Waiting nodes know their parents and depths. -/
structure Family (s : Search R α) (picks : List (Violation α)) : Prop where
  split : ∀ k id, s.branchedIds[k]? = some id →
    ∃ n, s.tree.get? id = some n ∧ n.children = [2 * (k + 1), 2 * (k + 1) + 1]
  childless : ∀ id n, s.tree.get? id = some n → id ∉ s.branchedIds → n.children = []
  picked : picks.length = s.tally.branched
  sides : ∀ node ∈ s.pool.waiting, ∀ k pick, picks[k]? = some pick →
    (node.id = 2 * (k + 1) →
      node.change = some ⟨pick.column, pick.value, .upper, Scalar.floor pick.value⟩) ∧
    (node.id = 2 * (k + 1) + 1 →
      node.change = some ⟨pick.column, pick.value, .lower, Scalar.ceil pick.value⟩)
  tightened : ∀ node ∈ s.pool.waiting, ∀ change, node.change = some change →
    ∃ before after, change.apply before = .ok after ∧ node.model = (Relaxation.solve after).2
  records : ∀ node ∈ s.pool.waiting,
    ∃ n, s.tree.get? node.id = some n ∧ n.parent = node.parent ∧ n.depth = node.depth

/-- All books agree. -/
structure Ledger (s : Search R α) (picks : List (Violation α)) : Prop where
  counts : s.Counts
  filed : s.Filed
  family : s.Family picks

/-- An element of a list with one more at its end is an old one or the last. -/
theorem getElem?_concat {β : Type} {l : List β} {a b : β} {k : Nat}
    (h : (l ++ [a])[k]? = some b) : l[k]? = some b ∨ (l.length = k ∧ b = a) := by
  rw [List.getElem?_append] at h
  split at h
  · exact .inl h
  · rename_i hge
    obtain ⟨hlt, heq⟩ := List.getElem?_eq_some_iff.mp h
    rw [List.length_singleton] at hlt
    rw [List.getElem_singleton] at heq
    exact .inr ⟨by omega, heq.symm⟩

section Generations

variable {s s' : Search R α} {node first second : Subproblem R α} {fate : Fate}
  {picks : List (Violation α)} {pick : Violation α}

/-- A pruned node has no children. -/
theorem Family.pruned (hs : s.Family picks) (hfiled : s.Filed) (hfiled' : s'.Filed)
    (hfate : fate ≠ .branched) (h : s.Iterates node fate [] s') : s'.Family picks := by
  have hbranched : s'.branchedIds = s.branchedIds := by
    rw [h.branchedIds, if_neg hfate, List.append_nil]
  have hwaiting {other : Subproblem R α} (hother : other ∈ s'.pool.waiting) :
      other ∈ s.pool.waiting :=
    (h.mem_waiting hother).resolve_right List.not_mem_nil
  constructor
  case split =>
    intro k id hk
    rw [hbranched] at hk
    rw [hfiled.get?_taken h (branchedIds_subset (List.mem_of_getElem? hk))]
    exact hs.split k id hk
  case childless =>
    intro id n hget hnot
    rw [hbranched] at hnot
    have hgrows := h.tree hfiled.indexed
    by_cases hid : id = node.id
    · subst hid
      obtain ⟨p, hp, hp', -⟩ := hgrows.parent
      rw [hp'] at hget
      cases hget
      simpa using hs.childless _ p hp hnot
    · rw [hgrows.other id hid List.not_mem_nil] at hget
      exact hs.childless id n hget hnot
  case picked =>
    rw [h.counters.2.2.1, if_neg hfate]
    exact hs.picked
  case sides =>
    intro other hother
    exact hs.sides other (hwaiting hother)
  case tightened =>
    intro other hother
    exact hs.tightened other (hwaiting hother)
  case records =>
    intro other hother
    rw [hfiled.get?_waiting hfiled' h (hwaiting hother) hother]
    exact hs.records other (hwaiting hother)

/-- With one pick more, each is an old one or the last. -/
theorem Family.pick_concat (hs : s.Family picks) {k : Nat} {pick' : Violation α}
    (hk : (picks ++ [pick])[k]? = some pick') :
    (k < s.tally.branched ∧ picks[k]? = some pick') ∨ (k = s.tally.branched ∧ pick' = pick) := by
  rw [← hs.picked]
  rcases getElem?_concat hk with hold | ⟨rfl, rfl⟩
  · exact .inl ⟨(List.getElem?_eq_some_iff.mp hold).1, hold⟩
  · exact .inr ⟨rfl, rfl⟩

/-- A node that waits keeps its side: its id was issued before those of the next children. -/
theorem Family.sides_waiting (hs : s.Family picks) (hcounts : s.Counts) (hfiled : s.Filed)
    {other : Subproblem R α} (hold : other ∈ s.pool.waiting) {k : Nat} {pick' : Violation α}
    (hk : (k < s.tally.branched ∧ picks[k]? = some pick') ∨
      (k = s.tally.branched ∧ pick' = pick)) :
    (other.id = 2 * (k + 1) → other.change
      = some ⟨pick'.column, pick'.value, .upper, Scalar.floor pick'.value⟩) ∧
    (other.id = 2 * (k + 1) + 1 → other.change
      = some ⟨pick'.column, pick'.value, .lower, Scalar.ceil pick'.value⟩) := by
  rcases hk with ⟨-, hk⟩ | ⟨rfl, -⟩
  · exact hs.sides other hold k pick' hk
  · have hissued {i : Nat} (hi : other.id = i) : i ≤ 1 + 2 * s.tally.branched := by
      have hknown := ((hfiled.pooled other.id).mp (mem_ids hold)).1
      rw [hi] at hknown
      have hle := ((hfiled.known i).mp hknown).2
      rwa [hcounts.issued] at hle
    constructor
    · intro hid
      have hle := hissued hid
      omega
    · intro hid
      have hle := hissued hid
      omega

/-- The next children are on the sides of the last pick. -/
theorem sides_children {b : Nat}
    (hfirst : first.ChildOf node (2 * (b + 1)) (.down pick.column pick.value))
    (hsecond : second.ChildOf node (2 * (b + 1) + 1) (.up pick.column pick.value))
    {other : Subproblem R α} (hnew : other ∈ [first, second]) {k : Nat} {pick' : Violation α}
    (hk : (k < b ∧ picks[k]? = some pick') ∨ (k = b ∧ pick' = pick)) :
    (other.id = 2 * (k + 1) → other.change
      = some ⟨pick'.column, pick'.value, .upper, Scalar.floor pick'.value⟩) ∧
    (other.id = 2 * (k + 1) + 1 → other.change
      = some ⟨pick'.column, pick'.value, .lower, Scalar.ceil pick'.value⟩) := by
  rcases List.mem_pair.mp hnew with rfl | rfl
  · constructor
    · intro hid
      have heq : 2 * (b + 1) = 2 * (k + 1) := hfirst.id.symm.trans hid
      obtain ⟨-, rfl⟩ := hk.resolve_left (by omega)
      exact hfirst.change
    · intro hid
      have heq : 2 * (b + 1) = 2 * (k + 1) + 1 := hfirst.id.symm.trans hid
      omega
  · constructor
    · intro hid
      have heq : 2 * (b + 1) + 1 = 2 * (k + 1) := hsecond.id.symm.trans hid
      omega
    · intro hid
      have heq : 2 * (b + 1) + 1 = 2 * (k + 1) + 1 := hsecond.id.symm.trans hid
      obtain ⟨-, rfl⟩ := hk.resolve_left (by omega)
      exact hsecond.change

/-- A branched node has two children, of the next two ids. -/
theorem Family.branched (hs : s.Family picks) (hcounts : s.Counts) (hfiled : s.Filed)
    (hfiled' : s'.Filed)
    (hfirst : first.ChildOf node (2 * (s.tally.branched + 1)) (.down pick.column pick.value))
    (hsecond : second.ChildOf node (2 * (s.tally.branched + 1) + 1) (.up pick.column pick.value))
    (h : s.Iterates node .branched [first, second] s') : s'.Family (picks ++ [pick]) := by
  have hbranched : s'.branchedIds = s.branchedIds ++ [node.id] := by
    rw [h.branchedIds, if_pos rfl]
  have hgrows := h.tree hfiled.indexed
  rw [List.map_cons, List.map_singleton, hfirst.id, hsecond.id] at hgrows
  obtain ⟨p, hp, hp', hchildren⟩ := hgrows.parent
  have hnode : node.id ∉ s.branchedIds := fun hmem =>
    (hfiled.isOpen h).2 (branchedIds_subset hmem)
  constructor
  case split =>
    intro k id hk
    rw [hbranched] at hk
    rcases getElem?_concat hk with hold | ⟨rfl, rfl⟩
    · rw [hfiled.get?_taken h (branchedIds_subset (List.mem_of_getElem? hold))]
      exact hs.split k id hold
    · refine ⟨_, hp', ?_⟩
      rw [hs.childless node.id p hp hnode, hcounts.branched]
      rfl
  case childless =>
    intro id n hget hnot
    rw [hbranched, List.mem_append, List.mem_singleton, not_or] at hnot
    by_cases hchild : id ∈ [2 * (s.tally.branched + 1), 2 * (s.tally.branched + 1) + 1]
    · rw [hchildren id hchild] at hget
      cases hget
      rfl
    · rw [hgrows.other id hnot.2 hchild] at hget
      exact hs.childless id n hget hnot.1
  case picked =>
    rw [h.counters.2.2.1, if_pos rfl, List.length_append, hs.picked, List.length_singleton]
  case sides =>
    intro other hother k pick' hk
    rcases h.mem_waiting hother with hold | hnew
    · exact hs.sides_waiting hcounts hfiled hold (hs.pick_concat hk)
    · exact sides_children hfirst hsecond hnew (hs.pick_concat hk)
  case tightened =>
    intro other hother change hchange
    rcases h.mem_waiting hother with hold | hnew
    · exact hs.tightened other hold change hchange
    · rcases List.mem_pair.mp hnew with rfl | rfl
      · cases hfirst.change.symm.trans hchange
        exact hfirst.model
      · cases hsecond.change.symm.trans hchange
        exact hsecond.model
  case records =>
    intro other hother
    rcases h.mem_waiting hother with hold | hnew
    · rw [hfiled.get?_waiting hfiled' h hold hother]
      exact hs.records other hold
    · obtain ⟨n, hn, -, hdepth⟩ := hs.records node h.node_pooled
      cases hp.symm.trans hn
      rcases List.mem_pair.mp hnew with rfl | rfl
      · rw [hfirst.id, hfirst.parent, hfirst.depth, ← hdepth]
        exact ⟨_, hchildren _ (List.mem_pair.mpr (.inl rfl)), rfl, rfl⟩
      · rw [hsecond.id, hsecond.parent, hsecond.depth, ← hdepth]
        exact ⟨_, hchildren _ (List.mem_pair.mpr (.inr rfl)), rfl, rfl⟩

end Generations

/-! ## Runs -/

omit [Scalar α] [Relaxation R α] in
/-- While the books agree, the next two ids are `2 k` and `2 k + 1` for branched node number `k`. -/
theorem Counts.nextEven {s : Search R α} (hs : s.Counts) :
    s.ids.next = 2 * (s.tally.branched + 1) ∧ s.ids.nextEven = 2 * (s.tally.branched + 1) := by
  have hissued := hs.issued
  unfold NodeIds.issued at hissued
  unfold NodeIds.nextEven
  constructor
  · omega
  · split <;> omega

section Initial

variable {settings : Settings α} {root : R}

omit [Relaxation R α] in
/-- The tree of a search that has not begun has the record of its root only. -/
theorem get?_initial (k : NodeId) : (initial settings root).tree.get? k
    = if k = 1 then some (TreeNode.root 1) else none :=
  (SearchTree.indexed_ofRoot 1).2 k

omit [Relaxation R α] in
theorem eq_root_of_initial {id : NodeId} {n : TreeNode}
    (h : (initial settings root).tree.get? id = some n) : n = TreeNode.root 1 := by
  rw [get?_initial] at h
  split at h
  · exact (Option.some.inj h).symm
  · cases h

omit [Relaxation R α] in
theorem filed_initial : (initial settings root).Filed := by
  have hindexed : (initial settings root).tree.Indexed := (SearchTree.indexed_ofRoot 1).1
  have hknown (id : NodeId) : (initial settings root).tree.contains id = true ↔ id = 1 := by
    rw [hindexed.contains_iff, get?_initial]
    by_cases hid : id = 1
    · simp [hid]
    · simp [hid]
  have hids : (initial settings root).pool.ids = [1] := rfl
  have htaken : (initial settings root).takenIds = [] := rfl
  constructor
  case indexed => exact hindexed
  case known =>
    intro id
    rw [hknown]
    change id = 1 ↔ 1 ≤ id ∧ id ≤ 1
    omega
  case pooled =>
    intro id
    rw [hids, hknown, htaken, List.mem_singleton]
    simp
  case pooledOnce => exact List.nodup_singleton 1
  case takenOnce => exact List.nodup_nil
  case takenKnown =>
    intro id hid
    cases hid
  case marked =>
    intro id fate hentry
    simp [initial] at hentry
  case unmarked =>
    intro id n hn _
    rw [eq_root_of_initial hn]
    rfl

theorem family_initial : (initial settings root).Family [] := by
  have hwaiting {node : Subproblem R α} (hnode : node ∈ (initial settings root).pool.waiting) :
      node = Subproblem.root 1 root := by
    simpa [initial, NodePool.push, NodePool.empty] using hnode
  constructor
  case split =>
    intro k id hk
    cases hk
  case childless =>
    intro id n hn _
    rw [eq_root_of_initial hn]
    rfl
  case picked => rfl
  case sides =>
    intro node _ k pick hk
    cases hk
  case tightened =>
    intro node hnode change hchange
    rw [hwaiting hnode] at hchange
    cases hchange
  case records =>
    intro node hnode
    rw [hwaiting hnode]
    exact ⟨TreeNode.root 1, get?_initial 1, rfl, rfl⟩

/-- The books of a search that has not begun. -/
theorem ledger_initial : (initial settings root).Ledger [] :=
  ⟨⟨rfl, rfl, rfl, rfl, rfl, rfl, rfl, rfl, rfl⟩, filed_initial, family_initial⟩

end Initial

/-- An iteration keeps the books. -/
theorem Ledger.advance {plan : Plan α} {s : Search R α} {picks : List (Violation α)}
    {notices : List (Notice α)} {p : Progress R α} (hs : s.Ledger picks)
    (h : s.advance plan = (notices, .ok p)) :
    p.search.Ledger (picks ++ (s.pick? plan).toList) := by
  obtain ⟨hcounts, hfiled, hfamily⟩ := hs
  rcases advance_cases h with ⟨hsame, hpick⟩ | ⟨node, fate, hfate, hpick, hids, hstep⟩ |
    ⟨node, pick, first, second, hpick, hids, hfirst, hsecond, hstep⟩
  · rw [hsame, hpick, Option.toList_none, List.append_nil]
    exact ⟨hcounts, hfiled, hfamily⟩
  · rw [hpick, Option.toList_none, List.append_nil]
    have hfiled' : p.search.Filed := by
      apply hfiled.iterates hstep
      · intro id
        rw [hids, List.map_nil]
        simp
      · exact Nat.le_of_eq (congrArg NodeIds.issued hids).symm
      · exact List.nodup_nil
    refine ⟨?_, hfiled', hfamily.pruned hfiled hfiled' hfate hstep⟩
    apply hcounts.iterates hfiled.indexed hstep
    · rw [if_neg hfate, List.length_nil]
    · rw [hids, List.length_nil, Nat.add_zero]
  · obtain ⟨hnext, heven⟩ := hcounts.nextEven
    rw [heven] at hids hfirst hsecond
    have hissued : p.search.ids.issued = s.ids.issued + 2 := by
      rw [hids, NodeIds.issued, NodeIds.issued, hnext]
      dsimp only
      omega
    have hfiled' : p.search.Filed := by
      apply hfiled.iterates hstep
      · intro id
        rw [List.map_cons, List.map_singleton, hfirst.id, hsecond.id, List.mem_pair, hissued,
          NodeIds.issued, hnext]
        omega
      · omega
      · rw [List.map_cons, List.map_singleton, hfirst.id, hsecond.id]
        simp
    rw [hpick, Option.toList_some]
    refine ⟨?_, hfiled', hfamily.branched hcounts hfiled hfiled' hfirst hsecond hstep⟩
    apply hcounts.iterates hfiled.indexed hstep
    · rw [if_pos rfl]
      rfl
    · exact hissued

/-- The books agree wherever a run comes to. -/
theorem Visits.ledger {plan : Plan α} {root : R} {s : Search R α} {picks : List (Violation α)}
    (h : Visits plan root picks s) : s.Ledger picks := by
  induction h with
  | start => exact ledger_initial
  | next _ _ hadvance ih => exact ih.advance hadvance

/-- A node has two children exactly if it was branched. -/
theorem Ledger.two_children {s : Search R α} {picks : List (Violation α)} (hs : s.Ledger picks)
    {id : NodeId} {n : TreeNode} (hn : s.tree.get? id = some n) :
    n.children.length = 2 ↔ (id, Fate.branched) ∈ s.trace := by
  have hmem : id ∈ s.branchedIds ↔ (id, Fate.branched) ∈ s.trace := by
    simp [branchedIds]
  rw [← hmem]
  constructor
  · intro htwo
    by_contra hnot
    rw [hs.family.childless id n hn hnot] at htwo
    cases htwo
  · intro hin
    obtain ⟨k, hk⟩ := List.getElem?_of_mem hin
    obtain ⟨n', hn', hchildren⟩ := hs.family.split k id hk
    cases hn.symm.trans hn'
    rw [hchildren]
    rfl

/-- With no node left, every node created has been taken. -/
theorem Ledger.iterations_of_isEmpty {s : Search R α} {picks : List (Violation α)}
    (hs : s.Ledger picks) (hempty : s.pool.isEmpty = true) :
    s.tally.iterations = 2 * s.tally.branched + 1 := by
  have hsize : s.pool.size = 0 := by
    simpa [NodePool.isEmpty, NodePool.size] using hempty
  have hiterations := hs.counts.iterations
  have htaken := hs.counts.taken
  have hadded := hs.counts.added
  have hwaiting := hs.counts.waiting
  omega

end Search

/-- The books of a run agree at the head of every iteration and at its end, whatever the oracle
answers and whatever it computes with. If no node is left, as many have been taken as were created:
the root and two for each branched node. The result of the run is read off such books. -/
theorem visits_ledger (plan : Plan α) (root : R) :
    (∀ picks s, Search.Visits plan root picks s → s.Ledger picks ∧
      (∀ id n, s.tree.get? id = some n →
        (n.children.length = 2 ↔ (id, Fate.branched) ∈ s.trace)) ∧
      (s.pool.isEmpty = true → s.tally.iterations = 2 * s.tally.branched + 1)) ∧
    ∀ (L : Type) [Link L] (around : Surroundings L) (telemetry : Telemetry L) (sol : Solution α),
      (branchAndCut plan around telemetry root).result = .ok sol →
      ∃ picks s, Search.Visits plan root picks s ∧ sol = Solution.ofSearch s sol.status := by
  constructor
  · intro picks s hvisits
    have hs := hvisits.ledger
    exact ⟨hs, fun id n hn => hs.two_children hn, hs.iterations_of_isEmpty⟩
  · intro L _ around telemetry sol hrun
    exact branchAndCut_visits hrun

/-- Branching at `5/2` leaves one child that is integral and one that is infeasible. -/
theorem visits_ledger_capped : ∃ (sol : Solution Exact) (picks : List (Violation Exact))
    (s : Search OneColumn Exact),
    (branchAndCut ⟨plainSettings, CutPool.mostRecent⟩ .quiet Telemetry.disabled
      OneColumn.capped).result = .ok sol ∧
    sol.trace = #[(1, .branched), (2, .prunedIntegral), (3, .prunedInfeasible)] ∧
    sol.tree = s.tree ∧ sol.trace = s.trace ∧ sol.tally = s.tally ∧ s.Ledger picks := by
  have hrun : (branchAndCut ⟨plainSettings, CutPool.mostRecent⟩ .quiet Telemetry.disabled
      OneColumn.capped).result.map Solution.trace
      = .ok #[(1, .branched), (2, .prunedIntegral), (3, .prunedInfeasible)] := by
    cbv
  obtain ⟨sol, hsol, htrace⟩ := exists_ok_of_map hrun
  obtain ⟨hledger, hresult⟩ := visits_ledger (α := Exact) ⟨plainSettings, CutPool.mostRecent⟩
    OneColumn.capped
  obtain ⟨picks, s, hvisits, hread⟩ := hresult _ _ _ sol hsol
  refine ⟨sol, picks, s, hsol, htrace, ?_, ?_, ?_, (hledger picks s hvisits).1⟩
  all_goals rw [hread]; rfl

end MixedInteger
