import MixedInteger.Proofs.NodeDisposal

/-!
# Taking the node that has waited longest

The order named depth-first takes the node at the front of the pool, and children wait at its end.
So nodes are taken in the order of their ids, which is by levels: a node is never taken before one
of smaller depth.

* `SearchTree.depth?`: the depth of a recorded node;
* `Search.Layered`: depths grow with ids, and the nodes that wait span at most two levels;
* `Search.Queued`: the ids taken and the ids that wait are consecutive;
* `Search.Queued.iterates`, `Search.Visits.queued`: an iteration and a whole run keep this;
* `depthFirst_consecutive`: what a run shows of it.
-/

namespace MixedInteger

/-! ## Depths -/

namespace SearchTree

variable {t t' : SearchTree} {id : NodeId} {children : List NodeId} {m : Mark}

/-- The depth of a node, if the tree has a record of it. -/
def depth? (t : SearchTree) (id : NodeId) : Option Nat := (t.get? id).map TreeNode.depth

theorem Indexed.contains_of_depth? (ht : t.Indexed) {d : Nat} (hd : t.depth? id = some d) :
    t.contains id = true := by
  obtain ⟨n, hn, -⟩ := Option.map_eq_some_iff.mp hd
  exact ht.contains_iff.mpr ⟨n, hn⟩

theorem Indexed.exists_depth? (ht : t.Indexed) (h : t.contains id = true) :
    ∃ d, t.depth? id = some d := by
  obtain ⟨n, hn⟩ := ht.contains_iff.mp h
  exact ⟨n.depth, by rw [depth?, hn]; rfl⟩

/-- New children are one level below their parent, and no other depth changes. -/
theorem Grows.depth?_eq (h : t.Grows id children m t') {d : Nat} (hd : t.depth? id = some d)
    (k : NodeId) : t'.depth? k = if k ∈ children then some (d + 1) else t.depth? k := by
  obtain ⟨p, hp, hp', hchildren⟩ := h.parent
  have hdepth : p.depth = d := by
    rw [depth?, hp] at hd
    exact Option.some.inj hd
  unfold depth?
  by_cases hmem : k ∈ children
  · rw [if_pos hmem, hchildren k hmem, ← hdepth]
    rfl
  · rw [if_neg hmem]
    by_cases hk : k = id
    · rw [hk, hp, hp']
      rfl
    · rw [h.other k hk hmem]

end SearchTree

/-! ## The front of the pool -/

section Front

variable {R α : Type}

theorem NodePool.length_ids (pool : NodePool R α) : pool.ids.length = pool.size := by
  simp [ids, size]

variable [Scalar α]

theorem NodePool.take?_depthFirst {pool pool' : NodePool R α} {node : Subproblem R α} {i : Nat}
    (h : pool.take? NodeOrder.depthFirst.selector = some ((node, i), pool')) :
    pool.ids.head? = some node.id := by
  obtain ⟨hi, hnode, -⟩ := take?_eq_some_iff.mp h
  simp only [NodeOrder.selector] at hi
  split at hi
  · cases hi
  · cases hi
    rw [ids, List.head?_map, List.head?_eq_getElem?, Array.getElem?_toList, hnode]
    rfl

end Front

namespace Search

section Books

variable {R α : Type} {s s' : Search R α} {node : Subproblem R α} {fate : Fate}
  {children : List (Subproblem R α)}

/-- Nodes are recorded level by level, and those that wait are at most one level above the deepest
records. -/
structure Layered (s : Search R α) : Prop where
  sorted : ∀ {id id' d d' : Nat}, id ≤ id' → s.tree.depth? id = some d →
    s.tree.depth? id' = some d' → d ≤ d'
  band : ∀ {id id' d d' : Nat}, id' ∈ s.pool.ids → s.tree.depth? id = some d →
    s.tree.depth? id' = some d' → d ≤ d' + 1

/-- The ids taken are the first ones, and those that wait come right after them. -/
structure Queued (s : Search R α) : Prop where
  taken : s.takenIds = List.range' 1 s.trace.size
  waiting : s.pool.ids = List.range' (s.trace.size + 1) s.pool.size
  layered : s.Layered

/-- Nodes taken and nodes waiting are all that were issued. -/
theorem Counts.issued_eq (hs : s.Counts) : s.trace.size + s.pool.size = s.ids.issued := by
  have htaken := hs.taken
  have hadded := hs.added
  have hissued := hs.issued
  have hwaiting := hs.waiting
  omega

/-- The levels after an iteration. The children are one level below a node that was waiting, so
they are as deep as any node and deeper than all that come before it. -/
theorem Layered.iterates (hs : s.Layered) (hfiled : s.Filed)
    (h : s.Iterates node fate children s')
    (hnew : ∀ id ∈ children.map Subproblem.id, s.ids.issued < id)
    (hfirst : ∀ id ∈ s.pool.ids, node.id ≤ id) : s'.Layered := by
  have hnode := mem_ids h.node_pooled
  obtain ⟨d₀, hd₀⟩ := hfiled.indexed.exists_depth? (hfiled.isOpen h).1
  have hdepth := (h.tree hfiled.indexed).depth?_eq hd₀
  have hold {id d : Nat} (hd : s.tree.depth? id = some d) : id ≤ s.ids.issued :=
    ((hfiled.known id).mp (hfiled.indexed.contains_of_depth? hd)).2
  constructor
  case sorted =>
    intro id id' d d' hle hd hd'
    rw [hdepth] at hd hd'
    split at hd
    · rename_i hchild
      split at hd'
      · cases hd
        cases hd'
        exact le_rfl
      · have hlt := hnew id hchild
        have hle' := hold hd'
        omega
    · split at hd'
      · cases hd'
        exact hs.band hnode hd hd₀
      · exact hs.sorted hle hd hd'
  case band =>
    intro id id' d d' hwaits hd hd'
    rw [hdepth] at hd hd'
    -- Every node, old or new, is at most one level below the node taken.
    have hbound : d ≤ d₀ + 1 := by
      split at hd
      · cases hd
        exact le_rfl
      · exact hs.band hnode hd hd₀
    rcases (hfiled.mem_ids_iterates h).mp hwaits with ⟨hwaiting, -⟩ | hchild
    · split at hd'
      · cases hd'
        omega
      · have hle := hs.sorted (hfirst id' hwaiting) hd₀ hd'
        omega
    · rw [if_pos hchild] at hd'
      cases hd'
      omega

/-- An iteration that takes the front of the queue, with children whose ids come next. -/
theorem Queued.iterates (hs : s.Queued) (hcounts : s.Counts) (hfiled : s.Filed)
    (h : s.Iterates node fate children s') (hfront : s.pool.ids.head? = some node.id)
    (hids : children.map Subproblem.id = List.range' (s.ids.issued + 1) children.length) :
    s'.Queued := by
  have hissued := hcounts.issued_eq
  have htrace : s'.trace.size = s.trace.size + 1 := by rw [h.trace, Array.size_push]
  obtain ⟨before, after, hpool, hpool'⟩ := h.ids
  -- Ids wait once, so nothing stands before the id at the front.
  have hbefore : before = [] := by
    have honce := hfiled.pooledOnce
    cases before with
    | nil => rfl
    | cons id rest =>
      rw [hpool] at honce hfront
      cases hfront
      simp at honce
  rw [hbefore, List.nil_append] at hpool hpool'
  have hsize : s.pool.size = after.length + 1 := by
    rw [← s.pool.length_ids, hpool, List.length_cons]
  have hwaiting := hs.waiting
  rw [hpool, hsize, List.range'_succ] at hwaiting
  obtain ⟨hid, hafter⟩ := List.cons.inj hwaiting
  constructor
  case taken =>
    rw [h.takenIds, hs.taken, hid, htrace, List.range'_1_concat, Nat.add_comm 1]
  case waiting =>
    have hsize' : s'.pool.size = after.length + children.length := by
      rw [← s'.pool.length_ids, hpool', List.length_append, List.length_map]
    have hnext : s.ids.issued + 1 = s.trace.size + 1 + 1 + after.length := by omega
    rw [hpool', hafter, hids, hnext, htrace, hsize', List.range'_append_1]
  case layered =>
    apply hs.layered.iterates hfiled h
    · intro id hchild
      rw [hids, List.mem_range'_1] at hchild
      omega
    · intro id hmem
      rw [hs.waiting, List.mem_range'_1] at hmem
      rw [hid]
      exact hmem.1

end Books

/-! ## Runs -/

variable {R α : Type} [Scalar α] [Relaxation R α] {plan : Plan α} {root : R}

omit [Relaxation R α] in
theorem queued_initial (settings : Settings α) (root : R) : (initial settings root).Queued := by
  have hroot {id d : Nat} (hd : (initial settings root).tree.depth? id = some d) : d = 0 := by
    obtain ⟨n, hn, rfl⟩ := Option.map_eq_some_iff.mp hd
    rw [eq_root_of_initial hn]
    rfl
  refine ⟨rfl, rfl, ⟨?_, ?_⟩⟩
  · intro id id' d d' _ hd _
    rw [hroot hd]
    exact Nat.zero_le d'
  · intro id id' d d' _ hd _
    rw [hroot hd]
    exact Nat.zero_le (d' + 1)

section Advance

variable {s : Search R α} {picks : List (Violation α)} {notices : List (Notice α)}
  {p : Progress R α}

/-- The node that the next entry of the trace is about stands at the front. -/
theorem advance_front (horder : plan.settings.nodeOrder = .depthFirst)
    (hwaits : s.pool.isEmpty = false) (h : s.advance plan = (notices, .ok p)) {id : NodeId}
    {fate : Fate} (htrace : p.search.trace = s.trace.push (id, fate)) :
    s.pool.ids.head? = some id := by
  obtain ⟨node, k, pool, fate', children, htake, -, hstep⟩ := advance_disposes hwaits h
  rw [hstep.trace, Array.push_eq_push, Prod.mk.injEq] at htrace
  rw [horder] at htake
  rw [NodePool.take?_depthFirst htake, htrace.1.1]

/-- An iteration takes the front of the queue and puts two nodes at its end, or none. -/
theorem Queued.advance (hs : s.Queued) (hledger : s.Ledger picks)
    (horder : plan.settings.nodeOrder = .depthFirst) (hwaits : s.pool.isEmpty = false)
    (h : s.advance plan = (notices, .ok p)) : p.search.Queued := by
  obtain ⟨hcounts, hfiled, -⟩ := hledger
  rcases advance_cases h with ⟨hsame, -⟩ | ⟨node, fate, -, -, -, hstep⟩ |
    ⟨node, pick, first, second, -, -, hfirst, hsecond, hstep⟩
  · rw [hsame]
    exact hs
  · exact hs.iterates hcounts hfiled hstep (advance_front horder hwaits h hstep.trace) rfl
  · apply hs.iterates hcounts hfiled hstep (advance_front horder hwaits h hstep.trace)
    have hnext : s.ids.nextEven = s.ids.issued + 1 := by
      rw [hcounts.nextEven.2, hcounts.issued]
      omega
    rw [List.map_cons, List.map_singleton, hfirst.id, hsecond.id, hnext]
    rfl

theorem Visits.queued (h : Visits plan root picks s)
    (horder : plan.settings.nodeOrder = .depthFirst) : s.Queued := by
  induction h with
  | start => exact queued_initial plan.settings root
  | next visited hwaits hadvance ih => exact ih.advance visited.ledger horder hwaits hadvance

end Advance

end Search

variable {R α : Type} [Scalar α] [Relaxation R α]

/-- With the order named depth-first, whatever the oracle answers, the ids taken at the head of any
iteration are the first ones in their order, those that wait are all the others in their order, and
no node is taken after a deeper one. The result of a run is read off such a search. -/
theorem depthFirst_consecutive (plan : Plan α) (root : R)
    (horder : plan.settings.nodeOrder = .depthFirst) :
    (∀ picks s, Search.Visits plan root picks s →
      s.takenIds = List.range' 1 s.trace.size ∧
      s.trace.size ≤ s.tally.nodesCreated ∧
      s.pool.ids = List.range' (s.trace.size + 1) (s.tally.nodesCreated - s.trace.size) ∧
      s.takenIds.Pairwise fun id id' =>
        ∃ d d', s.tree.depth? id = some d ∧ s.tree.depth? id' = some d' ∧ d ≤ d') ∧
    ∀ (L : Type) [Link L] (around : Surroundings L) (telemetry : Telemetry L) (sol : Solution α),
      (branchAndCut plan around telemetry root).result = .ok sol →
      ∃ picks s, Search.Visits plan root picks s ∧ sol = Solution.ofSearch s sol.status := by
  constructor
  · intro picks s hvisits
    have hqueued := hvisits.queued horder
    obtain ⟨hcounts, hfiled, -⟩ := hvisits.ledger
    have hcreated : s.trace.size + s.pool.size = s.tally.nodesCreated := by
      rw [hcounts.issued_eq, hcounts.issued, hcounts.created]
    refine ⟨hqueued.taken, by omega, ?_, ?_⟩
    · rw [hqueued.waiting, ← hcreated, Nat.add_sub_cancel_left]
    · have hincreasing : s.takenIds.Pairwise (· < ·) := by
        rw [hqueued.taken]
        exact List.pairwise_lt_range' 1
      apply hincreasing.imp_of_mem
      intro id id' hid hid' hlt
      obtain ⟨d, hd⟩ := hfiled.indexed.exists_depth? (hfiled.takenKnown id hid)
      obtain ⟨d', hd'⟩ := hfiled.indexed.exists_depth? (hfiled.takenKnown id' hid')
      exact ⟨d, d', hd, hd', hqueued.layered.sorted hlt.le hd hd'⟩
  · intro L _ around telemetry sol hrun
    exact branchAndCut_visits hrun

/-- Branching at `5/2` takes the root, then the two children in the order of their ids. -/
theorem depthFirst_consecutive_capped : plainSettings.nodeOrder = .depthFirst ∧
    ∃ (picks : List (Violation Exact)) (s : Search OneColumn Exact),
      Search.Visits ⟨plainSettings, CutPool.mostRecent⟩ OneColumn.capped picks s ∧
      s.trace = #[(1, .branched), (2, .prunedIntegral), (3, .prunedInfeasible)] ∧
      s.takenIds = List.range' 1 s.trace.size ∧
      s.takenIds.Pairwise fun id id' =>
        ∃ d d', s.tree.depth? id = some d ∧ s.tree.depth? id' = some d' ∧ d ≤ d' := by
  have hrun : (branchAndCut ⟨plainSettings, CutPool.mostRecent⟩ .quiet Telemetry.disabled
      OneColumn.capped).result.map Solution.trace
      = .ok #[(1, .branched), (2, .prunedIntegral), (3, .prunedInfeasible)] := by
    cbv
  obtain ⟨sol, hsol, htrace⟩ := exists_ok_of_map hrun
  obtain ⟨hqueue, hresult⟩ := depthFirst_consecutive (α := Exact)
    ⟨plainSettings, CutPool.mostRecent⟩ OneColumn.capped rfl
  obtain ⟨picks, s, hvisits, hread⟩ := hresult _ _ _ sol hsol
  have hs : s.trace = sol.trace := by
    rw [hread]
    rfl
  obtain ⟨htaken, -, -, hdepths⟩ := hqueue picks s hvisits
  exact ⟨rfl, picks, s, hvisits, hs.trans htrace, htaken, hdepths⟩

end MixedInteger
