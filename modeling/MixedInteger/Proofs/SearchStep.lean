import MixedInteger.Proofs.TreeRecords
import MixedInteger.Search.Run

/-!
# One iteration of a search

What an iteration does to the books of a search: its pool, tree, ids, trace and counters. Oracles,
cuts and the incumbent decide which way it goes, but only through the fate of the node and the
violation that it is branched on.

* `Search.addChild_parts`, `Search.addChildren_parts`, `Search.branch_parts`: what branching a node
  consists of;
* `Search.Iterates`: the books before and after an iteration;
* `Search.advance_cases`: every iteration is of that kind;
* `Search.Visits`: the searches that a run comes to;
* `branchAndCut_visits`: the result of a run is read off one of them.
-/

namespace MixedInteger

section Results

variable {ε β γ : Type}

theorem exists_ok_of_bind {x : Except ε β} {f : β → Except ε γ} {c : γ}
    (h : x >>= f = .ok c) : ∃ b, x = .ok b ∧ f b = .ok c := by
  cases x with
  | error e => cases h
  | ok b => exact ⟨b, rfl, h⟩

theorem exists_ok_of_map {x : Except ε β} {f : β → γ} {c : γ} (h : x.map f = .ok c) :
    ∃ b, x = .ok b ∧ f b = c := by
  cases x with
  | error e => cases h
  | ok b => exact ⟨b, rfl, Except.ok.inj h⟩

end Results

section Pool

variable {R α : Type}

/-- Taking a node leaves the others in their order. -/
theorem NodePool.take?_split {pool pool' : NodePool R α} {selector : NodeSelector α}
    {node : Subproblem R α} {i : Nat} (h : pool.take? selector = some ((node, i), pool')) :
    ∃ before after, pool.waiting.toList = before ++ node :: after ∧
      pool'.waiting.toList = before ++ after ∧ pool'.totalAdded = pool.totalAdded ∧
      pool'.totalTaken = pool.totalTaken + 1 := by
  obtain ⟨-, hnode, rfl⟩ := take?_eq_some_iff.mp h
  rw [← Array.getElem?_toList] at hnode
  obtain ⟨hlt, rfl⟩ := List.getElem?_eq_some_iff.mp hnode
  refine ⟨pool.waiting.toList.take i, pool.waiting.toList.drop (i + 1), ?_, ?_, rfl, rfl⟩
  · rw [List.getElem_cons_drop, List.take_append_drop]
  · rw [Array.toList_eraseIdxIfInBounds, List.eraseIdx_eq_take_drop_succ]

/-- A node that is taken was waiting. -/
theorem NodePool.mem_of_take? {pool pool' : NodePool R α} {selector : NodeSelector α}
    {node : Subproblem R α} {i : Nat} (h : pool.take? selector = some ((node, i), pool')) :
    node ∈ pool.waiting := by
  obtain ⟨before, after, hwaiting, -⟩ := take?_split h
  rw [← Array.mem_toList_iff, hwaiting]
  exact List.mem_append_right _ List.mem_cons_self

end Pool

section Books

variable {R α : Type}

/-- Nothing is entered in the books. Cuts and incumbents are counted elsewhere. -/
structure Search.SameBooks (s s' : Search R α) : Prop where
  pool : s'.pool = s.pool
  tree : s'.tree = s.tree
  ids : s'.ids = s.ids
  trace : s'.trace = s.trace
  tally : ∃ generated injected updates, s'.tally = { s.tally with
    cutsGenerated := generated, cutsInjected := injected, incumbentUpdates := updates }

theorem Search.SameBooks.refl (s : Search R α) : s.SameBooks s :=
  ⟨rfl, rfl, rfl, rfl, _, _, _, rfl⟩

end Books

variable {R α : Type} [Scalar α] [Relaxation R α]

/-- The subproblem is a child of `node` with this id and one bound moved, solved once. -/
structure Subproblem.ChildOf (c : Subproblem R α) (node : Subproblem R α) (id : NodeId)
    (moved : BoundChange α) : Prop where
  id : c.id = id
  parent : c.parent = some node.id
  depth : c.depth = node.depth + 1
  change : c.change = some moved
  model : ∃ before after, moved.apply before = .ok after ∧ c.model = (Relaxation.solve after).2

namespace Search

/-! ## Parts of an iteration -/

theorem addCuts_sameBooks {plan : Plan α} {s s' : Search R α} {id : NodeId} {r r' : R}
    (h : s.addCuts plan id r = .ok (s', r')) : s.SameBooks s' := by
  unfold addCuts at h
  dsimp only at h
  split at h
  · cases h
    exact ⟨rfl, rfl, rfl, rfl, _, _, _, rfl⟩
  · obtain ⟨⟨row, cuts, oracle⟩, -, hdone⟩ := exists_ok_of_bind h
    cases hdone
    exact ⟨rfl, rfl, rfl, rfl, _, _, _, rfl⟩

theorem offer_sameBooks (s : Search R α) (id : NodeId) (r : R) (bound : α) :
    s.SameBooks (s.offer id r bound).2 := by
  unfold offer
  split
  · exact ⟨rfl, rfl, rfl, rfl, _, _, _, rfl⟩
  · exact .refl s

/-- The parts of adding a child: a bound is moved, the tree takes the child, and it waits, solved
once. -/
theorem addChild_parts {s s' : Search R α} {parent id : NodeId} {depth : Nat} {r : R}
    {change : BoundChange α} {notices : List (Notice α)}
    (h : s.addChild parent depth r id change = (notices, .ok s')) :
    ∃ moved tree bound, change.apply r = .ok moved ∧ s.tree.insertChild parent id = .ok tree ∧
      notices = [.event id (some parent) (.candidate bound)] ∧
      s' = { s with
        tree := tree
        pool := s.pool.push (Subproblem.presolve
          ⟨id, some parent, depth, false, moved, Scalar.posInf, Scalar.negInf, some change⟩)
        tally := { s.tally with nodesCreated := s.tally.nodesCreated + 1 } } := by
  unfold addChild at h
  split at h
  · cases h
  · rename_i child hchild
    obtain ⟨moved, hmove, hdone⟩ := exists_ok_of_bind hchild
    cases hdone
    dsimp only at h
    split at h
    · cases h
    · rename_i tree htree
      cases h
      exact ⟨moved, tree, _, hmove, htree, rfl, rfl⟩

theorem addChild_books {s s' : Search R α} {node : Subproblem R α} {id : NodeId} {r : R}
    {change : BoundChange α} {notices : List (Notice α)}
    (h : s.addChild node.id (node.depth + 1) r id change = (notices, .ok s')) :
    ∃ child, child.ChildOf node id change ∧ s.tree.insertChild node.id id = .ok s'.tree ∧
      s'.pool = s.pool.push child ∧ s'.ids = s.ids ∧ s'.trace = s.trace ∧
      s'.tally = { s.tally with nodesCreated := s.tally.nodesCreated + 1 } := by
  obtain ⟨moved, tree, bound, hmove, htree, -, rfl⟩ := addChild_parts h
  exact ⟨_, ⟨rfl, rfl, rfl, rfl, r, moved, hmove, rfl⟩, htree, rfl, rfl, rfl, rfl⟩

/-- The floor side is added first, then the ceiling side. -/
theorem addChildren_parts {s s' : Search R α} {node : Subproblem R α} {r : R} {pick : Violation α}
    {notices : List (Notice α)} (h : s.addChildren node r pick = (notices, .ok s')) :
    ∃ s₁ first second,
      addChild { s with ids := ⟨s.ids.nextEven + 2⟩ } node.id (node.depth + 1) r s.ids.nextEven
        (.down pick.column pick.value) = (first, .ok s₁) ∧
      s₁.addChild node.id (node.depth + 1) r (s.ids.nextEven + 1) (.up pick.column pick.value)
        = (second, .ok s') ∧
      notices = first ++ second := by
  unfold addChildren at h
  dsimp only [NodeIds.nextPair] at h
  split at h
  · cases h
  · rename_i first s₁ hfirst
    generalize hsecond : s₁.addChild node.id (node.depth + 1) r (s.ids.nextEven + 1)
      (.up pick.column pick.value) = outcome at h
    obtain ⟨second, result⟩ := outcome
    cases h
    exact ⟨s₁, first, second, hfirst, hsecond, rfl⟩

/-- A node has been replaced by two children, which are not yet in the trace. -/
structure Splits (s : Search R α) (node : Subproblem R α) (pick : Violation α)
    (s' : Search R α) : Prop where
  children : ∃ first second,
    first.ChildOf node s.ids.nextEven (.down pick.column pick.value) ∧
    second.ChildOf node (s.ids.nextEven + 1) (.up pick.column pick.value) ∧
    s'.pool = (s.pool.push first).push second
  tree : ∃ tree, s.tree.insertChild node.id s.ids.nextEven = .ok tree ∧
    tree.insertChild node.id (s.ids.nextEven + 1) = .ok s'.tree
  ids : s'.ids = ⟨s.ids.nextEven + 2⟩
  trace : s'.trace = s.trace
  tally : ∃ generated injected updates, s'.tally = { s.tally with
    nodesCreated := s.tally.nodesCreated + 2
    cutsGenerated := generated, cutsInjected := injected, incumbentUpdates := updates }

theorem addChildren_splits {s s' : Search R α} {node : Subproblem R α} {r : R} {pick : Violation α}
    {notices : List (Notice α)} (h : s.addChildren node r pick = (notices, .ok s')) :
    s.Splits node pick s' := by
  obtain ⟨s₁, told, more, hfirst, hsecond, -⟩ := addChildren_parts h
  obtain ⟨first, hchild, htree, hpool, hids, htrace, htally⟩ := addChild_books hfirst
  obtain ⟨second, hchild', htree', hpool', hids', htrace', htally'⟩ := addChild_books hsecond
  refine ⟨⟨first, second, hchild, hchild', ?_⟩, ⟨s₁.tree, htree, htree'⟩, ?_, ?_,
    s.tally.cutsGenerated, s.tally.cutsInjected, s.tally.incumbentUpdates, ?_⟩
  · rw [hpool', hpool]
  · rw [hids', hids]
  · rw [htrace', htrace]
  · rw [htally', htally]

/-- What happens between the choice of a violation and the children enters nothing. -/
theorem SameBooks.splits {s s₁ s' : Search R α} {node : Subproblem R α} {pick : Violation α}
    (hsame : s.SameBooks s₁) (h : s₁.Splits node pick s') : s.Splits node pick s' := by
  obtain ⟨hpool, htree, hids, htrace, generated, injected, updates, htally⟩ := hsame
  obtain ⟨hchildren, htree', hids', htrace', generated', injected', updates', htally'⟩ := h
  rw [hids] at hchildren htree' hids'
  rw [hpool] at hchildren
  rw [htree] at htree'
  rw [htrace] at htrace'
  rw [htally] at htally'
  exact ⟨hchildren, htree', hids', htrace', generated', injected', updates', htally'⟩

/-- The violation that a node is branched on, none if it is not branched. -/
def pickAt? (plan : Plan α) (incumbent : Incumbent α) (node : Subproblem R α) :
    Option (Violation α) :=
  let (verdict, oracle) := Relaxation.solve node.model
  match classify oracle verdict plan.settings.scope plan.settings.integralityTol with
  | .fractional vs =>
    if incumbent.dominates (Relaxation.objectiveValue oracle) plan.settings.pruneTies then none
    else (plan.settings.branchingRule.select? vs).bind (vs[·]?)
  | _ => none

/-- The parts of branching: a violation is picked, cuts may be added, and the children follow. -/
theorem branch_parts {plan : Plan α} {s s' : Search R α} {node : Subproblem R α} {r : R}
    {bound : α} {vs : List (Violation α)} {notices : List (Notice α)}
    (h : s.branch plan node r bound vs = (notices, .ok s')) :
    ∃ pick s₁ r₁ fractions more,
      (plan.settings.branchingRule.select? vs).bind (vs[·]?) = some pick ∧
      ((plan.settings.cutsEnabled = true ∧ s.addCuts plan node.id r = .ok (s₁, r₁)) ∨
        (s₁ = s ∧ r₁ = r)) ∧
      s₁.addChildren node r₁ pick = (more, .ok s') ∧
      notices = .event node.id node.parent (.branched bound fractions vs.length) :: more := by
  unfold branch at h
  dsimp only at h
  split at h
  · cases h
  · rename_i pick hpick
    split at h
    · cases h
    · rename_i s₁ r₁ htight
      generalize hadd : s₁.addChildren node r₁ pick = outcome at h
      obtain ⟨more, result⟩ := outcome
      cases h
      refine ⟨pick, s₁, r₁, _, more, hpick, ?_, hadd, rfl⟩
      split at htight
      · exact .inl ⟨‹_›, htight⟩
      · cases htight
        exact .inr ⟨rfl, rfl⟩

theorem branch_splits {plan : Plan α} {s s' : Search R α} {node : Subproblem R α} {r : R}
    {bound : α} {vs : List (Violation α)} {notices : List (Notice α)}
    (h : s.branch plan node r bound vs = (notices, .ok s')) :
    ∃ pick, (plan.settings.branchingRule.select? vs).bind (vs[·]?) = some pick ∧
      s.Splits node pick s' := by
  obtain ⟨pick, s₁, r₁, fractions, more, hpick, htight, hadd, -⟩ := branch_parts h
  have hsame : s.SameBooks s₁ := by
    rcases htight with ⟨-, hcuts⟩ | ⟨rfl, -⟩
    · exact addCuts_sameBooks hcuts
    · exact .refl _
  exact ⟨pick, hpick, hsame.splits (addChildren_splits hadd)⟩

/-- A node is pruned, or split on the violation that is picked. -/
theorem process_cases {plan : Plan α} {s : Search R α} {node : Subproblem R α}
    {notices : List (Notice α)} {d : Disposal R α} (h : s.process plan node = (notices, .ok d)) :
    (d.fate ≠ .branched ∧ pickAt? plan s.incumbent node = none ∧ s.SameBooks d.search) ∨
    (d.fate = .branched ∧
      ∃ pick, pickAt? plan s.incumbent node = some pick ∧ s.Splits node pick d.search) := by
  unfold process at h
  unfold pickAt?
  dsimp only at h ⊢
  split at h
  · rename_i hclass
    cases h
    rw [hclass]
    exact .inl ⟨nofun, rfl, .refl s⟩
  · rename_i hclass
    cases h
    rw [hclass]
    exact .inl ⟨nofun, rfl, offer_sameBooks s _ _ _⟩
  · rename_i vs hclass
    rw [hclass]
    dsimp only
    split at h
    · rename_i hdom
      cases h
      rw [if_pos hdom]
      exact .inl ⟨nofun, rfl, .refl s⟩
    · rename_i hdom
      rw [if_neg hdom]
      obtain ⟨s', hs', hd⟩ := exists_ok_of_map (congrArg Prod.snd h)
      obtain ⟨pick, hpick, hsplit⟩ := branch_splits (Prod.ext rfl hs')
      subst hd
      exact .inr ⟨rfl, pick, hpick, hsplit⟩

/-! ## Whole iterations -/

/-- An iteration has disposed of `node`, which was waiting, with this fate and these children. -/
structure Iterates (s : Search R α) (node : Subproblem R α) (fate : Fate)
    (children : List (Subproblem R α)) (s' : Search R α) : Prop where
  pool : ∃ before after, s.pool.waiting.toList = before ++ node :: after ∧
    s'.pool.waiting.toList = before ++ after ++ children
  added : s'.pool.totalAdded = s.pool.totalAdded + children.length
  taken : s'.pool.totalTaken = s.pool.totalTaken + 1
  tree : s.tree.Indexed → s.tree.Grows node.id (children.map Subproblem.id) fate.mark s'.tree
  trace : s'.trace = s.trace.push (node.id, fate)
  tally : ∃ generated injected updates, s'.tally = Tally.record { s.tally with
    iterations := s.tally.iterations + 1
    nodesCreated := s.tally.nodesCreated + children.length
    cutsGenerated := generated, cutsInjected := injected, incumbentUpdates := updates } fate

/-- The violation that the next iteration branches on, none if it does not branch. -/
def pick? (plan : Plan α) (s : Search R α) : Option (Violation α) :=
  (s.pool.take? plan.settings.nodeOrder.selector).bind fun taken =>
    pickAt? plan s.incumbent taken.1.1

section Disposals

variable {s s' : Search R α} {node : Subproblem R α} {pool : NodePool R α} {i : Nat}
  {selector : NodeSelector α} {d : Disposal R α}

omit [Scalar α] [Relaxation R α] in
theorem conclude_eq_ok {id : NodeId} (h : conclude d id = .ok s') :
    ∃ tree, d.search.tree.mark id d.fate.mark = .ok tree ∧ s' = { d.search with
      tree := tree
      tally := d.search.tally.record d.fate
      trace := d.search.trace.push (id, d.fate) } := by
  unfold conclude at h
  split at h
  · cases h
  · rename_i tree hmark
    cases h
    exact ⟨tree, hmark, rfl⟩

omit [Scalar α] [Relaxation R α] in
/-- Taking a node and concluding it, with nothing entered in between. -/
theorem SameBooks.iterates (htake : s.pool.take? selector = some ((node, i), pool))
    (hsame : SameBooks { s with
      pool := pool, tally := { s.tally with iterations := s.tally.iterations + 1 } } d.search)
    (hconclude : conclude d node.id = .ok s') : s.Iterates node d.fate [] s' := by
  obtain ⟨before, after, hwaiting, hleft, hadded, htaken⟩ := NodePool.take?_split htake
  obtain ⟨tree, hmark, rfl⟩ := conclude_eq_ok hconclude
  obtain ⟨hpool, htree, -, htrace, generated, injected, updates, htally⟩ := hsame
  rw [htree] at hmark
  constructor
  case pool => exact ⟨before, after, hwaiting, by rw [hpool, List.append_nil]; exact hleft⟩
  case added => exact (congrArg NodePool.totalAdded hpool).trans hadded
  case taken => exact (congrArg NodePool.totalTaken hpool).trans htaken
  case tree => exact fun hindexed => SearchTree.grows_mark hindexed hmark
  case trace => rw [htrace]
  case tally => exact ⟨generated, injected, updates, congrArg (·.record d.fate) htally⟩

/-- Taking a node and concluding it, with two children entered in between. -/
theorem Splits.iterates {pick : Violation α}
    (htake : s.pool.take? selector = some ((node, i), pool))
    (hsplit : Splits { s with
      pool := pool, tally := { s.tally with iterations := s.tally.iterations + 1 } }
      node pick d.search)
    (hfate : d.fate = .branched) (hconclude : conclude d node.id = .ok s') :
    ∃ first second, first.ChildOf node s.ids.nextEven (.down pick.column pick.value) ∧
      second.ChildOf node (s.ids.nextEven + 1) (.up pick.column pick.value) ∧
      s.Iterates node .branched [first, second] s' := by
  obtain ⟨before, after, hwaiting, hleft, hadded, htaken⟩ := NodePool.take?_split htake
  obtain ⟨tree, hmark, rfl⟩ := conclude_eq_ok hconclude
  obtain ⟨⟨first, second, hfirst, hsecond, hpool⟩, ⟨tree₁, htree₁, htree₂⟩, -, htrace,
    generated, injected, updates, htally⟩ := hsplit
  rw [hfate] at hmark
  refine ⟨first, second, hfirst, hsecond, ?_⟩
  constructor
  case pool => exact ⟨before, after, hwaiting, by simp [hpool, NodePool.push, hleft]⟩
  case added => simp [hpool, NodePool.push, hadded]
  case taken => exact (congrArg NodePool.totalTaken hpool).trans htaken
  case tree =>
    intro hindexed
    rw [List.map_cons, List.map_singleton, hfirst.id, hsecond.id]
    exact SearchTree.grows_children hindexed htree₁ htree₂ hmark
  case trace => rw [htrace, hfate]
  case tally =>
    rw [hfate]
    exact ⟨generated, injected, updates, congrArg (·.record .branched) htally⟩

end Disposals

/-- An iteration without a node to take changes nothing. Every other prunes a node, or replaces it
by a child on each side of the picked violation. -/
theorem advance_cases {plan : Plan α} {s : Search R α} {notices : List (Notice α)}
    {p : Progress R α} (h : s.advance plan = (notices, .ok p)) :
    (p.search = s ∧ s.pick? plan = none) ∨
    (∃ node fate, fate ≠ .branched ∧ s.pick? plan = none ∧ p.search.ids = s.ids ∧
      s.Iterates node fate [] p.search) ∨
    (∃ node pick first second, s.pick? plan = some pick ∧
      p.search.ids = ⟨s.ids.nextEven + 2⟩ ∧
      first.ChildOf node s.ids.nextEven (.down pick.column pick.value) ∧
      second.ChildOf node (s.ids.nextEven + 1) (.up pick.column pick.value) ∧
      s.Iterates node .branched [first, second] p.search) := by
  unfold advance at h
  cases htake : s.pool.take? plan.settings.nodeOrder.selector with
  | none =>
    rw [htake] at h
    cases h
    exact .inl ⟨rfl, by rw [pick?, htake]; rfl⟩
  | some taken =>
    obtain ⟨⟨node, i⟩, pool⟩ := taken
    have hpick : s.pick? plan = pickAt? plan s.incumbent node := by
      rw [pick?, htake]
      rfl
    rw [htake] at h
    dsimp only at h
    split at h
    · cases h
    · rename_i d hprocess
      split at h
      · cases h
      · rename_i s' hconclude
        cases h
        have hids : s'.ids = d.search.ids := by
          obtain ⟨tree, -, rfl⟩ := conclude_eq_ok hconclude
          rfl
        rcases process_cases hprocess with ⟨hfate, hnone, hsame⟩ | ⟨hfate, pick, hsome, hsplit⟩
        · exact .inr (.inl ⟨node, d.fate, hfate, hpick.trans hnone, hids.trans hsame.ids,
            hsame.iterates htake hconclude⟩)
        · obtain ⟨first, second, hfirst, hsecond, hstep⟩ := hsplit.iterates htake hfate hconclude
          exact .inr (.inr ⟨node, pick, first, second, hpick.trans hsome, hids.trans hsplit.ids,
            hfirst, hsecond, hstep⟩)

/-! ## Runs -/

/-- The searches that a run from `root` comes to, at the head of an iteration or at its end, with
the violations that it has branched on so far. -/
inductive Visits (plan : Plan α) (root : R) : List (Violation α) → Search R α → Prop where
  | start : Visits plan root [] (initial plan.settings root)
  | next {picks : List (Violation α)} {s : Search R α} {notices : List (Notice α)}
      {p : Progress R α} (visited : Visits plan root picks s) (waits : s.pool.isEmpty = false)
      (advances : s.advance plan = (notices, .ok p)) :
      Visits plan root (picks ++ (s.pick? plan).toList) p.search

end Search

section Sessions

variable {L : Type} [Link L]

omit [Relaxation R α] in
theorem Session.search_publish (clock : Nat → Nat) (s : Session R α L)
    (notices : List (Notice α)) : (s.publish clock notices).search = s.search := by
  unfold publish
  induction notices generalizing s with
  | nil => rfl
  | cons notice rest ih =>
    rw [List.foldl_cons, ih]
    cases notice <;> rfl

/-- Exploring goes from one visited search to another. -/
theorem Session.explore_visits {plan : Plan α} {root : R} {around : Surroundings L}
    {remaining : Nat} {s s' : Session R α L} {ending : Ending α} {picks : List (Violation α)}
    (hrun : s.explore plan around remaining = (ending, s'))
    (h : Search.Visits plan root picks s.search) :
    ∃ picks', Search.Visits plan root picks' s'.search := by
  induction remaining generalizing s picks with
  | zero =>
    unfold explore at hrun
    split at hrun
    · cases hrun
      exact ⟨picks, h⟩
    · split at hrun <;> cases hrun <;> exact ⟨picks, h⟩
  | succ left ih =>
    unfold explore at hrun
    split at hrun
    · cases hrun
      exact ⟨picks, h⟩
    · rename_i hwaits
      split at hrun
      · cases hrun
        exact ⟨picks, h⟩
      · dsimp only at hrun
        split at hrun
        · cases hrun
          rw [search_publish]
          exact ⟨picks, h⟩
        · rename_i notices p hadv
          have hnext := h.next (by simpa using hwaits) hadv
          split at hrun
          · cases hrun
            rw [search_publish]
            exact ⟨_, hnext⟩
          · apply ih hrun
            rw [search_publish]
            exact hnext

/-- The result of a run is read off a search that it has visited. -/
theorem branchAndCut_visits {plan : Plan α} {root : R} {around : Surroundings L}
    {telemetry : Telemetry L} {sol : Solution α}
    (h : (branchAndCut plan around telemetry root).result = .ok sol) :
    ∃ picks s, Search.Visits plan root picks s ∧ sol = Solution.ofSearch s sol.status := by
  unfold branchAndCut at h
  split at h
  · cases h
  · unfold Session.run at h
    dsimp only at h
    split at h
    · rename_i s hexplore
      cases h
      obtain ⟨picks, hvisits⟩ := Session.explore_visits hexplore .start
      exact ⟨picks, s.search, hvisits, rfl⟩
    · rename_i s hexplore
      cases h
      obtain ⟨picks, hvisits⟩ := Session.explore_visits hexplore .start
      exact ⟨picks, s.search, hvisits, rfl⟩
    · cases h

end Sessions

end MixedInteger
