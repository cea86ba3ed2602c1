import MixedInteger.Proofs.NodeDisposal

/-!
# When an iteration can fail

An iteration calls on the tree, on the branching rule and on the oracle, and each of them may
refuse. While the books of the search agree the tree never does, and a branching rule always finds
one of the violations. What is left is an edit that the oracle refuses.

* `BranchingRule.exists_pick`: a rule finds a violation if there is one;
* `RefusesBranching`: the edits that branching asks for and the oracle may refuse;
* `Search.Ledger.advance_refused`: an iteration fails only on such an edit;
* `Refuses`: a reason for which the oracle refuses an edit at all;
* `Session.explore_limit`: a loop that ends at its limit has used up its iterations.
-/

namespace MixedInteger

theorem exists_error_of_bind {ε β γ : Type} {x : Except ε β} {f : β → Except ε γ} {e : ε}
    (h : x >>= f = .error e) : x = .error e ∨ ∃ b, x = .ok b ∧ f b = .error e := by
  cases x with
  | error e' =>
    cases h
    exact .inl rfl
  | ok b => exact .inr ⟨b, rfl, h⟩

section Choices

variable {α : Type} [Scalar α]

/-- Every rule picks one of the violations if there is any. -/
theorem BranchingRule.exists_pick (rule : BranchingRule) {vs : List (Violation α)}
    (h : vs ≠ []) : ∃ pick, (rule.select? vs).bind (vs[·]?) = some pick := by
  obtain ⟨i, hi, hlt⟩ := rule.exists_select? h
  exact ⟨vs[i], by rw [hi]; exact List.getElem?_eq_getElem hlt⟩

end Choices

variable {R α : Type} [Scalar α] [Relaxation R α]

variable (R) in
/-- There is a bound that the oracle refuses to move for this reason, or a row that it refuses to
add. -/
def Refuses (refusal : ModelError α) : Prop :=
  (∃ (r : R) (j : Nat) (side : Side) (bound : α),
    Relaxation.setBound r j side bound = .error refusal) ∨
  ∃ (r : R) (row : SparseRow α) (lower : α), Relaxation.addRow r row lower = .error refusal

/-- The oracle refuses, for this reason, a cut at the relaxation `r`, or a bound that branching on
one of these violations asks for. -/
inductive RefusesBranching (plan : Plan α) (r : R) (vs : List (Violation α))
    (refusal : ModelError α) : Prop where
  | cut {row : SparseRow α} {lower : α} (enabled : plan.settings.cutsEnabled = true)
      (refused : Relaxation.addRow r row lower = .error refusal) :
      RefusesBranching plan r vs refusal
  | bound {r' : R} {pick : Violation α} {change : BoundChange α} (picked : pick ∈ vs)
      (cut : CutBy plan r r')
      (side : change = .down pick.column pick.value ∨ change = .up pick.column pick.value)
      (refused : change.apply r' = .error refusal) : RefusesBranching plan r vs refusal

namespace Search

/-! ## Errors of an iteration -/

section Errors

variable {plan : Plan α} {s : Search R α} {node : Subproblem R α} {r : R}
  {notices : List (Notice α)} {e : SearchError α}

theorem addCuts_error {id : NodeId} {refusal : ModelError α}
    (h : s.addCuts plan id r = .error refusal) :
    ∃ row lower, Relaxation.addRow r row lower = .error refusal := by
  unfold addCuts at h
  dsimp only at h
  split at h
  · cases h
  · rcases exists_error_of_bind h with hinject | ⟨injected, -, hdone⟩
    · unfold CutPool.inject CutPool.resolve? at hinject
      dsimp only at hinject
      split at hinject
      · cases hinject
      · rcases exists_error_of_bind hinject with hadd | ⟨added, -, hdone⟩
        · exact ⟨_, _, hadd⟩
        · cases hdone
    · cases hdone

theorem addChild_error {parent id : NodeId} {depth : Nat} {change : BoundChange α}
    (hparent : s.tree.contains parent = true) (hnew : s.tree.contains id = false)
    (h : s.addChild parent depth r id change = (notices, .error e)) :
    ∃ refusal, e = .invalidModel refusal ∧ change.apply r = .error refusal := by
  unfold addChild at h
  split at h
  · rename_i refusal hchild
    cases h
    rcases exists_error_of_bind hchild with hmove | ⟨moved, -, hdone⟩
    · exact ⟨refusal, rfl, hmove⟩
    · cases hdone
  · obtain ⟨tree, htree⟩ := SearchTree.exists_insertChild hparent hnew
    dsimp only at h
    rw [htree] at h
    cases h

/-- The ids of the children are new, so the tree takes both of them. -/
theorem addChildren_error {pick : Violation α} (hnode : s.tree.contains node.id = true)
    (hfirst : s.tree.contains s.ids.nextEven = false)
    (hsecond : s.tree.contains (s.ids.nextEven + 1) = false)
    (h : s.addChildren node r pick = (notices, .error e)) :
    ∃ refusal, ∃ change : BoundChange α, e = .invalidModel refusal ∧
      (change = .down pick.column pick.value ∨ change = .up pick.column pick.value) ∧
      change.apply r = .error refusal := by
  unfold addChildren at h
  dsimp only [NodeIds.nextPair] at h
  split at h
  · rename_i hdown
    cases h
    obtain ⟨refusal, he, hrefused⟩ := by
      apply addChild_error _ _ hdown
      · exact hnode
      · exact hfirst
    exact ⟨refusal, _, he, .inl rfl, hrefused⟩
  · rename_i s₁ hdown
    have hup : (s₁.addChild node.id (node.depth + 1) r (s.ids.nextEven + 1)
        (.up pick.column pick.value)).2 = .error e := congrArg Prod.snd h
    obtain ⟨first, -, htree, -⟩ := addChild_books hdown
    have hcontains (k : NodeId) := SearchTree.contains_insertChild htree k
    have hnode' : s₁.tree.contains node.id = true := (hcontains node.id).mpr (.inr hnode)
    have hsecond' : s₁.tree.contains (s.ids.nextEven + 1) = false := by
      rw [← Bool.not_eq_true, hcontains]
      simp [hsecond]
    obtain ⟨refusal, he, hrefused⟩ := addChild_error hnode' hsecond' (Prod.ext rfl hup)
    exact ⟨refusal, _, he, .inr rfl, hrefused⟩

theorem branch_error {bound : α} {vs : List (Violation α)} (hvs : vs ≠ [])
    (hnode : s.tree.contains node.id = true)
    (hfirst : s.tree.contains s.ids.nextEven = false)
    (hsecond : s.tree.contains (s.ids.nextEven + 1) = false)
    (h : s.branch plan node r bound vs = (notices, .error e)) :
    ∃ refusal, e = .invalidModel refusal ∧ RefusesBranching plan r vs refusal := by
  unfold branch at h
  dsimp only at h
  obtain ⟨pick, hpick⟩ := plan.settings.branchingRule.exists_pick hvs
  obtain ⟨k, -, hk⟩ := Option.bind_eq_some_iff.mp hpick
  rw [hpick] at h
  dsimp only at h
  split at h
  · rename_i refusal htight
    cases h
    refine ⟨refusal, rfl, ?_⟩
    split at htight
    · rename_i henabled
      obtain ⟨row, lower, hadd⟩ := addCuts_error htight
      exact .cut henabled hadd
    · cases htight
  · rename_i s₁ r₁ htight
    have hsame : s.SameBooks s₁ ∧ CutBy plan r r₁ := by
      split at htight
      · rename_i henabled
        exact ⟨addCuts_sameBooks htight, (addCuts_cutBy henabled htight).1⟩
      · cases htight
        exact ⟨.refl s, .none⟩
    obtain ⟨hsame, hcut⟩ := hsame
    have hadd : (s₁.addChildren node r₁ pick).2 = .error e := congrArg Prod.snd h
    rw [← hsame.tree] at hnode hfirst hsecond
    rw [← hsame.ids] at hfirst hsecond
    obtain ⟨refusal, change, he, hside, hrefused⟩ :=
      addChildren_error hnode hfirst hsecond (Prod.ext rfl hadd)
    exact ⟨refusal, he, .bound (List.mem_of_getElem? hk) hcut hside hrefused⟩

theorem process_error (hnode : s.tree.contains node.id = true)
    (hfirst : s.tree.contains s.ids.nextEven = false)
    (hsecond : s.tree.contains (s.ids.nextEven + 1) = false)
    (h : s.process plan node = (notices, .error e)) :
    ∃ refusal, e = .invalidModel refusal ∧
      RefusesBranching plan (Relaxation.solve node.model).2
        (violations (Relaxation.solve node.model).2 plan.settings.scope
          plan.settings.integralityTol) refusal := by
  unfold process at h
  dsimp only at h
  split at h
  · cases h
  · cases h
  · rename_i vs hclass
    obtain ⟨-, rfl, hvs⟩ := classify_fractional hclass
    split at h
    · cases h
    · generalize hbranch : s.branch plan node _ _ _ = outcome at h
      obtain ⟨told, result⟩ := outcome
      cases result with
      | ok s' => cases h
      | error e' =>
        cases h
        exact branch_error hvs hnode hfirst hsecond hbranch

/-- A node that has been disposed of keeps its record. -/
theorem process_contains {d : Disposal R α} (hnode : s.tree.contains node.id = true)
    (h : s.process plan node = (notices, .ok d)) : d.search.tree.contains node.id = true := by
  rcases process_cases h with ⟨-, -, hsame⟩ | ⟨-, pick, -, hsplit⟩
  · rw [hsame.tree]
    exact hnode
  · obtain ⟨tree, hfirst, hsecond⟩ := hsplit.tree
    rw [SearchTree.contains_insertChild hsecond, SearchTree.contains_insertChild hfirst]
    exact .inr (.inr hnode)

end Errors

/-- While the books agree, an iteration fails only where the oracle refuses to have a waiting node
branched. -/
theorem Ledger.advance_refused {plan : Plan α} {s : Search R α} {picks : List (Violation α)}
    {notices : List (Notice α)} {e : SearchError α} (hs : s.Ledger picks)
    (h : s.advance plan = (notices, .error e)) :
    ∃ refusal, e = .invalidModel refusal ∧ ∃ node ∈ s.pool.waiting,
      RefusesBranching plan (Relaxation.solve node.model).2
        (violations (Relaxation.solve node.model).2 plan.settings.scope
          plan.settings.integralityTol) refusal := by
  have hnew (id : Nat) (hid : s.ids.issued < id) : s.tree.contains id = false := by
    rw [← Bool.not_eq_true, hs.filed.known]
    omega
  obtain ⟨hnext, heven⟩ := hs.counts.nextEven
  have hissued : s.ids.issued < s.ids.nextEven := by
    rw [heven, NodeIds.issued, hnext]
    omega
  unfold Search.advance at h
  cases htake : s.pool.take? plan.settings.nodeOrder.selector with
  | none =>
    rw [htake] at h
    cases h
  | some taken =>
    obtain ⟨⟨node, k⟩, pool⟩ := taken
    have hmem := NodePool.mem_of_take? htake
    have hnode : s.tree.contains node.id = true :=
      ((hs.filed.pooled node.id).mp (mem_ids hmem)).1
    rw [htake] at h
    dsimp only at h
    split at h
    · rename_i hprocess
      cases h
      obtain ⟨refusal, he, hrefuses⟩ := by
        apply process_error _ _ _ hprocess
        · exact hnode
        · exact hnew _ hissued
        · exact hnew _ (Nat.lt_succ_of_lt hissued)
      exact ⟨refusal, he, node, hmem, hrefuses⟩
    · rename_i d hprocess
      have hkept : d.search.tree.contains node.id = true := by
        apply process_contains _ hprocess
        exact hnode
      obtain ⟨tree, hmark⟩ := SearchTree.exists_mark hkept d.fate.mark
      simp only [conclude, hmark] at h
      cases h

/-- While the books agree, an iteration fails only where the oracle refuses an edit. -/
theorem Ledger.advance_error {plan : Plan α} {s : Search R α} {picks : List (Violation α)}
    {notices : List (Notice α)} {e : SearchError α} (hs : s.Ledger picks)
    (h : s.advance plan = (notices, .error e)) :
    ∃ refusal, e = .invalidModel refusal ∧ Refuses R refusal := by
  obtain ⟨refusal, he, node, -, hrefuses⟩ := hs.advance_refused h
  refine ⟨refusal, he, ?_⟩
  cases hrefuses with
  | cut _ hadd => exact .inr ⟨_, _, _, hadd⟩
  | bound _ _ _ hmove => exact .inl ⟨_, _, _, _, hmove⟩

end Search

/-! ## Loops that end at their limit -/

section Sessions

variable {L : Type} [Link L]

/-- A loop that ends at its limit has taken as many nodes as it was allowed to, and one still
waits. -/
theorem Session.explore_limit {plan : Plan α} {root : R} {around : Surroundings L}
    {remaining limit : Nat} {best : α} {s s' : Session R α L} {picks : List (Violation α)}
    (h : Search.Visits plan root picks s.search)
    (hrun : s.explore plan around remaining = (.failed (.iterationLimit limit best), s')) :
    ∃ picks', Search.Visits plan root picks' s'.search ∧ s'.search.pool.isEmpty = false ∧
      s'.search.trace.size = s.search.trace.size + remaining := by
  induction remaining generalizing s picks with
  | zero =>
    unfold explore at hrun
    split at hrun
    · cases hrun
    · rename_i hwaits
      split at hrun
      · cases hrun
      · cases hrun
        exact ⟨picks, h, by simpa [note] using hwaits, rfl⟩
  | succ left ih =>
    unfold explore at hrun
    split at hrun
    · cases hrun
    · rename_i hwaits
      split at hrun
      · cases hrun
      · dsimp only at hrun
        split at hrun
        · rename_i notices e hadv
          obtain ⟨refusal, rfl, -⟩ := h.ledger.advance_error hadv
          cases hrun
        · rename_i notices p hadv
          have hpool : s.search.pool.isEmpty = false := by simpa using hwaits
          obtain ⟨node, k, pool, fate, children, -, -, hstep⟩ := Search.advance_disposes hpool hadv
          split at hrun
          · cases hrun
          · obtain ⟨picks', hvisits, hwaits', hsize⟩ := ih (by
              rw [search_publish]
              exact h.next hpool hadv) hrun
            refine ⟨picks', hvisits, hwaits', ?_⟩
            rw [hsize, search_publish, hstep.trace, Array.size_push]
            omega

/-- A run that fails at its limit has come to a search that has taken so many nodes, and one still
waits. -/
theorem branchAndCut_limit {plan : Plan α} {root : R} {around : Surroundings L}
    {telemetry : Telemetry L} {limit : Nat} {best : α}
    (h : (branchAndCut plan around telemetry root).result = .error (.iterationLimit limit best)) :
    ∃ picks s, Search.Visits plan root picks s ∧ s.pool.isEmpty = false ∧
      s.trace.size = plan.settings.maxIterations.toNat := by
  unfold branchAndCut at h
  split at h
  · cases h
  · unfold Session.run at h
    dsimp only at h
    split at h
    · cases h
    · cases h
    · rename_i s hexplore
      cases h
      obtain ⟨picks, hvisits, hwaits, hsize⟩ := Session.explore_limit .start hexplore
      exact ⟨picks, s.search, hvisits, hwaits, by simpa [Session.note, Search.initial] using hsize⟩

end Sessions

end MixedInteger
