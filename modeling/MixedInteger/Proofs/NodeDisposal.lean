import MixedInteger.Proofs.SearchLedger

/-!
# Disposing of a node

What an iteration makes of the node that it takes: which verdict and which comparison with the
incumbent lead to which fate, what becomes of the incumbent, and from which relaxations the children
of a branched node come.

* `Subproblem.Narrows`: a child and the relaxation that it narrows;
* `Search.Disposes`: the four ways to dispose of a node;
* `Search.advance_parts`: the parts of an iteration;
* `Search.advance_disposes`: an iteration takes a waiting node, disposes of it and keeps the books.
-/

namespace MixedInteger

variable {R α : Type} [Scalar α] [Relaxation R α]

/-! ## Classes -/

section Classes

variable {r : R} {verdict : Verdict} {scope : Scope} {tol : α} {vs : List (Violation α)}

/-- A violation names a column that is integral, in scope and fractional. -/
theorem mem_violations {v : Violation α} (h : v ∈ violations r scope tol) :
    v.column < Relaxation.numVariables r ∧ v.value = Relaxation.value r v.column ∧
      v.objective = Relaxation.objective r v.column ∧
      (Relaxation.kind r v.column).isIntegral = true ∧
      scope.covers v.value v.objective = true ∧ isFractional tol v.value = true := by
  obtain ⟨j, hj, hv⟩ := List.mem_filterMap.mp h
  unfold violation? at hv
  dsimp only at hv
  split at hv
  · rename_i hcond
    cases hv
    simp only [Bool.and_eq_true] at hcond
    exact ⟨List.mem_range.mp hj, rfl, rfl, hcond.1.1, hcond.1.2, hcond.2⟩
  · cases hv

theorem classify_infeasible (h : classify r verdict scope tol = .infeasible) :
    verdict ≠ .optimal := by
  unfold classify at h
  split at h
  · assumption
  · split at h <;> cases h

theorem classify_integral (h : classify r verdict scope tol = .integral) :
    verdict = .optimal ∧ violations r scope tol = [] := by
  unfold classify at h
  split at h
  · cases h
  · rename_i hopt
    split at h
    · exact ⟨not_not.mp hopt, ‹_›⟩
    · cases h

theorem classify_fractional (h : classify r verdict scope tol = .fractional vs) :
    verdict = .optimal ∧ violations r scope tol = vs ∧ vs ≠ [] := by
  unfold classify at h
  split at h
  · cases h
  · rename_i hopt
    split at h
    · cases h
    · rename_i v rest hviolations
      cases h
      exact ⟨not_not.mp hopt, hviolations, List.cons_ne_nil v rest⟩

end Classes

/-! ## What becomes of a node -/

/-- The child is the relaxation `r` with one bound moved, and was solved once for its bound. -/
structure Subproblem.Narrows (child : Subproblem R α) (r : R) (change : BoundChange α) : Prop where
  moved : ∃ moved, Relaxation.setBound r change.column change.side change.bound = .ok moved ∧
    child.model = (Relaxation.solve moved).2 ∧
    child.upperBound = if (Relaxation.solve moved).1 = .optimal
      then Relaxation.objectiveValue (Relaxation.solve moved).2 else Scalar.negInf
  isRoot : child.isRoot = false

/-- `r'` is `r`, or `r` with one row more if there may be cuts. -/
inductive CutBy (plan : Plan α) (r : R) : R → Prop where
  | none : CutBy plan r r
  | row {row : SparseRow α} {lower : α} {i : Nat} {r' : R}
      (enabled : plan.settings.cutsEnabled = true)
      (added : Relaxation.addRow r row lower = .ok (i, r')) : CutBy plan r r'

namespace Search

/-- The four ways to dispose of a node: its fate, its children, and the incumbent afterwards. -/
inductive Disposes (plan : Plan α) (i : Incumbent α) (node : Subproblem R α) :
    Fate → List (Subproblem R α) → Incumbent α → Prop where
  | infeasible (unsolved : (Relaxation.solve node.model).1 ≠ .optimal) :
      Disposes plan i node .prunedInfeasible [] i
  | integral (found : Found α) (here : found.node = node.id)
      (solved : (Relaxation.solve node.model).1 = .optimal)
      (whole : violations (Relaxation.solve node.model).2 plan.settings.scope
        plan.settings.integralityTol = []) :
      Disposes plan i node .prunedIntegral []
        (i.update (Relaxation.objectiveValue (Relaxation.solve node.model).2) found)
  | fathomed (solved : (Relaxation.solve node.model).1 = .optimal)
      (dominated : i.dominates (Relaxation.objectiveValue (Relaxation.solve node.model).2)
        plan.settings.pruneTies = true) :
      Disposes plan i node .prunedByBound [] i
  | branched {pick : Violation α} {r : R} {first second : Subproblem R α}
      (solved : (Relaxation.solve node.model).1 = .optimal)
      (better : i.dominates (Relaxation.objectiveValue (Relaxation.solve node.model).2)
        plan.settings.pruneTies = false)
      (picked : pick ∈ violations (Relaxation.solve node.model).2 plan.settings.scope
        plan.settings.integralityTol)
      (cut : CutBy plan (Relaxation.solve node.model).2 r)
      (down : first.Narrows r (.down pick.column pick.value))
      (up : second.Narrows r (.up pick.column pick.value)) :
      Disposes plan i node .branched [first, second] i

section Parts

variable {plan : Plan α} {s s' : Search R α} {node : Subproblem R α} {r r' : R}
  {notices : List (Notice α)}

theorem addCuts_cutBy (henabled : plan.settings.cutsEnabled = true) {id : NodeId}
    (h : s.addCuts plan id r = .ok (s', r')) :
    CutBy plan r r' ∧ s'.incumbent = s.incumbent := by
  unfold addCuts at h
  dsimp only at h
  split at h
  · cases h
    exact ⟨.none, rfl⟩
  · obtain ⟨⟨row, cuts, oracle⟩, hinject, hdone⟩ := exists_ok_of_bind h
    cases hdone
    refine ⟨?_, rfl⟩
    unfold CutPool.inject CutPool.resolve? at hinject
    dsimp only at hinject
    split at hinject
    · cases hinject
      exact .none
    · obtain ⟨⟨i, oracle'⟩, hadd, hdone⟩ := exists_ok_of_bind hinject
      cases hdone
      exact .row henabled hadd

theorem addChild_narrows {parent id : NodeId} {depth : Nat} {change : BoundChange α}
    (h : s.addChild parent depth r id change = (notices, .ok s')) :
    ∃ child : Subproblem R α, child.Narrows r change ∧
      s'.pool.waiting.toList = s.pool.waiting.toList ++ [child] ∧ s'.incumbent = s.incumbent := by
  obtain ⟨moved, tree, bound, hmove, -, -, rfl⟩ := addChild_parts h
  refine ⟨_, ⟨⟨moved, hmove, ?_, ?_⟩, ?_⟩, Array.toList_push, rfl⟩
  all_goals rfl

theorem addChildren_narrows {pick : Violation α}
    (h : s.addChildren node r pick = (notices, .ok s')) :
    ∃ first second : Subproblem R α, first.Narrows r (.down pick.column pick.value) ∧
      second.Narrows r (.up pick.column pick.value) ∧
      s'.pool.waiting.toList = s.pool.waiting.toList ++ [first, second] ∧
      s'.incumbent = s.incumbent := by
  obtain ⟨s₁, told, more, hfirst, hsecond, -⟩ := addChildren_parts h
  obtain ⟨first, hdown, hpool, hinc⟩ := addChild_narrows hfirst
  obtain ⟨second, hup, hpool', hinc'⟩ := addChild_narrows hsecond
  refine ⟨first, second, hdown, hup, ?_, hinc'.trans hinc⟩
  rw [hpool', hpool, List.append_assoc]
  rfl

theorem branch_narrows {bound : α} {vs : List (Violation α)}
    (h : s.branch plan node r bound vs = (notices, .ok s')) :
    ∃ pick ∈ vs, ∃ r₁, CutBy plan r r₁ ∧ ∃ first second : Subproblem R α,
      first.Narrows r₁ (.down pick.column pick.value) ∧
      second.Narrows r₁ (.up pick.column pick.value) ∧
      s'.pool.waiting.toList = s.pool.waiting.toList ++ [first, second] ∧
      s'.incumbent = s.incumbent := by
  obtain ⟨pick, s₁, r₁, fractions, more, hpick, htight, hadd, -⟩ := branch_parts h
  obtain ⟨k, -, hk⟩ := Option.bind_eq_some_iff.mp hpick
  have hcut : CutBy plan r r₁ ∧ s₁.incumbent = s.incumbent ∧ s₁.pool = s.pool := by
    rcases htight with ⟨henabled, hcuts⟩ | ⟨rfl, rfl⟩
    · obtain ⟨hcut, hinc⟩ := addCuts_cutBy henabled hcuts
      exact ⟨hcut, hinc, (addCuts_sameBooks hcuts).pool⟩
    · exact ⟨.none, rfl, rfl⟩
  obtain ⟨hcut, hinc, hpool⟩ := hcut
  obtain ⟨first, second, hdown, hup, hpool', hinc'⟩ := addChildren_narrows hadd
  rw [hpool] at hpool'
  exact ⟨pick, List.mem_of_getElem? hk, r₁, hcut, first, second, hdown, hup, hpool',
    hinc'.trans hinc⟩

theorem process_disposes {d : Disposal R α} (h : s.process plan node = (notices, .ok d)) :
    ∃ children, Disposes plan s.incumbent node d.fate children d.search.incumbent ∧
      d.search.pool.waiting.toList = s.pool.waiting.toList ++ children := by
  unfold process at h
  dsimp only at h
  split at h
  · rename_i hclass
    cases h
    exact ⟨[], .infeasible (classify_infeasible hclass), (List.append_nil _).symm⟩
  · rename_i hclass
    cases h
    obtain ⟨hopt, hwhole⟩ := classify_integral hclass
    refine ⟨[], ?_, ?_⟩
    · have hinc : (s.offer node.id (Relaxation.solve node.model).2
          (Relaxation.objectiveValue (Relaxation.solve node.model).2)).2.incumbent
          = s.incumbent.update (Relaxation.objectiveValue (Relaxation.solve node.model).2)
            ⟨pointOf (Relaxation.solve node.model).2,
              describeSolution node.id (Relaxation.solve node.model).2, node.id⟩ := by
        unfold offer Incumbent.update
        split
        · rfl
        · rfl
      dsimp only
      rw [hinc]
      exact .integral _ rfl hopt hwhole
    · rw [(offer_sameBooks s _ _ _).pool, List.append_nil]
  · rename_i vs hclass
    obtain ⟨hopt, rfl, -⟩ := classify_fractional hclass
    split at h
    · rename_i hdom
      cases h
      exact ⟨[], .fathomed hopt hdom, (List.append_nil _).symm⟩
    · rename_i hdom
      obtain ⟨s', hs', rfl⟩ := exists_ok_of_map (congrArg Prod.snd h)
      obtain ⟨pick, hpick, r, hcut, first, second, hdown, hup, hpool, hinc⟩ :=
        branch_narrows (Prod.ext rfl hs')
      refine ⟨[first, second], ?_, hpool⟩
      dsimp only
      rw [hinc]
      exact .branched hopt (Bool.eq_false_iff.mpr hdom) hpick hcut hdown hup

end Parts

/-- While a node waits, an iteration takes one, processes it and concludes it. A progress line may
follow what processing has told. -/
theorem advance_parts {plan : Plan α} {s : Search R α} {notices : List (Notice α)}
    {p : Progress R α} (hwaits : s.pool.isEmpty = false)
    (h : s.advance plan = (notices, .ok p)) :
    ∃ node k pool told d,
      s.pool.take? plan.settings.nodeOrder.selector = some ((node, k), pool) ∧
      process plan { s with
        pool := pool, tally := { s.tally with iterations := s.tally.iterations + 1 } } node
        = (told, .ok d) ∧
      conclude d node.id = .ok p.search ∧ notices = told ++ p.search.progress plan := by
  unfold advance at h
  cases htake : s.pool.take? plan.settings.nodeOrder.selector with
  | none => exact absurd htake (take?_ne_none _ hwaits)
  | some taken =>
    obtain ⟨⟨node, k⟩, pool⟩ := taken
    rw [htake] at h
    dsimp only at h
    split at h
    · cases h
    · rename_i told d hprocess
      split at h
      · cases h
      · rename_i s' hconclude
        cases h
        exact ⟨node, k, pool, told, d, rfl, hprocess, hconclude, rfl⟩

/-- Taking, processing and concluding a node makes an iteration, whose children are the nodes that
processing has put at the end of the pool. -/
theorem iterates_of_process {plan : Plan α} {s s' : Search R α} {node : Subproblem R α} {k : Nat}
    {pool : NodePool R α} {selector : NodeSelector α} {told : List (Notice α)} {d : Disposal R α}
    {children : List (Subproblem R α)}
    (htake : s.pool.take? selector = some ((node, k), pool))
    (hprocess : process plan { s with
      pool := pool, tally := { s.tally with iterations := s.tally.iterations + 1 } } node
      = (told, .ok d))
    (hpool : d.search.pool.waiting.toList = pool.waiting.toList ++ children)
    (hconclude : conclude d node.id = .ok s') : s.Iterates node d.fate children s' := by
  have hkept : s'.pool = d.search.pool := by
    obtain ⟨tree, -, hsearch⟩ := conclude_eq_ok hconclude
    rw [hsearch]
  rcases process_cases hprocess with ⟨-, -, hsame⟩ | ⟨hfate, pick, -, hsplit⟩
  · rw [hsame.pool, List.self_eq_append_right] at hpool
    rw [hpool]
    exact hsame.iterates htake hconclude
  · obtain ⟨first, second, -, -, hstep⟩ := hsplit.iterates htake hfate hconclude
    obtain ⟨before, after, hwaiting, hleft⟩ := hstep.pool
    obtain ⟨before', after', hwaiting', hleft', -⟩ := NodePool.take?_split htake
    -- The children in the books stand at the end of the pool, as those of the disposal do.
    have hlength : (before ++ after).length = pool.waiting.toList.length := by
      have hsize := congrArg List.length (hwaiting.symm.trans hwaiting')
      simp only [List.length_append, List.length_cons] at hsize
      rw [hleft', List.length_append, List.length_append]
      omega
    rw [← hkept] at hpool
    have hchildren := List.append_inj_right (hleft.symm.trans hpool) hlength
    rw [← hchildren, hfate]
    exact hstep

/-- While a node waits, an iteration takes one and disposes of it. -/
theorem advance_disposes {plan : Plan α} {s : Search R α} {notices : List (Notice α)}
    {p : Progress R α} (hwaits : s.pool.isEmpty = false)
    (h : s.advance plan = (notices, .ok p)) :
    ∃ node k pool fate children,
      s.pool.take? plan.settings.nodeOrder.selector = some ((node, k), pool) ∧
      Disposes plan s.incumbent node fate children p.search.incumbent ∧
      s.Iterates node fate children p.search := by
  obtain ⟨node, k, pool, told, d, htake, hprocess, hconclude, -⟩ := advance_parts hwaits h
  obtain ⟨children, hdisposes, hpool⟩ := process_disposes hprocess
  have hkept : p.search.incumbent = d.search.incumbent := by
    obtain ⟨tree, -, hsearch⟩ := conclude_eq_ok hconclude
    rw [hsearch]
  rw [← hkept] at hdisposes
  exact ⟨node, k, pool, d.fate, children, htake, hdisposes,
    iterates_of_process htake hprocess hpool hconclude⟩

end Search

end MixedInteger
