import MixedInteger.Proofs.NodeBounds
import MixedInteger.Proofs.PoolOrder

/-!
# Taking the node with the best bound first

The node taken has the largest bound of all that wait, and no child has a larger bound than its
parent. So the bounds of the nodes that a search takes one after the other never grow, the first
integral point found is a best one, and no node is worth branching after it.

* `NodePool.take?_bestBound`: the node taken has a largest bound;
* `ExactThroughout`: the oracle is exact, whatever rows are added;
* `Search.Takes`: the searches that a run comes to, with the nodes taken;
* `Search.BestFirst`, `Search.BestFirst.next`: the bounds taken and those that wait;
* `bestBound_first_incumbent`: the first incumbent is the last.
-/

namespace MixedInteger

open Exact hiding isFinite isNaN
open Scalar (isFinite isNaN)

/-! ## The node with the largest bound -/

variable {R : Type}

/-- The node taken has a largest bound. -/
theorem NodePool.take?_bestBound {pool pool' : NodePool R Exact} {node : Subproblem R Exact}
    {k : Nat} (hdef : ∀ other ∈ pool.waiting, isNaN other.upperBound = false)
    (h : pool.take? NodeOrder.bestBound.selector = some ((node, k), pool'))
    {other : Subproblem R Exact} (hother : other ∈ pool.waiting) :
    other.upperBound ≤ node.upperBound := by
  rw [← Array.mem_toList_iff] at hother
  obtain ⟨before, best, after, _, hwaiting, hbefore, hafter, -, htake, -⟩ :=
    take?_best hdef (List.ne_nil_of_mem hother)
  cases h.symm.trans htake
  rw [hwaiting, List.mem_append, List.mem_cons] at hother
  rcases hother with hother | rfl | hother
  · exact Exact.le_of_lt (hbefore other hother)
  · exact Exact.le_refl (hdef other (mem_of_take? htake))
  · exact hafter other hother

/-! ## Exact oracles under any rows -/

variable [Relaxation R Exact]

/-- The oracle is exact in every state that a search may bring it to, and every row that is added is
added to its model. -/
structure ExactThroughout (model : R → Model Exact) (root : R) : Prop where
  exact : ∀ r, Reachable root r → ExactOracle model r
  addRow : ∀ r, Reachable root r → ∀ row lower,
    (Relaxation.addRow r row lower).map (fun p => (p.1, model p.2))
      = (Relaxation.addRow (Simplex.ofModel (model r)) row lower).map fun p => (p.1, p.2.model)

variable {model : R → Model Exact} {root r r' : R}

theorem Reachable.derived (h : Reachable root r) (h' : Derived r r') : Reachable root r' := by
  induction h' with
  | root => exact h
  | solve _ ih => exact ih.solve
  | setBound _ hset ih => exact ih.setBound hset
  | addRow _ _ hadd ih => exact ih.addRow hadd

/-- A row leaves fewer points, and all column ranges. -/
theorem Model.restricts_addRow {m m' : Model Exact} (wf : m.WellFormed)
    {terms : List (Term Exact)} {lower upper : Exact} (h : m.addRow terms lower upper = .ok m') :
    m'.Restricts m ∧ ∀ j, m'.colRange j = m.colRange j := by
  have hm := (Model.addRow_ok h).2.2
  refine ⟨⟨wf.addRow h, ?_, ?_, ?_⟩, ?_⟩
  · rw [hm]
  · rw [hm]
  · intro x hx
    exact ((Model.admits_addRow wf h).mp hx).1
  · intro j
    rw [hm]
    rfl

/-- Cuts leave fewer points, and all column ranges. -/
theorem ExactThroughout.cutBy (oracle : ExactThroughout model root) {plan : Plan Exact}
    (hr : Reachable root r) (wf : (model r).WellFormed) (hcut : CutBy plan r r') :
    Reachable root r' ∧ (model r').Restricts (model r) ∧
      ∀ j, (model r').colRange j = (model r).colRange j := by
  cases hcut with
  | none => exact ⟨hr, .refl wf, fun _ => rfl⟩
  | @row row lower i r' _ hadd =>
    refine ⟨hr.addRow hadd, ?_⟩
    have hmap := oracle.addRow r hr row lower
    rw [hadd, Simplex.map_addRow] at hmap
    obtain ⟨m, hm, heq⟩ := exists_ok_of_map hmap.symm
    obtain ⟨-, rfl⟩ := Prod.mk.inj heq
    exact Model.restricts_addRow wf hm

/-! ## Nodes that are taken -/

/-- The node stands for a model and knows its bound. -/
structure Subproblem.Known (model : R → Model Exact) (root : R) (node : Subproblem R Exact) :
    Prop where
  reachable : Reachable root node.model
  wellFormed : (model node.model).WellFormed
  bounded : node.Bounded model

/-- The bound that is found when the node is taken and solved, none without an optimum. -/
def Subproblem.relaxationBound? (node : Subproblem R Exact) : Option Exact :=
  if (Relaxation.solve node.model).1 = .optimal
  then some (Relaxation.objectiveValue (Relaxation.solve node.model).2) else none

namespace Subproblem

variable {node : Subproblem R Exact} {b : Exact}

theorem Known.hasBound (h : node.Known model root) (oracle : ExactThroughout model root)
    (hb : node.relaxationBound? = some b) : (model node.model).HasBound b := by
  unfold relaxationBound? at hb
  split at hb
  · rename_i hopt
    cases hb
    exact (oracle.exact _ h.reachable).hasBound_of_optimal hopt
  · cases hb

/-- A node that is no root was given its bound when it was made. -/
theorem Known.bound_eq (h : node.Known model root) (oracle : ExactThroughout model root)
    (hroot : node.isRoot = false) (hb : node.relaxationBound? = some b) : b = node.upperBound :=
  (h.hasBound oracle hb).unique (h.bounded.solved hroot) h.wellFormed

end Subproblem

theorem Incumbent.update_cases (i : Incumbent Exact) (b : Exact) (found : Found Exact) :
    i.update b found = i ∨ i.bestLowerBound < b ∧
      i.update b found = ⟨some found, b, i.history.push b⟩ := by
  unfold Incumbent.update Incumbent.improvedBy
  split
  · rename_i himproved
    exact .inr ⟨of_decide_eq_true himproved, rfl⟩
  · exact .inl rfl

/-- The children of a node are known, and no better than the node. -/
theorem Search.Disposes.known {plan : Plan Exact} {i i' : Incumbent Exact}
    {node : Subproblem R Exact} {fate : Fate} {children : List (Subproblem R Exact)}
    (h : Search.Disposes plan i node fate children i') (oracle : ExactThroughout model root)
    (htol : 0 ≤ plan.settings.integralityTol) (hnode : node.Known model root)
    {child : Subproblem R Exact} (hchild : child ∈ children) :
    child.Known model root ∧ child.isRoot = false ∧
      ∃ b, node.relaxationBound? = some b ∧ child.upperBound ≤ b := by
  cases h with
  | infeasible => cases hchild
  | integral => cases hchild
  | fathomed => cases hchild
  | @branched pick r first second hopt _ hpick hcut hdown hup =>
    have hexact := oracle.exact _ hnode.reachable
    have hsame := hexact.solve_model _ .root
    have wf := hnode.wellFormed
    obtain ⟨q, hsplits⟩ := hexact.picked htol hopt hpick
    rw [← hsame] at wf hsplits
    obtain ⟨hr, hrestr, hrange⟩ := oracle.cutBy hnode.reachable.solve wf hcut
    rw [← hrange] at hsplits
    obtain ⟨hfirst, hsecond, -⟩ :=
      (oracle.exact r hr).split hrestr.wellFormed hsplits hdown hup
    have hpart : child.Part model r := by
      rcases List.mem_pair.mp hchild with rfl | rfl
      · exact hfirst
      · exact hsecond
    have hb : node.relaxationBound?
        = some (Relaxation.objectiveValue (Relaxation.solve node.model).2) := if_pos hopt
    refine ⟨⟨hr.derived hpart.derived, hpart.restricts.wellFormed, hpart.bounded⟩,
      hpart.isRoot, _, hb, ?_⟩
    apply (hnode.hasBound oracle hb).mono hpart.bound
    rw [← hsame]
    exact hpart.restricts.trans hrestr

namespace Search

/-- The searches that a run from `root` comes to, with the nodes that it has taken so far. -/
inductive Takes (plan : Plan Exact) (root : R) :
    List (Subproblem R Exact) → Search R Exact → Prop where
  | start : Takes plan root [] (initial plan.settings root)
  | next {nodes : List (Subproblem R Exact)} {s : Search R Exact} {node : Subproblem R Exact}
      {k : Nat} {pool : NodePool R Exact} {notices : List (Notice Exact)} {p : Progress R Exact}
      (taken : Takes plan root nodes s)
      (takes : s.pool.take? plan.settings.nodeOrder.selector = some ((node, k), pool))
      (advances : s.advance plan = (notices, .ok p)) : Takes plan root (nodes ++ [node]) p.search

variable {plan : Plan Exact}

theorem Visits.takes {picks : List (Violation Exact)} {s : Search R Exact}
    (h : Visits plan root picks s) : ∃ nodes, Takes plan root nodes s := by
  induction h with
  | start => exact ⟨[], .start⟩
  | next _ hwaits hadvance ih =>
    obtain ⟨nodes, htaken⟩ := ih
    obtain ⟨node, k, pool, fate, children, htake, -⟩ := advance_disposes hwaits hadvance
    exact ⟨nodes ++ [node], htaken.next htake hadvance⟩

section Steps

variable {s : Search R Exact} {node : Subproblem R Exact} {k : Nat} {pool : NodePool R Exact}
  {notices : List (Notice Exact)} {p : Progress R Exact} {nodes : List (Subproblem R Exact)}

/-- What becomes of the node that is taken. -/
theorem advance_taken (htake : s.pool.take? plan.settings.nodeOrder.selector
      = some ((node, k), pool)) (h : s.advance plan = (notices, .ok p)) :
    ∃ fate children, Disposes plan s.incumbent node fate children p.search.incumbent ∧
      s.Iterates node fate children p.search := by
  have hwaits : s.pool.isEmpty = false := by
    obtain ⟨before, after, hwaiting, -⟩ := NodePool.take?_split htake
    rw [NodePool.isEmpty, Array.isEmpty_eq_false_iff]
    intro hempty
    rw [hempty] at hwaiting
    simp at hwaiting
  obtain ⟨node', k', pool', fate, children, htake', hdisposes, hstep⟩ := advance_disposes hwaits h
  cases htake.symm.trans htake'
  exact ⟨fate, children, hdisposes, hstep⟩

/-- The trace names the nodes taken. -/
theorem Takes.ids (h : Takes plan root nodes s) : s.takenIds = nodes.map Subproblem.id := by
  induction h with
  | start => rfl
  | next _ htake hadvance ih =>
    obtain ⟨fate, children, -, hstep⟩ := advance_taken htake hadvance
    rw [hstep.takenIds, ih, List.map_append]
    rfl

end Steps

/-- The bounds of the nodes taken never grow, those that wait are no better than any of them, and
the incumbent, once there is one, is one of them. -/
structure BestFirst (model : R → Model Exact) (root : R) (nodes : List (Subproblem R Exact))
    (s : Search R Exact) : Prop where
  known : ∀ node ∈ s.pool.waiting, node.Known model root
  alone : ∀ node ∈ s.pool.waiting, node.isRoot = true → nodes = [] ∧ s.pool.size = 1
  below : ∀ node ∈ s.pool.waiting, ∀ b ∈ nodes.filterMap Subproblem.relaxationBound?,
    node.upperBound ≤ b
  decreasing : (nodes.filterMap Subproblem.relaxationBound?).Pairwise fun b b' => b' ≤ b
  stored : ∀ node ∈ nodes, node.isRoot = false → ∀ b, node.relaxationBound? = some b →
    b = node.upperBound
  unset : s.incumbent.found = none → s.incumbent.history.size = 0
  set : s.incumbent.found.isSome = true → s.incumbent.history.size = 1 ∧
    s.incumbent.bestLowerBound ∈ nodes.filterMap Subproblem.relaxationBound?

theorem bestFirst_initial (settings : Settings Exact) (wf : (model root).WellFormed) :
    (initial settings root).BestFirst model root [] := by
  have hwaiting {node : Subproblem R Exact} (hnode : node ∈ (initial settings root).pool.waiting) :
      node = Subproblem.root 1 root := by
    simpa [initial, NodePool.push, NodePool.empty] using hnode
  constructor
  case known =>
    intro node hnode
    rw [hwaiting hnode]
    refine ⟨.root, wf, fun _ => rfl, ?_⟩
    intro hchild
    cases hchild
  case alone => exact fun _ _ _ => ⟨rfl, rfl⟩
  case below => exact fun _ _ _ hb => absurd hb List.not_mem_nil
  case decreasing => exact List.Pairwise.nil
  case stored => exact fun _ hnode => absurd hnode List.not_mem_nil
  case unset => exact fun _ => rfl
  case set => exact fun hfound => absurd hfound Bool.false_ne_true

namespace BestFirst

variable {nodes : List (Subproblem R Exact)} {s : Search R Exact} {node : Subproblem R Exact}
  {k : Nat} {pool : NodePool R Exact} {b : Exact}

/-- The bound of the node taken next is no better than those before it. -/
theorem bound_le (hs : s.BestFirst model root nodes) (oracle : ExactThroughout model root)
    (hnode : node ∈ s.pool.waiting) (hb : node.relaxationBound? = some b)
    {b' : Exact} (hb' : b' ∈ nodes.filterMap Subproblem.relaxationBound?) : b ≤ b' := by
  cases hroot : node.isRoot with
  | true =>
    rw [(hs.alone node hnode hroot).1] at hb'
    cases hb'
  | false =>
    rw [(hs.known node hnode).bound_eq oracle hroot hb]
    exact hs.below node hnode b' hb'

/-- A root waits alone: it leaves nothing behind when it is taken, and is not left behind. -/
theorem waits_on (hs : s.BestFirst model root nodes) {s' : Search R Exact} {fate : Fate}
    {children : List (Subproblem R Exact)} (hstep : s.Iterates node fate children s')
    {other : Subproblem R Exact} (hother : other ∈ s'.pool.waiting) :
    other ∈ children ∨
      other ∈ s.pool.waiting ∧ other.isRoot = false ∧ node.isRoot = false := by
  obtain ⟨before, after, hwaiting, hleft⟩ := hstep.pool
  rw [← Array.mem_toList_iff, hleft, List.mem_append] at hother
  rcases hother with hold | hnew
  · have hpooled : other ∈ s.pool.waiting := by
      rw [← Array.mem_toList_iff, hwaiting]
      rw [List.mem_append] at hold ⊢
      exact hold.imp id (List.mem_cons_of_mem _)
    -- With `other` and `node` there are two that wait.
    have hmany : s.pool.size ≠ 1 := by
      have hlength := List.length_pos_of_mem hold
      rw [List.length_append] at hlength
      rw [NodePool.size, ← Array.length_toList, hwaiting, List.length_append, List.length_cons]
      omega
    have hplain {w : Subproblem R Exact} (hw : w ∈ s.pool.waiting) : w.isRoot = false := by
      cases hroot : w.isRoot with
      | false => rfl
      | true => exact absurd (hs.alone w hw hroot).2 hmany
    exact .inr ⟨hpooled, hplain hpooled, hplain hstep.node_pooled⟩
  · exact .inl hnew

/-- The nodes that wait are no better than the node taken. -/
theorem others_le (hs : s.BestFirst model root nodes) (oracle : ExactThroughout model root)
    (htake : s.pool.take? NodeOrder.bestBound.selector = some ((node, k), pool))
    (hnode : node ∈ s.pool.waiting) (hroot : node.isRoot = false)
    (hb : node.relaxationBound? = some b) {other : Subproblem R Exact}
    (hother : other ∈ s.pool.waiting) : other.upperBound ≤ b := by
  rw [(hs.known node hnode).bound_eq oracle hroot hb]
  apply NodePool.take?_bestBound _ htake hother
  intro w hw
  exact (hs.known w hw).bounded.isNaN_eq (hs.known w hw).wellFormed.objective

/-- Once there is an incumbent, the node taken next is no better. -/
theorem bound_le_incumbent (hs : s.BestFirst model root nodes) (oracle : ExactThroughout model root)
    (hnode : node ∈ s.pool.waiting) (hb : node.relaxationBound? = some b)
    (hfound : s.incumbent.found.isSome = true) : b ≤ s.incumbent.bestLowerBound :=
  hs.bound_le oracle hnode hb (hs.set hfound).2

/-- Whatever becomes of the node, the incumbent is kept, or set for the first time. -/
theorem incumbent_cases (hs : s.BestFirst model root nodes) (oracle : ExactThroughout model root)
    (hnode : node ∈ s.pool.waiting) {fate : Fate} {children : List (Subproblem R Exact)}
    {i : Incumbent Exact} (h : Disposes plan s.incumbent node fate children i) :
    i = s.incumbent ∨ s.incumbent.found = none ∧ fate = .prunedIntegral ∧
      ∃ b found, node.relaxationBound? = some b ∧ found.node = node.id ∧
        i = ⟨some found, b, s.incumbent.history.push b⟩ := by
  cases h with
  | infeasible => exact .inl rfl
  | fathomed => exact .inl rfl
  | branched => exact .inl rfl
  | integral found hhere hopt =>
    have hb : node.relaxationBound?
        = some (Relaxation.objectiveValue (Relaxation.solve node.model).2) := if_pos hopt
    rcases s.incumbent.update_cases
        (Relaxation.objectiveValue (Relaxation.solve node.model).2) found with hkept | ⟨hlt, hset⟩
    · exact .inl hkept
    · refine .inr ⟨?_, rfl, _, found, hb, hhere, hset⟩
      cases hfound : s.incumbent.found with
      | none => rfl
      | some f =>
        have hle := hs.bound_le_incumbent oracle hnode hb (by rw [hfound]; rfl)
        exact absurd hlt (Exact.not_lt_of_le hle)

/-- An iteration that takes a node with a best bound keeps the order of the bounds. -/
theorem next (hs : s.BestFirst model root nodes) (oracle : ExactThroughout model root)
    (hbest : plan.settings.nodeOrder = .bestBound) (htol : 0 ≤ plan.settings.integralityTol)
    (htake : s.pool.take? plan.settings.nodeOrder.selector = some ((node, k), pool))
    {notices : List (Notice Exact)} {p : Progress R Exact}
    (h : s.advance plan = (notices, .ok p)) :
    p.search.BestFirst model root (nodes ++ [node]) := by
  obtain ⟨fate, children, hdisposes, hstep⟩ := advance_taken htake h
  rw [hbest] at htake
  have hnode := hstep.node_pooled
  have hknown := hs.known node hnode
  have hbounds (b : Exact) : b ∈ (nodes ++ [node]).filterMap Subproblem.relaxationBound? ↔
      b ∈ nodes.filterMap Subproblem.relaxationBound? ∨ node.relaxationBound? = some b := by
    simp only [List.filterMap_append, List.mem_append, List.mem_filterMap, List.mem_singleton,
      exists_eq_left]
  constructor
  case known =>
    intro w hw
    rcases hs.waits_on hstep hw with hnew | ⟨hold, -⟩
    · exact (hdisposes.known oracle htol hknown hnew).1
    · exact hs.known w hold
  case alone =>
    intro w hw hroot
    rcases hs.waits_on hstep hw with hnew | ⟨-, hplain, -⟩
    · rw [(hdisposes.known oracle htol hknown hnew).2.1] at hroot
      cases hroot
    · rw [hplain] at hroot
      cases hroot
  case below =>
    intro w hw b hb
    rcases hs.waits_on hstep hw with hnew | ⟨hold, -, hroot⟩
    · -- A child is no better than the node, which is no better than those taken before it.
      obtain ⟨-, -, c, hc, hle⟩ := hdisposes.known oracle htol hknown hnew
      rcases (hbounds b).mp hb with hb | hb
      · exact Exact.le_trans hle (hs.bound_le oracle hnode hc hb)
      · cases hc.symm.trans hb
        exact hle
    · rcases (hbounds b).mp hb with hb | hb
      · exact hs.below w hold b hb
      · exact hs.others_le oracle htake hnode hroot hb hold
  case decreasing =>
    rw [List.filterMap_append, List.pairwise_append]
    refine ⟨hs.decreasing, ?_, ?_⟩
    · cases hb : node.relaxationBound? with
      | none => simp [hb]
      | some b => simp [hb]
    · intro b hb c hc
      have hc' : node.relaxationBound? = some c := by simpa using hc
      exact hs.bound_le oracle hnode hc' hb
  case stored =>
    intro w hw hroot b hb
    rcases List.mem_append.mp hw with hw | hw
    · exact hs.stored w hw hroot b hb
    · rw [List.mem_singleton.mp hw] at hroot hb ⊢
      exact hknown.bound_eq oracle hroot hb
  case unset =>
    intro hnone
    rcases hs.incumbent_cases oracle hnode hdisposes with hkept | ⟨-, -, b, found, -, -, hset⟩
    · rw [hkept] at hnone ⊢
      exact hs.unset hnone
    · rw [hset] at hnone
      cases hnone
  case set =>
    intro hfound
    rcases hs.incumbent_cases oracle hnode hdisposes with hkept | ⟨hnone, -, b, found, hb, -, hset⟩
    · rw [hkept] at hfound ⊢
      obtain ⟨hsize, hmember⟩ := hs.set hfound
      exact ⟨hsize, (hbounds _).mpr (.inl hmember)⟩
    · rw [hset]
      refine ⟨?_, (hbounds b).mpr (.inr hb)⟩
      rw [Array.size_push, hs.unset hnone]

end BestFirst

/-- A node that is branched has an optimum that beats the incumbent. -/
theorem Disposes.of_branched {i i' : Incumbent Exact} {node : Subproblem R Exact}
    {children : List (Subproblem R Exact)} (h : Disposes plan i node .branched children i') :
    (Relaxation.solve node.model).1 = .optimal ∧
      i.dominates (Relaxation.objectiveValue (Relaxation.solve node.model).2)
        plan.settings.pruneTies = false := by
  cases h with
  | branched hopt hbetter => exact ⟨hopt, hbetter⟩

/-- After the node of the incumbent no node has been branched. -/
def Concluding (s : Search R Exact) : Prop :=
  ∀ f, s.incumbent.found = some f → ∃ before after,
    s.trace.toList = before ++ (f.node, .prunedIntegral) :: after ∧
      ∀ entry ∈ after, entry.2 ≠ .branched

/-- With ties pruned, no node is worth branching once there is an incumbent. -/
theorem Concluding.next {nodes : List (Subproblem R Exact)} {s : Search R Exact}
    {node : Subproblem R Exact} {k : Nat} {pool : NodePool R Exact} (hconcl : s.Concluding)
    (hs : s.BestFirst model root nodes) (oracle : ExactThroughout model root)
    (hties : plan.settings.pruneTies = true)
    (htake : s.pool.take? plan.settings.nodeOrder.selector = some ((node, k), pool))
    {notices : List (Notice Exact)} {p : Progress R Exact}
    (h : s.advance plan = (notices, .ok p)) : p.search.Concluding := by
  obtain ⟨fate, children, hdisposes, hstep⟩ := advance_taken htake h
  have hnode := hstep.node_pooled
  have hfate : s.incumbent.found.isSome = true → fate ≠ .branched := by
    rintro hfound rfl
    obtain ⟨hopt, hbetter⟩ := hdisposes.of_branched
    have hle := hs.bound_le_incumbent oracle hnode (if_pos hopt) hfound
    rw [Incumbent.dominates, hties, if_pos rfl, decide_eq_false_iff_not] at hbetter
    exact hbetter hle
  intro f hf
  rw [hstep.trace, Array.toList_push]
  rcases hs.incumbent_cases oracle hnode hdisposes with
    hkept | ⟨-, rfl, b, found, -, hhere, hset⟩
  · rw [hkept] at hf
    obtain ⟨front, back, heq, hback⟩ := hconcl f hf
    refine ⟨front, back ++ [(node.id, fate)], ?_, ?_⟩
    · rw [heq, List.append_assoc]
      rfl
    · intro entry hentry
      rcases List.mem_append.mp hentry with hentry | hentry
      · exact hback entry hentry
      · rw [List.mem_singleton.mp hentry]
        exact hfate (by rw [hf]; rfl)
  · rw [hset] at hf
    cases hf
    rw [hhere]
    exact ⟨s.trace.toList, [], rfl, fun _ hentry => absurd hentry List.not_mem_nil⟩

/-- The bounds stay in order wherever a search comes to. -/
theorem Takes.bestFirst {nodes : List (Subproblem R Exact)} {s : Search R Exact}
    (h : Takes plan root nodes s) (oracle : ExactThroughout model root)
    (wf : (model root).WellFormed) (hbest : plan.settings.nodeOrder = .bestBound)
    (htol : 0 ≤ plan.settings.integralityTol) :
    s.BestFirst model root nodes ∧ (plan.settings.pruneTies = true → s.Concluding) := by
  induction h with
  | start => exact ⟨bestFirst_initial plan.settings wf, fun _ _ hf => nomatch hf⟩
  | next _ htake hadvance ih =>
    obtain ⟨hs, hconcl⟩ := ih
    refine ⟨hs.next oracle hbest htol htake hadvance, ?_⟩
    intro hties
    exact (hconcl hties).next hs oracle hties htake hadvance

end Search

/-- Settings that a search accepts have a tolerance that is not negative. -/
theorem Settings.integralityTol_nonneg {settings : Settings Exact}
    (h : settings.validate = .ok ()) : 0 ≤ settings.integralityTol := by
  unfold Settings.validate at h
  split at h
  · cases h
  · split at h
    · cases h
    · rename_i hrange
      obtain ⟨hfin, hneg⟩ := not_or.mp hrange
      obtain ⟨q, hq⟩ := isFinite_iff.mp (Bool.not_eq_false _ ▸ hfin)
      rw [hq, zero_eq, fin_lt] at hneg
      rw [hq, zero_eq, fin_le]
      exact not_lt.mp hneg

/-- With the best bound first, the first incumbent is the last. Over an exact oracle, whatever the
branching rule, the tolerance and the cuts, the bounds of the nodes that a search takes and solves
to optimality never grow, and those of all nodes but the root are the bounds that these were given
when they were made. So the incumbent is set once at most, and with ties pruned no node is branched
after that. The result of every run is read off such a search. -/
theorem bestBound_first_incumbent (oracle : ExactThroughout model root)
    (built : (model root).Built) (plan : Plan Exact) (hvalid : plan.settings.validate = .ok ())
    (hbest : plan.settings.nodeOrder = .bestBound) :
    (∀ nodes s, Search.Takes plan root nodes s →
      s.takenIds = nodes.map Subproblem.id ∧
      (nodes.filterMap Subproblem.relaxationBound?).Pairwise (fun b b' => b' ≤ b) ∧
      (∀ node ∈ nodes, node.isRoot = false → ∀ b, node.relaxationBound? = some b →
        b = node.upperBound) ∧
      s.incumbent.history.size ≤ 1 ∧
      (plan.settings.pruneTies = true → ∀ f, s.incumbent.found = some f →
        ∃ before after, s.trace.toList = before ++ (f.node, .prunedIntegral) :: after ∧
          ∀ entry ∈ after, entry.2 ≠ .branched)) ∧
    ∀ (L : Type) [Link L] (around : Surroundings L) (telemetry : Telemetry L)
      (sol : Solution Exact), (branchAndCut plan around telemetry root).result = .ok sol →
      ∃ nodes s, Search.Takes plan root nodes s ∧ sol = Solution.ofSearch s sol.status := by
  constructor
  · intro nodes s htakes
    obtain ⟨hs, hconcl⟩ := htakes.bestFirst oracle built.wellFormed hbest
      (Settings.integralityTol_nonneg hvalid)
    refine ⟨htakes.ids, hs.decreasing, hs.stored, ?_, hconcl⟩
    cases hfound : s.incumbent.found with
    | none => exact (hs.unset hfound).le.trans (Nat.zero_le 1)
    | some f => exact (hs.set (by rw [hfound]; rfl)).1.le
  · intro L _ around telemetry sol hrun
    obtain ⟨picks, s, hvisits, hread⟩ := branchAndCut_visits hrun
    obtain ⟨nodes, htakes⟩ := hvisits.takes
    exact ⟨nodes, s, htakes, hread⟩

theorem OneColumn.exactThroughout {root : OneColumn} (h : Fits root.model) :
    ExactThroughout OneColumn.model root where
  exact _ hr := exactOracle (h.reachable hr)
  addRow r _ row lower := map_addRow r row lower

/-- The best bound first, with ties pruned and with cuts. -/
def bestBoundSettings : Settings Exact :=
  { plainSettings with nodeOrder := .bestBound, cutStrategy := .gomoryMixedInteger }

/-- The root is cut and branched at `5/2`; its first child has the incumbent 2, its second child no
point. -/
theorem bestBound_first_incumbent_capped :
    ∃ (sol : Solution Exact) (nodes : List (Subproblem OneColumn Exact)),
      (branchAndCut ⟨bestBoundSettings, CutPool.mostRecent⟩ .quiet Telemetry.disabled
        OneColumn.capped).result = .ok sol ∧ sol.tally.cutsInjected = 1 ∧
      nodes.map Subproblem.id = [1, 2, 3] ∧
      (nodes.filterMap Subproblem.relaxationBound?).Pairwise (fun b b' => b' ≤ b) ∧
      sol.boundHistory.size ≤ 1 ∧
      ∃ before after, sol.trace.toList = before ++ (2, .prunedIntegral) :: after ∧
        ∀ entry ∈ after, entry.2 ≠ .branched := by
  have hrun : (branchAndCut ⟨bestBoundSettings, CutPool.mostRecent⟩ .quiet Telemetry.disabled
      OneColumn.capped).result.map (fun sol =>
        (sol.tally.cutsInjected, sol.trace.toList.map Prod.fst, sol.incumbentNode))
      = .ok (1, [1, 2, 3], some 2) := by
    cbv
  obtain ⟨sol, hsol, heq⟩ := exists_ok_of_map hrun
  obtain ⟨hcuts, hids, hnode⟩ : sol.tally.cutsInjected = 1 ∧
      sol.trace.toList.map Prod.fst = [1, 2, 3] ∧ sol.incumbentNode = some 2 := by
    simpa using heq
  obtain ⟨htakes, hresult⟩ := bestBound_first_incumbent
    (OneColumn.exactThroughout OneColumn.fits_capped) OneColumn.built_capped
    ⟨bestBoundSettings, CutPool.mostRecent⟩ (by cbv) rfl
  obtain ⟨nodes, s, htaken, hread⟩ := hresult _ _ _ sol hsol
  obtain ⟨hnames, hdecreasing, -, hhistory, hconcl⟩ := htakes nodes s htaken
  rw [hread] at hids hnode
  obtain ⟨f, hf, hfnode⟩ := Option.map_eq_some_iff.mp hnode
  refine ⟨sol, nodes, hsol, hcuts, hnames.symm.trans hids, hdecreasing, ?_, ?_⟩
  · rw [hread]
    exact hhistory
  · rw [hread, ← hfnode]
    exact hconcl rfl f hf

end MixedInteger
