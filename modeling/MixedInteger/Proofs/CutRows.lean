import MixedInteger.Proofs.CutLedger
import MixedInteger.Proofs.CutSafety
import MixedInteger.Proofs.IterationCap

/-!
# The rows of open nodes

A cut becomes a row of the relaxation of the node where it is injected, and the children of that
node inherit it. So the rows of a node show the cuts of its ancestors, and no cut of another
subtree.

* `SearchTree.Lineage`: the ancestors of a node;
* `Model.ExtendedBy`: a model with cuts as its last rows;
* `Search.Rowed`, `Search.Visits.rowed`: the rows of the open nodes along a run;
* `cuts_accounted`: these and the books of the cuts.
-/

namespace MixedInteger

open Scalar

variable {α : Type}

/-- The ancestors of a node, the root of the tree first. -/
inductive SearchTree.Lineage (t : SearchTree) : NodeId → List NodeId → Prop where
  | root {id : NodeId} (top : t.parent? id = none) : Lineage t id []
  | child {id parent : NodeId} {path : List NodeId} (below : t.parent? id = some parent)
      (line : Lineage t parent path) : Lineage t id (path ++ [parent])

namespace SearchTree.Lineage

variable {t t' : SearchTree} {id : NodeId} {path : List NodeId}

/-- A node has one lineage. -/
theorem unique (h : t.Lineage id path) {other : List NodeId} (h' : t.Lineage id other) :
    other = path := by
  induction h generalizing other with
  | root top =>
    cases h' with
    | root _ => rfl
    | child below _ => cases top.symm.trans below
  | child below _ ih =>
    cases h' with
    | root top => cases top.symm.trans below
    | child below' line' =>
      cases below.symm.trans below'
      rw [ih line']

/-- A lineage depends on the parents of its nodes only. -/
theorem congr (h : t.Lineage id path)
    (hparent : ∀ k, k = id ∨ k ∈ path → t'.parent? k = t.parent? k) : t'.Lineage id path := by
  induction h with
  | root top => exact .root ((hparent _ (.inl rfl)).trans top)
  | child below _ ih =>
    refine .child ((hparent _ (.inl rfl)).trans below) (ih ?_)
    intro k hk
    apply hparent
    rw [List.mem_append, List.mem_singleton]
    exact .inr hk.symm

end SearchTree.Lineage

/-- The cuts that were injected at the nodes of a path. -/
def CutPool.cutsAlong (p : CutPool α) (path : List NodeId) : List (Cut α) :=
  path.filterMap fun id => p.injections.lookup id

section Along

variable {p p' : CutPool α} {id : NodeId} {injected : Option (Cut α)} {path : List NodeId}

/-- An injection at one node is none at another. -/
theorem CutPool.lookup_injections
    (h : p'.injections = p.injections ++ injected.toList.map fun cut => (id, cut)) (k : NodeId) :
    p'.injections.lookup k = (p.injections.lookup k).or (if k = id then injected else none) := by
  rw [h, List.lookup_append]
  congr 1
  cases injected with
  | none => simp
  | some cut =>
    by_cases hk : k = id
    · simp [hk]
    · have hne : (k == id) = false := beq_eq_false_iff_ne.mpr hk
      simp [List.lookup_cons, hne, hk]

theorem CutPool.cutsAlong_of_not_mem
    (h : p'.injections = p.injections ++ injected.toList.map fun cut => (id, cut))
    (hid : id ∉ path) : p'.cutsAlong path = p.cutsAlong path := by
  apply List.filterMap_congr
  intro k hk
  have hne : k ≠ id := fun heq => hid (heq ▸ hk)
  rw [lookup_injections h, if_neg hne, Option.or_none]

/-- Below the node of an injection there is one cut more. -/
theorem CutPool.cutsAlong_concat
    (h : p'.injections = p.injections ++ injected.toList.map fun cut => (id, cut))
    (hid : id ∉ path) (hfree : id ∉ p.injections.map Prod.fst) :
    p'.cutsAlong (path ++ [id]) = p.cutsAlong path ++ injected.toList := by
  have hnone : p.injections.lookup id = none := by
    rw [List.lookup_eq_none_iff]
    intro entry hentry
    have hne : id ≠ entry.1 := fun heq => hfree (heq ▸ List.mem_map_of_mem hentry)
    simpa using hne
  have hlast : p'.injections.lookup id = injected := by
    rw [lookup_injections h, hnone, if_pos rfl, Option.none_or]
  have hpath := cutsAlong_of_not_mem h hid
  unfold cutsAlong at hpath ⊢
  rw [List.filterMap_append, hpath]
  cases injected with
  | none => simp [hlast]
  | some cut => simp [hlast]

end Along

variable [Scalar α]

/-- The rows of the model are those of `root`, then the cuts, each bounded below. -/
structure Model.ExtendedBy (m root : Model α) (cuts : List (Cut α)) : Prop where
  lines : m.matrix.lines.toList
    = root.matrix.lines.toList ++ cuts.map fun cut => cut.coefficients.terms
  lower : m.rowLower.toList = root.rowLower.toList ++ cuts.map Cut.lowerBound
  upper : m.rowUpper.toList = root.rowUpper.toList ++ cuts.map fun _ => posInf

namespace Model.ExtendedBy

variable {m m' root : Model α} {cuts : List (Cut α)}

theorem numRows (h : m.ExtendedBy root cuts) : m.numRows = root.numRows + cuts.length := by
  have hlength := congrArg List.length h.lower
  rwa [List.length_append, List.length_map, Array.length_toList, Array.length_toList] at hlength

theorem setColBounds (h : m.ExtendedBy root cuts) {j : Nat} {lower upper : α}
    (hset : m.setColBounds j lower upper = .ok m') : m'.ExtendedBy root cuts := by
  obtain ⟨-, -, -, rfl⟩ := setColBounds_ok hset
  exact ⟨h.lines, h.lower, h.upper⟩

/-- A cut that is added as a row comes last. -/
theorem addCut (h : m.ExtendedBy root cuts) {cut : Cut α} {node : NodeId} (hcut : cut.MadeAt node)
    (hadd : m.addRow cut.coefficients.terms cut.lowerBound posInf = .ok m') :
    m'.ExtendedBy root (cuts ++ [cut]) := by
  obtain ⟨-, -, rfl⟩ := addRow_ok hadd
  constructor
  · rw [Matrix.lines_appendLine, Array.toList_push, h.lines, List.map_append, List.append_assoc]
    change _ ++ (_ ++ [Sparse.normalize cut.coefficients.terms]) = _
    rw [hcut.stored]
    rfl
  · rw [Array.toList_push, h.lower, List.map_append, List.append_assoc]
    rfl
  · rw [Array.toList_push, h.upper, List.map_append, List.append_assoc]
    rfl

end Model.ExtendedBy

namespace Search

/-- Every waiting node has the rows of the root and then the cuts that were injected at its
ancestors. -/
def Rowed (root : Model α) (s : Search (Simplex α) α) : Prop :=
  ∀ node ∈ s.pool.waiting, ∃ path, s.tree.Lineage node.id path ∧ path ⊆ s.branchedIds ∧
    node.model.model.ExtendedBy root (s.cuts.cutsAlong path)

section Rows

variable {plan : Plan α} {root : Model α} {s s' : Search (Simplex α) α}
  {node child : Subproblem (Simplex α) α} {picks : List (Violation α)}

theorem narrows_extendedBy {r : Simplex α} {change : BoundChange α} (h : child.Narrows r change)
    {cuts : List (Cut α)} (hr : r.model.ExtendedBy root cuts) :
    child.model.model.ExtendedBy root cuts := by
  obtain ⟨moved, hmove, hmodel, -⟩ := h.moved
  obtain ⟨lower, upper, hset⟩ := Simplex.setBound_ok hmove
  rw [hmodel]
  exact hr.setColBounds hset

/-- After a round of cuts the relaxation has the injected cut as its last row. -/
theorem CutRound.extendedBy {id : NodeId} {r r' : Simplex α} {injected : Option (Cut α)}
    (h : s.CutRound id r s' injected r') {cuts : List (Cut α)}
    (hr : r.model.ExtendedBy root cuts) :
    r'.model.ExtendedBy root (cuts ++ injected.toList) := by
  cases h with
  | idle made cuts generator generated injected =>
    rw [Option.toList_none, List.append_nil]
    exact hr
  | injects others_made cut_made admitted cuts generator generated injected added =>
    exact hr.addCut cut_made (Simplex.addRow_ok added)

/-- The lineage of a node that was waiting before an iteration is the same after it. -/
theorem Ledger.lineage (hs : s.Ledger picks) {fate : Fate}
    {children : List (Subproblem (Simplex α) α)} (hstep : s.Iterates node fate children s')
    {other : Subproblem (Simplex α) α} (hother : other ∈ s.pool.waiting) {path : List NodeId}
    (hpath : path ⊆ s.branchedIds) (h : s.tree.Lineage other.id path) :
    s'.tree.Lineage other.id path := by
  apply h.congr
  rintro k (rfl | hk)
  · exact hs.filed.parent?_iterates hstep ((hs.filed.pooled _).mp (mem_ids hother)).1
  · exact hs.filed.parent?_iterates hstep
      (hs.filed.takenKnown k (branchedIds_subset (hpath hk)))

theorem rowed_initial {settings : Settings α} {solver : Simplex α} :
    (initial settings solver).Rowed solver.model := by
  intro node hnode
  have hroot : node = Subproblem.root 1 solver := by
    simpa [initial, NodePool.push, NodePool.empty] using hnode
  subst hroot
  refine ⟨[], .root ?_, List.nil_subset _, ?_⟩
  · have hget : (initial settings solver).tree.get? 1 = some (TreeNode.root 1) := get?_initial 1
    exact SearchTree.parent?_eq hget
  · exact ⟨(List.append_nil _).symm, (List.append_nil _).symm, (List.append_nil _).symm⟩

theorem Rowed.pruned (hs : s.Rowed root) (hledger : s.Ledger picks) {fate : Fate}
    (hfate : fate ≠ .branched) (hstep : s.Iterates node fate [] s') (hsame : s.SameCuts s') :
    s'.Rowed root := by
  intro other hother
  have hold := (hstep.mem_waiting hother).resolve_right List.not_mem_nil
  obtain ⟨path, hline, hpath, hrows⟩ := hs other hold
  refine ⟨path, hledger.lineage hstep hold hpath hline, ?_, ?_⟩
  · rw [hstep.branchedIds, if_neg hfate, List.append_nil]
    exact hpath
  · rw [hsame.cuts]
    exact hrows

/-- The children of a branched node have its rows and the cut that was injected there. -/
theorem Rowed.branched (hs : s.Rowed root) (hledger : s.Ledger picks) (hbooks : s.CutBooks)
    {first second : Subproblem (Simplex α) α}
    (hstep : s.Iterates node .branched [first, second] s') {injected : Option (Cut α)}
    {r₁ : Simplex α} (hround : s.CutRound node.id (Relaxation.solve node.model).2 s' injected r₁)
    {down up : BoundChange α} (hdown : first.Narrows r₁ down) (hup : second.Narrows r₁ up) :
    s'.Rowed root := by
  have hfresh := hledger.not_branched hstep
  have hids : s'.branchedIds = s.branchedIds ++ [node.id] := by
    rw [hstep.branchedIds, if_pos rfl]
  have hmem : node.id ∈ s.branchedIds ++ [node.id] :=
    List.mem_append_right _ List.mem_cons_self
  have hinjections :=
    hround.injections (hbooks.kept.mono (List.subset_append_left _ _)) hmem
  intro other hother
  rcases hstep.mem_waiting hother with hold | hnew
  · obtain ⟨path, hline, hpath, hrows⟩ := hs other hold
    refine ⟨path, hledger.lineage hstep hold hpath hline, ?_, ?_⟩
    · rw [hids]
      exact List.subset_append_of_subset_left _ hpath
    · rw [CutPool.cutsAlong_of_not_mem hinjections fun h => hfresh (hpath h)]
      exact hrows
  · obtain ⟨path, hline, hpath, hrows⟩ := hs node hstep.node_pooled
    have hparent : s'.tree.parent? other.id = some node.id := by
      obtain ⟨n, -, -, hrecords⟩ := (hstep.tree hledger.filed.indexed).parent
      rw [SearchTree.parent?_eq (hrecords _ (List.mem_map_of_mem hnew))]
    refine ⟨path ++ [node.id], ?_, ?_, ?_⟩
    · exact .child hparent (hledger.lineage hstep hstep.node_pooled hpath hline)
    · rw [hids]
      exact List.append_subset.mpr ⟨List.subset_append_of_subset_left _ hpath,
        List.subset_append_right _ _⟩
    · rw [CutPool.cutsAlong_concat hinjections (fun h => hfresh (hpath h))
        (hbooks.not_injected hfresh)]
      have hcut := hround.extendedBy (r := (Relaxation.solve node.model).2) hrows
      rcases List.mem_pair.mp hnew with rfl | rfl
      · exact narrows_extendedBy hdown hcut
      · exact narrows_extendedBy hup hcut

theorem Visits.rowed (hselect : plan.cutSelector = CutPool.mostRecent) {solver : Simplex α}
    (h : Visits plan solver picks s) : s.Rowed solver.model := by
  induction h with
  | start => exact rowed_initial
  | next hvisited hwaits hadvance ih =>
    rcases advance_round hselect hwaits hadvance with ⟨node, fate, hfate, hstep, hsame⟩ |
      ⟨node, injected, r₁, _, _, first, second, hstep, hround, hdown, hup⟩
    · exact ih.pruned hvisited.ledger hfate hstep hsame
    · exact ih.branched hvisited.ledger (hvisited.cutBooks hselect) hstep hround hdown hup

end Rows

end Search

/-- The books of the cuts at the head of every iteration and at the end of a run, whatever the
oracle answers and whether or not there are cuts. The pool and all counters agree, no cut is
injected twice, and each iteration injects at most one cut, which names the node that the iteration
branches. Over the simplex solver every open node has the rows of the root and below them, in the
order of its ancestors, the cuts that were injected at these, and no other row. -/
theorem cuts_accounted (plan : Plan α) (hselect : plan.cutSelector = CutPool.mostRecent) :
    (∀ (R : Type) [Relaxation R α] (root : R) (picks : List (Violation α)) (s : Search R α),
      Search.Visits plan root picks s → s.CutBooks ∧
        ∀ notices p, s.pool.isEmpty = false → s.advance plan = (notices, .ok p) →
          ∃ node fate, s.InjectsHere node fate p.search) ∧
    ∀ (root : Simplex α) (picks : List (Violation α)) (s : Search (Simplex α) α),
      Search.Visits plan root picks s → ∀ node ∈ s.pool.waiting,
        ∃ path, s.tree.Lineage node.id path ∧
          (∀ other, s.tree.Lineage node.id other → other = path) ∧
          node.model.model.numRows = root.model.numRows
            + path.countP (fun id => (s.cuts.injections.lookup id).isSome) ∧
          node.model.model.ExtendedBy root.model (s.cuts.cutsAlong path) := by
  constructor
  · intro R _ root picks s hvisits
    have hbooks := hvisits.cutBooks hselect
    refine ⟨hbooks, fun notices p hwaits hadvance => ?_⟩
    exact (hbooks.advance hselect hvisits.ledger hwaits hadvance).2
  · intro root picks s hvisits node hnode
    obtain ⟨path, hline, -, hrows⟩ := hvisits.rowed hselect node hnode
    refine ⟨path, hline, fun other => hline.unique, ?_, hrows⟩
    rw [hrows.numRows, CutPool.cutsAlong, List.length_filterMap_eq_countP]

/-- The largest `x₀ + 3 x₁` with `2 x₀ + 4 x₁ ≤ 5` over the integers. -/
def bag : Simplex Exact := .ofModel
  { objective := #[1, .fin 3]
    matrix := ⟨1, 2, .byRow, #[[(0, .fin 2), (1, .fin 4)]]⟩
    rowLower := #[.negInf]
    rowUpper := #[.fin 5]
    colLower := #[0, 0]
    colUpper := #[.posInf, .posInf]
    kinds := #[.integer, .integer] }

/-- After two branched nodes, 1 and its child 2, the other child 3 has the cut of one of them and
the children 4 and 5 of node 2 have those of both. -/
theorem cuts_accounted_bag : ∃ (picks : List (Violation Exact)) (s : Search (Simplex Exact) Exact),
    Search.Visits ⟨cutSettings, CutPool.mostRecent⟩ bag picks s ∧ s.CutBooks ∧
    s.cuts.totalInjected = 2 ∧
    (s.pool.waiting.toList.map fun node => (node.id, node.model.model.numRows))
      = [(3, 2), (4, 3), (5, 3)] ∧
    ∀ node ∈ s.pool.waiting, ∃ path, s.tree.Lineage node.id path ∧
      node.model.model.ExtendedBy bag.model (s.cuts.cutsAlong path) := by
  have hrun : (Search.after ⟨cutSettings, CutPool.mostRecent⟩ bag 2).map (fun p =>
      (p.search.tally.cutsInjected, p.search.pool.waiting.toList.map
        fun (node : Subproblem (Simplex Exact) Exact) => (node.id, node.model.model.numRows)))
      = .ok (2, [(3, 2), (4, 3), (5, 3)]) := by
    cbv
  obtain ⟨p, hafter, heq⟩ := exists_ok_of_map hrun
  obtain ⟨hinjected, hrows⟩ := Prod.mk.inj heq
  obtain ⟨picks, hvisits⟩ := Search.after_visits hafter
  obtain ⟨hbooks, hopen⟩ := cuts_accounted ⟨cutSettings, CutPool.mostRecent⟩ rfl
  have hs := (hbooks _ bag picks p.search hvisits).1
  refine ⟨picks, p.search, hvisits, hs, hs.injected.symm.trans hinjected, hrows, ?_⟩
  intro node hnode
  obtain ⟨path, hline, -, -, hextended⟩ := hopen bag picks p.search hvisits node hnode
  exact ⟨path, hline, hextended⟩

end MixedInteger
