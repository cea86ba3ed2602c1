import Mathlib
import MixedInteger.Proofs.TreeShape

/-!
# The listing of a search tree

A tree is listed by a loop over a stack of slots. In a well-formed tree the loop ends, after one
round for each record, and what it has listed is the pre-order: a node, then its children in the
order in which they came, each followed by all that hangs below it.

* `SearchTree.preorder`, `SearchTree.preorder_eq`: the pre-order from a node;
* `SearchTree.preorder_perm`: from the first node it has every record once;
* `SearchTree.Lists`: the loop without a limit, `SearchTree.lists_preorder`: what it lists;
* `SearchTree.listing_of_lists`: the loop with a limit does the same if the limit suffices;
* `SearchTree.render_preorder`: the text of a tree.
-/

namespace MixedInteger

namespace SearchTree

variable {t : SearchTree} {id : NodeId} {slot : Nat} {n : TreeNode}

/-! ## The pre-order -/

/-- The slot of an id, beyond the last one if there is none. -/
def slotOf (t : SearchTree) (id : NodeId) : Nat := (t.index[id]?).getD t.size

theorem get?_eq_some (h : t.get? id = some n) :
    t.index[id]? = some (t.slotOf id) ∧ t.nodes[t.slotOf id]? = some n := by
  obtain ⟨slot, hslot, hn⟩ := Option.bind_eq_some_iff.mp h
  simp [slotOf, hslot, hn]

namespace WellFormed

theorem get?_slot (ht : t.WellFormed) (hn : t.nodes[slot]? = some n) :
    t.get? n.id = some n ∧ t.slotOf n.id = slot := by
  have hslot : t.index[n.id]? = some slot := (ht.indexed n.id slot).mpr (by rw [hn]; rfl)
  exact ⟨(get?_eq_of_index hslot).trans hn, by rw [slotOf, hslot]; rfl⟩

/-- The parent of a record stands before it. -/
theorem slotOf_parent (ht : t.WellFormed) (hn : t.nodes[slot]? = some n) {p : NodeId}
    (hp : n.parent = some p) : t.slotOf p < slot := by
  obtain ⟨up, q, hup, hq, rfl, -⟩ := ht.above hn hp
  rw [(ht.get?_slot hq).2]
  exact hup

theorem mem_children (ht : t.WellFormed) (hn : t.nodes[slot]? = some n) {c : NodeId} :
    c ∈ n.children ↔ ∃ m ∈ t.nodes, m.parent = some n.id ∧ m.id = c := by
  simp [ht.children hn, childIds, and_assoc]

/-- A child has a record, which stands behind that of its parent. -/
theorem child (ht : t.WellFormed) (hn : t.get? id = some n) {c : NodeId} (hc : c ∈ n.children) :
    (∃ m, t.get? c = some m) ∧ t.slotOf id < t.slotOf c ∧ t.slotOf c < t.size := by
  obtain ⟨-, hslot⟩ := get?_eq_some hn
  obtain ⟨m, hm, hp, rfl⟩ := (ht.mem_children hslot).mp hc
  obtain ⟨below, hbelow⟩ := Array.getElem?_of_mem hm
  obtain ⟨hget, hsame⟩ := ht.get?_slot hbelow
  have hlt := ht.slotOf_parent hbelow hp
  rw [(ht.get?_slot hslot).2] at hlt
  rw [hsame]
  exact ⟨⟨m, hget⟩, hlt, (Array.getElem?_eq_some_iff.mp hbelow).1⟩

end WellFormed

/-- The record of an id, then its children in the order in which they came, each followed by all
that hangs below it. -/
def preorder (t : SearchTree) (ht : t.WellFormed) (id : NodeId) : List TreeNode :=
  match _h : t.get? id with
  | none => []
  | some n => n :: n.children.attach.flatMap fun c => preorder t ht c.1
termination_by t.size - t.slotOf id
decreasing_by
  -- A child stands behind its parent.
  obtain ⟨-, hbehind, hbound⟩ := ht.child ‹_› c.2
  omega

theorem preorder_eq (ht : t.WellFormed) (h : t.get? id = some n) :
    t.preorder ht id = n :: n.children.flatMap (t.preorder ht) := by
  rw [preorder]
  split
  · rename_i hnone
    rw [h] at hnone
    cases hnone
  · rename_i m hm
    obtain rfl : n = m := Option.some.inj (h.symm.trans hm)
    simp

/-! ## Every record once -/

section Once

variable {k : Nat}

/-- The record has no parent, or one that stands before slot `k`. -/
def hangsAbove (t : SearchTree) (k : Nat) (n : TreeNode) : Bool :=
  n.parent.all fun p => t.slotOf p < k

/-- The records behind slot `k` that hang below one that stands before it. Everything behind slot
`k` hangs below one of these. -/
def fringe (t : SearchTree) (k : Nat) : List NodeId :=
  ((t.nodes.toList.drop k).filter (t.hangsAbove k)).map TreeNode.id

theorem WellFormed.slotOf_eq_iff (ht : t.WellFormed) (hn : t.nodes[k]? = some n) {p : NodeId} :
    t.slotOf p = k ↔ p = n.id := by
  constructor
  · intro hslot
    have hk : k < t.size := (Array.getElem?_eq_some_iff.mp hn).1
    cases hindex : t.index[p]? with
    | none =>
      rw [slotOf, hindex] at hslot
      exact absurd hslot (Nat.ne_of_gt hk)
    | some slot =>
      rw [slotOf, hindex] at hslot
      obtain rfl : slot = k := hslot
      have hid := (ht.indexed p slot).mp hindex
      rw [hn] at hid
      exact (Option.some.inj hid).symm
  · rintro rfl
    exact (ht.get?_slot hn).2

/-- From one slot to the next, the children of the record that is passed join those that hang above,
and no others. -/
theorem WellFormed.hangsAbove_succ (ht : t.WellFormed) (hn : t.nodes[k]? = some n) (m : TreeNode) :
    t.hangsAbove (k + 1) m = (decide (m.parent = some n.id) || t.hangsAbove k m) ∧
      (m.parent = some n.id → t.hangsAbove k m = false) := by
  unfold hangsAbove
  cases hp : m.parent with
  | none => simp
  | some p =>
    have hsame := ht.slotOf_eq_iff hn (p := p)
    simp only [Option.all_some, Option.some.injEq, ← hsame]
    constructor
    · apply Bool.eq_iff_iff.mpr
      simp only [Bool.or_eq_true, decide_eq_true_eq]
      omega
    · intro hk
      simp [hk]

theorem drop_records (hn : t.nodes[k]? = some n) :
    t.nodes.toList.drop k = n :: t.nodes.toList.drop (k + 1) := by
  obtain ⟨hk, rfl⟩ := Array.getElem?_eq_some_iff.mp hn
  rw [List.drop_eq_getElem_cons hk, Array.getElem_toList]

/-- All that hangs directly below a record stands behind it. -/
theorem WellFormed.children_drop (ht : t.WellFormed) (hn : t.nodes[k]? = some n) :
    n.children = childIds (t.nodes.toList.drop (k + 1)) n.id := by
  have hbefore : childIds (t.nodes.toList.take (k + 1)) n.id = [] := by
    apply childIds_eq_nil
    intro m hm hp
    obtain ⟨slot, hslot⟩ := List.getElem?_of_mem hm
    rw [List.getElem?_take, Array.getElem?_toList] at hslot
    split at hslot
    · have hlt := ht.slotOf_parent hslot hp
      rw [(ht.get?_slot hn).2] at hlt
      omega
    · cases hslot
  have hsplit := childIds_append (t.nodes.toList.take (k + 1)) (t.nodes.toList.drop (k + 1)) n.id
  rwa [List.take_append_drop, hbefore, List.nil_append, ← ht.children hn] at hsplit

/-- Passing a record replaces it in the fringe by its children. -/
theorem WellFormed.fringe_succ (ht : t.WellFormed) (hn : t.nodes[k]? = some n) :
    ∃ rest, t.fringe k = n.id :: rest ∧ (n.children ++ rest).Perm (t.fringe (k + 1)) := by
  have hdrop := drop_records hn
  have hself : t.hangsAbove k n = true := by
    unfold hangsAbove
    cases hp : n.parent with
    | none => rfl
    | some p => simpa using ht.slotOf_parent hn hp
  generalize hlater : t.nodes.toList.drop (k + 1) = later at hdrop
  refine ⟨(later.filter (t.hangsAbove k)).map TreeNode.id, ?_, ?_⟩
  · rw [fringe, hdrop, List.filter_cons_of_pos hself]
    rfl
  · have hchildren : later.filter (fun m => decide (m.parent = some n.id))
        = (later.filter (t.hangsAbove (k + 1))).filter fun m => decide (m.parent = some n.id) := by
      rw [List.filter_filter]
      apply List.filter_congr
      intro m _
      rw [(ht.hangsAbove_succ hn m).1]
      cases decide (m.parent = some n.id) <;> rfl
    have hothers : later.filter (t.hangsAbove k)
        = (later.filter (t.hangsAbove (k + 1))).filter fun m => !decide (m.parent = some n.id) := by
      rw [List.filter_filter]
      apply List.filter_congr
      intro m _
      obtain ⟨hjoins, hnew⟩ := ht.hangsAbove_succ hn m
      rw [hjoins]
      by_cases hp : m.parent = some n.id
      · simp [hp, hnew hp]
      · simp [hp]
    rw [ht.children_drop hn, hlater, childIds, hchildren, hothers, ← List.map_append, fringe,
      hlater]
    exact (List.filter_append_perm _ _).map _

/-- What hangs below the fringe is all that stands behind the slot. -/
theorem WellFormed.preorder_fringe (ht : t.WellFormed) (k : Nat) :
    ((t.fringe k).flatMap (t.preorder ht)).Perm (t.nodes.toList.drop k) := by
  induction hleft : t.size - k generalizing k with
  | zero =>
    have hnil : t.nodes.toList.drop k = [] := by
      apply List.drop_eq_nil_of_le
      simp only [size, Array.length_toList] at hleft ⊢
      omega
    simp [fringe, hnil]
  | succ left ih =>
    have hk : k < t.nodes.size := by
      simp only [size] at hleft
      omega
    obtain ⟨n, hn⟩ : ∃ n, t.nodes[k]? = some n := ⟨_, Array.getElem?_eq_getElem hk⟩
    obtain ⟨rest, hfringe, hnext⟩ := ht.fringe_succ hn
    rw [hfringe, List.flatMap_cons, preorder_eq ht (ht.get?_slot hn).1, drop_records hn,
      List.cons_append, ← List.flatMap_append]
    exact ((hnext.flatMap_right _).trans (ih (k + 1) (by omega))).cons n

/-- From the first record the pre-order has every record once. -/
theorem preorder_perm (ht : t.WellFormed) {root : TreeNode} (hroot : t.root? = some root) :
    (t.preorder ht root.id).Perm t.nodes.toList := by
  have htop : root.parent = none := (ht.first hroot).mpr rfl
  have hothers : (t.nodes.toList.drop 1).filter (t.hangsAbove 0) = [] := by
    apply List.filter_eq_nil_iff.mpr
    intro m hm
    obtain ⟨i, hi⟩ := List.getElem?_of_mem hm
    rw [List.getElem?_drop, Array.getElem?_toList] at hi
    cases hp : m.parent with
    | none =>
      have hzero := (ht.first hi).mp hp
      omega
    | some p => simp [hangsAbove, hp]
  have hself : t.hangsAbove 0 root = true := by
    rw [hangsAbove, htop]
    rfl
  have hfringe : t.fringe 0 = [root.id] := by
    rw [fringe, drop_records hroot, List.filter_cons_of_pos hself, hothers]
    rfl
  have hperm := ht.preorder_fringe 0
  rwa [hfringe, List.flatMap_singleton, List.drop_zero] at hperm

end Once

/-! ## The loop -/

/-- The loop over a stack of slots, run to its end: each round takes a slot off the stack, lists its
record and puts the slots of its children in its place. -/
inductive Lists (t : SearchTree) : List Nat → List TreeNode → Prop where
  | done : Lists t [] []
  | round {slot : Nat} {stack : List Nat} {n : TreeNode} {rest : List TreeNode}
      (top : t.nodes[slot]? = some n)
      (next : Lists t (n.children.filterMap (t.index[·]?) ++ stack) rest) :
      Lists t (slot :: stack) (n :: rest)

theorem Lists.unique {stack : List Nat} {order order' : List TreeNode} (h : t.Lists stack order)
    (h' : t.Lists stack order') : order = order' := by
  induction h generalizing order' with
  | done =>
    cases h'
    rfl
  | round top next ih =>
    cases h' with
    | round top' next' =>
      rw [top, Option.some.injEq] at top'
      subst top'
      rw [ih next']

/-- The loop with a limit lists the same if there are no more records than it allows for. -/
theorem listing_of_lists {stack : List Nat} {order : List TreeNode} (h : t.Lists stack order)
    {count : Nat} (hcount : order.length ≤ count) : t.listing count stack = order.map line := by
  induction h generalizing count with
  | done => cases count <;> rfl
  | @round slot stack n rest top next ih =>
    cases count with
    | zero => simp at hcount
    | succ count =>
      have hrest : rest.length ≤ count := by simpa using hcount
      simp only [listing, top, ih hrest, List.map_cons]

/-- The loop ends. What it lists of the nodes on the stack is the pre-order from each of them. -/
theorem lists_preorder (ht : t.WellFormed) {ids : List NodeId}
    (hids : ∀ id ∈ ids, ∃ n, t.get? id = some n) :
    t.Lists (ids.filterMap (t.index[·]?)) (ids.flatMap (t.preorder ht)) := by
  -- Each round lists one record more, so there is one less to come.
  induction hlength : (ids.flatMap (t.preorder ht)).length generalizing ids with
  | zero =>
    cases ids with
    | nil => exact .done
    | cons id rest =>
      obtain ⟨n, hn⟩ := hids id List.mem_cons_self
      simp [preorder_eq ht hn] at hlength
  | succ left ih =>
    cases ids with
    | nil => cases hlength
    | cons id rest =>
      obtain ⟨⟨n, hn⟩, hrest⟩ := List.forall_mem_cons.mp hids
      obtain ⟨hindex, hslot⟩ := get?_eq_some hn
      have hchildren : ∀ c ∈ n.children ++ rest, ∃ m, t.get? c = some m := by
        intro c hc
        rcases List.mem_append.mp hc with hc | hc
        · exact (ht.child hn hc).1
        · exact hrest c hc
      rw [List.flatMap_cons, preorder_eq ht hn, List.cons_append, ← List.flatMap_append]
        at hlength ⊢
      have hnext := ih hchildren (Nat.succ.inj hlength)
      rw [List.filterMap_append] at hnext
      rw [List.filterMap_cons_some hindex]
      exact .round hslot hnext

/-! ## The text -/

/-- A line is indented by the depth of its node and has the mark at its end. -/
theorem toList_line (n : TreeNode) :
    (line n).toList = List.replicate n.depth ' ' ++ '-' :: Nat.toDigits 10 n.id
      ++ n.mark.suffix.toList ++ ['\n'] := by
  have htext (s : String) : toString s = s := rfl
  simp [line, htext]

theorem count_line (n : TreeNode) : (line n).toList.count '\n' = 1 := by
  have hdigits : '\n' ∉ Nat.toDigits 10 n.id := by
    intro hmem
    cases Nat.isDigit_of_mem_toDigits (by decide) (by decide) hmem
  have hsuffix : '\n' ∉ n.mark.suffix.toList := by
    cases n.mark <;> decide
  simp [toList_line, List.count_replicate, List.count_eq_zero_of_not_mem hdigits,
    List.count_eq_zero_of_not_mem hsuffix]

/-- Each record listed is a line of the text. -/
theorem count_lines (records : List TreeNode) :
    (String.join (records.map line)).toList.count '\n' = records.length := by
  induction records with
  | nil => rfl
  | cons n rest ih =>
    rw [String.toList_join] at ih ⊢
    rw [List.map_cons, List.flatMap_cons, List.count_append, count_line, ih, List.length_cons]
    omega

theorem render_eq (ht : t.WellFormed) {root : TreeNode} (hroot : t.root? = some root) :
    t.Lists [0] (t.preorder ht root.id) ∧
    t.render = legend ++ String.join ((t.preorder ht root.id).map line) := by
  obtain ⟨hget, hslot⟩ := ht.get?_slot hroot
  have hloop : t.Lists [0] (t.preorder ht root.id) := by
    have hknown : ∀ id ∈ [root.id], ∃ n, t.get? id = some n := by
      intro id hid
      rw [List.mem_singleton.mp hid]
      exact ⟨root, hget⟩
    have hlists := lists_preorder ht hknown
    have hindex := (get?_eq_some hget).1
    rw [hslot] at hindex
    rwa [List.filterMap_cons_some hindex, List.flatMap_singleton] at hlists
  have hlength : (t.preorder ht root.id).length ≤ t.size :=
    Nat.le_of_eq (preorder_perm ht hroot).length_eq
  have hsome : t.nodes.isEmpty = false := by
    have hpos := (Array.getElem?_eq_some_iff.mp hroot).1
    rw [Array.isEmpty_eq_false_iff]
    exact Array.ne_empty_of_size_pos hpos
  refine ⟨hloop, ?_⟩
  rw [render, hsome, ← listing_of_lists hloop hlength]
  rfl

/-- The text of a tree after any calls. The pre-order from a node is the node and then, child by
child in the order in which they came, the pre-order from each child. The loop over the stack ends
with just that, from the first node, and as many rounds as there are records are enough for it. So
the text is the legend and one line for each record, in this order and with every record once; the
line is indented by the depth of the node and has its mark at the end. -/
theorem render_preorder (calls : List Call) :
    let t := empty.performAll calls
    let order := t.preorder (wellFormed_performAll calls)
    (∀ id n, t.get? id = some n → order id = n :: n.children.flatMap order) ∧
    (∀ n, (line n).toList = List.replicate n.depth ' ' ++ '-' :: Nat.toDigits 10 n.id
      ++ n.mark.suffix.toList ++ ['\n']) ∧
    (t.root? = none → t.render = legend) ∧
    ∀ root, t.root? = some root →
      (∀ records, t.Lists [0] records ↔ records = order root.id) ∧
      (∀ count, t.size ≤ count → t.listing count [0] = (order root.id).map line) ∧
      t.render = legend ++ String.join ((order root.id).map line) ∧
      (order root.id).Perm t.nodes.toList ∧
      t.render.toList.count '\n' = t.size + 1 := by
  intro t order
  have ht : t.WellFormed := wellFormed_performAll calls
  refine ⟨fun id n h => preorder_eq ht h, toList_line, ?_, ?_⟩
  · intro hroot
    have hempty : t.nodes = #[] := by
      apply Array.eq_empty_of_size_eq_zero
      have hle := Array.getElem?_eq_none_iff.mp hroot
      omega
    have hlisting : t.listing t.size [] = [] := by
      cases t.size <;> rfl
    simp [render, hempty, hlisting]
  · intro root hroot
    obtain ⟨hloop, htext⟩ := render_eq ht hroot
    have hperm : (order root.id).Perm t.nodes.toList := preorder_perm ht hroot
    have hlength : (order root.id).length = t.size := hperm.length_eq
    refine ⟨?_, ?_, htext, hperm, ?_⟩
    · intro records
      constructor
      · intro h
        exact h.unique hloop
      · rintro rfl
        exact hloop
    · intro count hcount
      apply listing_of_lists hloop
      exact Nat.le_trans (Nat.le_of_eq hlength) hcount
    · have hlegend : legend.toList.count '\n' = 1 := by decide
      rw [htext, String.toList_append, List.count_append, hlegend, count_lines, Nat.add_comm]
      exact congrArg (· + 1) hlength

/-- Node 9 is listed below 3, before the other child of 7. -/
theorem render_preorder_family : ∃ root, (empty.performAll family).root? = some root ∧
    (empty.performAll family).render = legend ++ "-7\n -3\n  -9 F\n -4\n" ∧
    (∃ records, (empty.performAll family).Lists [0] records ∧
      records.Perm (empty.performAll family).nodes.toList) ∧
    (empty.performAll family).render.toList.count '\n' = 5 := by
  have hsize : (empty.performAll family).size = 4 := by
    rw [performAll_eq_foldl]
    cbv
  have hrender : (empty.performAll family).render = legend ++ "-7\n -3\n  -9 F\n -4\n" := by
    rw [performAll_eq_foldl]
    cbv
  obtain ⟨root, hroot⟩ : ∃ root, (empty.performAll family).root? = some root :=
    ⟨_, Array.getElem?_eq_getElem (by rw [← size, hsize]; decide)⟩
  obtain ⟨hloop, -, -, hperm, hlines⟩ := (render_preorder family).2.2.2 root hroot
  refine ⟨root, hroot, hrender, ⟨_, (hloop _).mpr rfl, hperm⟩, ?_⟩
  rw [hlines, hsize]

end SearchTree

end MixedInteger
