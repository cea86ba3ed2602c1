import Mathlib.Data.List.Nodup
import MixedInteger.Proofs.TreeRecords

/-!
# The shape of a search tree

Calls may come in any order and with any ids; one that does not fit fails. A tree records the same
facts in three places: the slots, the index, and the lists of children. They never disagree, and
what is recorded of a node stays: its slot, its parent, its depth and the children it has.

* `SearchTree.Call`, `SearchTree.perform`: what can be asked of a tree, failures included;
* `SearchTree.Call.Fits`: the calls that succeed;
* `SearchTree.WellFormed`: the invariant, `SearchTree.wellFormed_performAll`: it holds;
* `SearchTree.Enters`: what a call does to the records;
* `SearchTree.performAll_records`: what every reachable tree shows.
-/

namespace MixedInteger

namespace SearchTree

/-! ## Calls -/

/-- What can be asked of a tree. -/
inductive Call where
  | insertRoot (id : NodeId)
  | insertChild (parent id : NodeId)
  | mark (id : NodeId) (m : Mark)
  deriving DecidableEq, Repr

/-- A root fits into an empty tree, and a child with a new id below a node that is there. -/
def Call.Fits (t : SearchTree) : Call → Prop
  | .insertRoot _ => t.nodes = #[]
  | .insertChild parent id => t.contains parent = true ∧ t.contains id = false
  | .mark id _ => t.contains id = true

/-- The id of the record that a call adds. -/
def Call.newId? : Call → Option NodeId
  | .insertRoot id | .insertChild _ id => some id
  | .mark _ _ => none

def attempt (t : SearchTree) : Call → Except TreeError SearchTree
  | .insertRoot id => t.insertRoot id
  | .insertChild parent id => t.insertChild parent id
  | .mark id m => t.mark id m

/-- The call as a change in place. -/
def Call.change : Call → Change TreeError SearchTree Unit
  | .insertRoot id => insertRootInPlace id
  | .insertChild parent id => insertChildInPlace parent id
  | .mark id m => markInPlace id m

/-- The tree after a call, also after one that fails. -/
def perform (t : SearchTree) (c : Call) : SearchTree := c.change.after t

def performAll (t : SearchTree) (calls : List Call) : SearchTree := calls.foldl perform t

theorem Call.change_eq (c : Call) :
    c.change = Change.atomic (fun t => t.attempt c) fun _ => () := by
  cases c with
  | insertRoot id => exact insertRootInPlace_eq id
  | insertChild parent id => exact insertChildInPlace_eq parent id
  | mark id m => exact markInPlace_eq id m

/-- A call that fails has written nothing. -/
theorem perform_eq (t : SearchTree) (c : Call) : t.perform c =
    match t.attempt c with
    | .ok t' => t'
    | .error _ => t := by
  unfold perform
  rw [c.change_eq, Change.after_atomic]
  cases t.attempt c <;> rfl

theorem performAll_eq_foldl (t : SearchTree) (calls : List Call) : t.performAll calls =
    calls.foldl (fun t c => match t.attempt c with
      | .ok t' => t'
      | .error _ => t) t := by
  unfold performAll
  congr 1
  funext t c
  exact perform_eq t c

variable {t t' : SearchTree} {id parent : NodeId} {slot : Nat} {c : Call}

theorem exists_attempt_iff : (∃ t', t.attempt c = .ok t') ↔ c.Fits t := by
  cases c with
  | insertRoot id =>
    simp only [attempt, insertRoot, Call.Fits, Array.isEmpty_iff]
    by_cases h : t.nodes = #[] <;> simp [h]
  | insertChild parent id =>
    constructor
    · rintro ⟨t', h⟩
      simp only [attempt, insertChild] at h
      split at h
      · cases h
      · rename_i hnew
        split at h
        · cases h
        · rename_i slot hslot
          rw [Call.Fits, contains, ← Std.HashMap.isSome_getElem?_eq_contains, hslot]
          exact ⟨rfl, Bool.eq_false_iff.mpr hnew⟩
    · rintro ⟨hparent, hnew⟩
      exact exists_insertChild hparent hnew
  | mark id m =>
    constructor
    · rintro ⟨t', h⟩
      simp only [attempt, mark] at h
      split at h
      · cases h
      · rename_i slot hslot
        rw [Call.Fits, contains, ← Std.HashMap.isSome_getElem?_eq_contains, hslot]
        rfl
    · intro h
      exact exists_mark h m

/-! ## What a call does to the records -/

/-- The ids of the records that name `id` as their parent, in the order of the records. -/
def childIds (records : List TreeNode) (id : NodeId) : List NodeId :=
  (records.filter fun n => n.parent = some id).map TreeNode.id

theorem childIds_append (records more : List TreeNode) (id : NodeId) :
    childIds (records ++ more) id = childIds records id ++ childIds more id := by
  simp [childIds]

theorem childIds_map {f : TreeNode → TreeNode} (records : List TreeNode)
    (hf : ∀ n, (f n).id = n.id ∧ (f n).parent = n.parent) (id : NodeId) :
    childIds (records.map f) id = childIds records id := by
  have hparent : (fun n : TreeNode => decide (n.parent = some id)) ∘ f
      = fun n => decide (n.parent = some id) := by
    funext n
    simp [hf]
  have hid : TreeNode.id ∘ f = TreeNode.id := funext fun n => (hf n).1
  simp [childIds, List.filter_map, hparent, hid]

/-- A new record that has its place in the tree. -/
structure Fresh (t : SearchTree) (a : TreeNode) : Prop where
  new : ∀ n ∈ t.nodes, n.id ≠ a.id
  childless : a.children = []
  top : a.parent = none → t.nodes = #[] ∧ a.depth = 0
  below : ∀ p, a.parent = some p → ∃ q ∈ t.nodes, q.id = p ∧ a.depth = q.depth + 1

/-- The records of `t'` are those of `t` and perhaps one more. Of the others, its parent lists it as
the last child, and marks may change. -/
structure Enters (t : SearchTree) (added : Option TreeNode) (t' : SearchTree) : Prop where
  indexed : t'.Indexed
  records : ∃ f : TreeNode → TreeNode, t'.nodes.toList = t.nodes.toList.map f ++ added.toList ∧
    ∀ n, (f n).id = n.id ∧ (f n).parent = n.parent ∧ (f n).depth = n.depth ∧
      (f n).children = n.children ++ childIds added.toList n.id
  fresh : ∀ a ∈ added, t.Fresh a

/-- As ids are unique, changing the record in a slot is changing the one with its id. -/
theorem toList_modify (ht : t.Indexed) (hslot : t.index[id]? = some slot)
    (f : TreeNode → TreeNode) :
    (t.nodes.modify slot f).toList = t.nodes.toList.map fun n => if n.id = id then f n else n := by
  apply List.ext_getElem?
  intro i
  rw [Array.getElem?_toList, Array.getElem?_modify, List.getElem?_map, Array.getElem?_toList]
  cases hn : t.nodes[i]? with
  | none => simp
  | some n =>
    have hid : n.id = id ↔ slot = i := by
      have h := ht id i
      rw [hn, hslot] at h
      simpa [eq_comm] using h.symm
    by_cases hi : slot = i
    · simp [hi, hid.mpr hi]
    · simp [hi, mt hid.mp hi]

theorem Indexed.not_mem (ht : t.Indexed) (hnew : t.contains id = false) :
    ∀ n ∈ t.nodes, n.id ≠ id := by
  rintro n hn rfl
  obtain ⟨slot, hlt, hslot⟩ := Array.getElem_of_mem hn
  have hindex : t.index[n.id]? = some slot := by
    rw [ht, Array.getElem?_eq_getElem hlt, hslot]
    rfl
  rw [contains, ← Std.HashMap.isSome_getElem?_eq_contains, hindex] at hnew
  cases hnew

theorem Indexed.nodup_ids (ht : t.Indexed) : (t.nodes.toList.map TreeNode.id).Nodup := by
  apply List.nodup_iff_getElem?_ne_getElem?.mpr
  intro i j hij hj heq
  have hids (slot : Nat) :
      (t.nodes.toList.map TreeNode.id)[slot]? = t.nodes[slot]?.map TreeNode.id := by
    rw [List.getElem?_map, Array.getElem?_toList]
  obtain ⟨id, hid⟩ : ∃ id, t.nodes[j]?.map TreeNode.id = some id :=
    ⟨_, (hids j).symm.trans (List.getElem?_eq_getElem hj)⟩
  have hi := (ht id i).mpr ((hids i).symm.trans (heq.trans ((hids j).trans hid)))
  have hj := (ht id j).mpr hid
  rw [hi, Option.some.injEq] at hj
  omega

/-- A call that succeeds adds the root, or a child, or nothing. -/
theorem attempt_enters (ht : t.Indexed) (h : t.attempt c = .ok t') :
    ∃ added, t.Enters added t' ∧ added.map TreeNode.id = c.newId? := by
  cases c with
  | insertRoot id =>
    simp only [attempt, insertRoot] at h
    split at h
    · rename_i hempty
      cases h
      have hnodes : t.nodes = #[] := Array.isEmpty_iff.mp hempty
      have hnew : t.contains (TreeNode.root id).id = false := by
        rw [Bool.eq_false_iff]
        intro hmem
        obtain ⟨slot, hslot⟩ := exists_slot hmem
        obtain ⟨n, hn, -⟩ := ht.record hslot
        simp [hnodes] at hn
      refine ⟨some (.root id), ⟨(indexed_push ht _ hnew).1, ⟨fun n => n, ?_, ?_⟩, ?_⟩, rfl⟩
      · simp [push]
      · intro n
        simp [childIds, TreeNode.root]
      · rintro a ⟨⟩
        exact ⟨ht.not_mem hnew, rfl, fun _ => ⟨hnodes, rfl⟩, by simp [TreeNode.root]⟩
    · cases h
  | insertChild parent id =>
    obtain ⟨p, hp, -, hindexed, -⟩ := insertChild_ok ht h
    simp only [attempt, insertChild] at h
    split at h
    · cases h
    · rename_i hnew
      split at h
      · cases h
      · rename_i slot hslot
        cases h
        obtain ⟨q, hq, -, hid⟩ := ht.record hslot
        simp only [hq, Option.map_some, Option.getD_some] at hindexed ⊢
        rw [Bool.not_eq_true] at hnew
        refine ⟨some ⟨id, some parent, [], q.depth + 1, .unmarked⟩, ⟨hindexed,
          ⟨fun n => if n.id = parent then { n with children := n.children ++ [id] } else n,
            ?_, ?_⟩, ?_⟩, rfl⟩
        · simp [push, ← toList_modify ht hslot]
        · intro n
          by_cases hn : n.id = parent
          · simp [hn, childIds]
          · simp [hn, childIds, Ne.symm hn]
        · rintro a ⟨⟩
          constructor
          case new => exact ht.not_mem hnew
          case childless => rfl
          case top =>
            intro htop
            cases htop
          case below =>
            rintro p ⟨⟩
            exact ⟨q, Array.mem_of_getElem? hq, hid, rfl⟩
  | mark id m =>
    obtain ⟨-, -, hindexed, -⟩ := mark_ok ht h
    simp only [attempt, mark] at h
    split at h
    · cases h
    · rename_i slot hslot
      cases h
      refine ⟨none, ⟨hindexed, ⟨fun n => if n.id = id then { n with mark := m } else n, ?_, ?_⟩,
        ?_⟩, rfl⟩
      · simp [← toList_modify ht hslot]
      · intro n
        by_cases hn : n.id = id <;> simp [hn, childIds]
      · intro a ha
        cases ha

namespace Enters

variable {added : Option TreeNode} {n n' : TreeNode}

/-- A record keeps its slot, and the new record is the only child that it may get. -/
theorem kept (h : t.Enters added t') (hn : t.nodes[slot]? = some n) :
    ∃ n', t'.nodes[slot]? = some n' ∧ n'.id = n.id ∧ n'.parent = n.parent ∧ n'.depth = n.depth ∧
      n'.children = n.children ++ childIds added.toList n.id := by
  obtain ⟨f, hnodes, hf⟩ := h.records
  have hlt : slot < (t.nodes.toList.map f).length := by
    simpa using (Array.getElem?_eq_some_iff.mp hn).1
  refine ⟨f n, ?_, hf n⟩
  rw [← Array.getElem?_toList, hnodes, List.getElem?_append_left hlt, List.getElem?_map,
    Array.getElem?_toList, hn]
  rfl

/-- A record was there before, or it is the new one and comes after the others. -/
theorem old_or_new (h : t.Enters added t') (hn' : t'.nodes[slot]? = some n') :
    (∃ n, t.nodes[slot]? = some n ∧ n'.id = n.id ∧ n'.parent = n.parent ∧ n'.depth = n.depth ∧
      n'.children = n.children ++ childIds added.toList n.id) ∨
    (added = some n' ∧ slot = t.nodes.size) := by
  by_cases hslot : slot < t.nodes.size
  · obtain ⟨n'', hn'', hsame⟩ := h.kept (Array.getElem?_eq_getElem hslot)
    rw [hn', Option.some.injEq] at hn''
    exact .inl ⟨_, Array.getElem?_eq_getElem hslot, hn'' ▸ hsame⟩
  · obtain ⟨f, hnodes, -⟩ := h.records
    have hle : (t.nodes.toList.map f).length ≤ slot := by simpa using hslot
    rw [← Array.getElem?_toList, hnodes, List.getElem?_append_right hle, List.length_map,
      Array.length_toList] at hn'
    cases added with
    | none => simp at hn'
    | some a =>
      rw [Option.toList_some, List.getElem?_singleton] at hn'
      split at hn'
      · exact .inr ⟨hn', by omega⟩
      · cases hn'

theorem childIds_eq (h : t.Enters added t') (id : NodeId) :
    childIds t'.nodes.toList id = childIds t.nodes.toList id ++ childIds added.toList id := by
  obtain ⟨f, hnodes, hf⟩ := h.records
  rw [hnodes, childIds_append, childIds_map _ fun n => ⟨(hf n).1, (hf n).2.1⟩]

end Enters

/-! ## The invariant -/

/-- The index finds every record and nothing else. The first record is the only one without a
parent; the parent of every other one stands before it and is one level above it. A record lists
those as its children that name it as their parent, in the order in which they came. -/
structure WellFormed (t : SearchTree) : Prop where
  indexed : t.Indexed
  first : ∀ {slot : Nat} {n : TreeNode}, t.nodes[slot]? = some n → (n.parent = none ↔ slot = 0)
  ground : ∀ {slot : Nat} {n : TreeNode}, t.nodes[slot]? = some n → n.parent = none → n.depth = 0
  above : ∀ {slot : Nat} {n : TreeNode} {p : NodeId},
    t.nodes[slot]? = some n → n.parent = some p →
    ∃ up q, up < slot ∧ t.nodes[up]? = some q ∧ q.id = p ∧ n.depth = q.depth + 1
  children : ∀ {slot : Nat} {n : TreeNode},
    t.nodes[slot]? = some n → n.children = childIds t.nodes.toList n.id

theorem wellFormed_empty : empty.WellFormed where
  indexed := indexed_empty
  first := by simp [empty]
  ground := by simp [empty]
  above := by simp [empty]
  children := by simp [empty]

theorem childIds_eq_nil {records : List TreeNode} (h : ∀ n ∈ records, n.parent ≠ some id) :
    childIds records id = [] := by
  simpa [childIds] using h

namespace WellFormed

theorem parent_known (ht : t.WellFormed) {n : TreeNode} (hn : n ∈ t.nodes) {p : NodeId}
    (hp : n.parent = some p) : ∃ q ∈ t.nodes, q.id = p := by
  obtain ⟨slot, hslot⟩ := Array.getElem?_of_mem hn
  obtain ⟨up, q, -, hq, hid, -⟩ := ht.above hslot hp
  exact ⟨q, Array.mem_of_getElem? hq, hid⟩

theorem enters (ht : t.WellFormed) {added : Option TreeNode} (h : t.Enters added t') :
    t'.WellFormed := by
  constructor
  case indexed => exact h.indexed
  case first =>
    intro slot n' hn'
    rcases h.old_or_new hn' with ⟨n, hn, -, hparent, -, -⟩ | ⟨hadded, hslot⟩
    · rw [hparent]
      exact ht.first hn
    · have hfresh := h.fresh n' hadded
      rw [hslot]
      constructor
      · intro htop
        simp [(hfresh.top htop).1]
      · intro hzero
        cases hp : n'.parent with
        | none => rfl
        | some p =>
          obtain ⟨q, hq, -⟩ := hfresh.below p hp
          simp [Array.eq_empty_of_size_eq_zero hzero] at hq
  case ground =>
    intro slot n' hn' htop
    rcases h.old_or_new hn' with ⟨n, hn, -, hparent, hdepth, -⟩ | ⟨hadded, -⟩
    · rw [hdepth]
      exact ht.ground hn (hparent ▸ htop)
    · exact ((h.fresh n' hadded).top htop).2
  case above =>
    intro slot n' p hn' hp
    -- A record that is there stays in its slot, with its id and its depth.
    have stays {up : Nat} {q : TreeNode} (hq : t.nodes[up]? = some q) :
        ∃ q', t'.nodes[up]? = some q' ∧ q'.id = q.id ∧ q'.depth = q.depth := by
      obtain ⟨q', hq', hid, -, hdepth, -⟩ := h.kept hq
      exact ⟨q', hq', hid, hdepth⟩
    rcases h.old_or_new hn' with ⟨n, hn, -, hparent, hdepth, -⟩ | ⟨hadded, hslot⟩
    · obtain ⟨up, q, hup, hq, hid, hbelow⟩ := ht.above hn (hparent ▸ hp)
      obtain ⟨q', hq', hid', hdepth'⟩ := stays hq
      exact ⟨up, q', hup, hq', hid'.trans hid, by omega⟩
    · obtain ⟨q, hmem, hid, hbelow⟩ := (h.fresh n' hadded).below p hp
      obtain ⟨up, hq⟩ := Array.getElem?_of_mem hmem
      obtain ⟨q', hq', hid', hdepth'⟩ := stays hq
      have hup := (Array.getElem?_eq_some_iff.mp hq).1
      exact ⟨up, q', by omega, hq', hid'.trans hid, by omega⟩
  case children =>
    intro slot n' hn'
    rw [h.childIds_eq]
    rcases h.old_or_new hn' with ⟨n, hn, hid, -, -, hchildren⟩ | ⟨hadded, -⟩
    · rw [hchildren, hid, ht.children hn]
    · -- Nobody can have named the new record as a parent, itself included.
      have hfresh := h.fresh n' hadded
      have hold : childIds t.nodes.toList n'.id = [] := by
        apply childIds_eq_nil
        intro n hn hp
        obtain ⟨q, hq, hid⟩ := ht.parent_known (Array.mem_toList_iff.mp hn) hp
        exact hfresh.new q hq hid
      have hself : childIds added.toList n'.id = [] := by
        apply childIds_eq_nil
        intro n hn hp
        obtain rfl : n = n' := by simpa [hadded, eq_comm] using hn
        obtain ⟨q, hq, hid, -⟩ := hfresh.below _ hp
        exact hfresh.new q hq hid
      rw [hfresh.childless, hold, hself]
      rfl

theorem perform (ht : t.WellFormed) (c : Call) : (t.perform c).WellFormed := by
  rw [perform_eq]
  cases h : t.attempt c with
  | error e => exact ht
  | ok t' =>
    obtain ⟨added, henters, -⟩ := attempt_enters ht.indexed h
    exact ht.enters henters

theorem performAll (ht : t.WellFormed) (calls : List Call) : (t.performAll calls).WellFormed := by
  induction calls generalizing t with
  | nil => exact ht
  | cons c rest ih => exact ih (ht.perform c)

end WellFormed

/-- A tree that is built by calls, failed ones included, is well formed. -/
theorem wellFormed_performAll (calls : List Call) : (empty.performAll calls).WellFormed :=
  wellFormed_empty.performAll calls

/-! ## What a call leaves as it is -/

/-- Every record stays in its slot, with its id, its parent, its depth and its children in their
order. -/
def Keeps (t t' : SearchTree) : Prop :=
  ∀ (slot : Nat) (n : TreeNode), t.nodes[slot]? = some n → ∃ n', t'.nodes[slot]? = some n' ∧
    n'.id = n.id ∧ n'.parent = n.parent ∧ n'.depth = n.depth ∧ n.children <+: n'.children

theorem Enters.keeps {added : Option TreeNode} (h : t.Enters added t') : t.Keeps t' := by
  intro slot n hn
  obtain ⟨n', hn', hid, hparent, hdepth, hchildren⟩ := h.kept hn
  exact ⟨n', hn', hid, hparent, hdepth, hchildren ▸ List.prefix_append _ _⟩

theorem Enters.ids {added : Option TreeNode} (h : t.Enters added t') :
    t'.nodes.toList.map TreeNode.id
      = t.nodes.toList.map TreeNode.id ++ (added.map TreeNode.id).toList := by
  obtain ⟨f, hnodes, hf⟩ := h.records
  have hid : TreeNode.id ∘ f = TreeNode.id := funext fun n => (hf n).1
  rw [hnodes, List.map_append, List.map_map, hid]
  cases added <;> rfl

/-- What a tree shows after any calls, failed ones included. Ids are unique, and the index has the
slot of each and nothing else. The first record is the only one without a parent, at depth zero; the
parent of any other stands before it, one level above. A record lists as its children those that
name it as their parent, once each and in the order of their slots. The next call succeeds exactly
if it fits. If it fails, nothing changes; if not, records stay where and what they are, and the id
that is new comes after the others. -/
theorem performAll_records (calls : List Call) :
    let t := empty.performAll calls
    (t.nodes.toList.map TreeNode.id).Nodup ∧
    (∀ id slot, t.index[id]? = some slot ↔ t.nodes[slot]?.map TreeNode.id = some id) ∧
    (∀ slot n, t.nodes[slot]? = some n →
      (n.parent = none ↔ slot = 0) ∧ (n.parent = none → n.depth = 0) ∧
      (∀ p, n.parent = some p →
        ∃ up q, up < slot ∧ t.nodes[up]? = some q ∧ q.id = p ∧ n.depth = q.depth + 1) ∧
      n.children = (t.nodes.toList.filter fun c => c.parent = some n.id).map TreeNode.id ∧
      n.children.Nodup) ∧
    ∀ c, ((∃ t', t.attempt c = .ok t') ↔ c.Fits t) ∧
      (∀ e, t.attempt c = .error e → t.perform c = t) ∧
      ∀ t', t.attempt c = .ok t' → t.Keeps t' ∧
        t'.nodes.toList.map TreeNode.id
          = t.nodes.toList.map TreeNode.id ++ c.newId?.toList := by
  intro t
  have ht : t.WellFormed := wellFormed_performAll calls
  have hunique := ht.indexed.nodup_ids
  refine ⟨hunique, ht.indexed, ?_, ?_⟩
  · intro slot n hn
    have hchildren := ht.children hn
    refine ⟨ht.first hn, ht.ground hn, fun p => ht.above hn, hchildren, ?_⟩
    rw [hchildren]
    exact hunique.sublist (List.filter_sublist.map _)
  · intro c
    refine ⟨exists_attempt_iff, ?_, ?_⟩
    · intro e herror
      rw [perform_eq, herror]
    · intro t' hok
      obtain ⟨added, henters, hid⟩ := attempt_enters ht.indexed hok
      exact ⟨henters.keeps, hid ▸ henters.ids⟩

/-- Two calls come too early, three clash with what is there, and the others make a tree with the
root 7, its children 3 and 4, and 9 below 3. -/
def family : List Call :=
  [.insertChild 7 3, .mark 7 .prunedByBound, .insertRoot 7, .insertChild 7 7, .insertChild 7 3,
    .insertRoot 9, .insertChild 3 9, .insertChild 3 7, .insertChild 7 4, .mark 9 .prunedInfeasible]

theorem performAll_records_family : let t := empty.performAll family
    t.nodes.toList.map TreeNode.id = [7, 3, 9, 4] ∧ t.index[4]? = some 3 ∧
    t.attempt (.insertChild 9 4) = .error (.duplicate 4) ∧ t.perform (.insertChild 9 4) = t ∧
    ∃ t', t.attempt (.insertChild 9 1) = .ok t' ∧ t.Keeps t' ∧
      t'.nodes.toList.map TreeNode.id = [7, 3, 9, 4, 1] := by
  have hids : (empty.performAll family).nodes.toList.map TreeNode.id = [7, 3, 9, 4] := by
    rw [performAll_eq_foldl]
    cbv
  have hfails : (empty.performAll family).attempt (.insertChild 9 4) = .error (.duplicate 4) := by
    rw [performAll_eq_foldl]
    cbv
  have hfits : (Call.insertChild 9 1).Fits (empty.performAll family) := by
    rw [performAll_eq_foldl]
    exact ⟨by cbv, by cbv⟩
  have hlast : (empty.performAll family).nodes[3]?.map TreeNode.id = some 4 := by
    rw [performAll_eq_foldl]
    cbv
  obtain ⟨-, hindex, -, hcalls⟩ := performAll_records family
  obtain ⟨t', hok⟩ := (hcalls (.insertChild 9 1)).1.mpr hfits
  obtain ⟨hkeeps, hnew⟩ := (hcalls (.insertChild 9 1)).2.2 t' hok
  refine ⟨hids, (hindex 4 3).mpr hlast, hfails, (hcalls _).2.1 _ hfails, t', hok, hkeeps, ?_⟩
  rw [hnew, hids]
  rfl

end SearchTree

end MixedInteger
