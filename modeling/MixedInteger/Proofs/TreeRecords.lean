import Mathlib.Data.List.Basic
import MixedInteger.Search.Tree

/-!
# Records of a search tree

A tree is an array of records with an index of their ids. While the index is right, the tree is a
function from ids to records, and each operation changes that function at one or two ids.

* `SearchTree.Indexed`: the index finds every record, and nothing else;
* `SearchTree.insertChild_ok`: a child is a new record, and its parent lists it last;
* `SearchTree.mark_ok`: a mark changes one record;
* `SearchTree.exists_insertChild`, `SearchTree.exists_mark`: when the tree accepts;
* `SearchTree.Grows`: what both together do when a node has been disposed of.
-/

namespace MixedInteger

namespace SearchTree

variable {t t' : SearchTree} {id parent : NodeId} {slot : Nat}

/-- The index gives the slot of each record under its id. -/
def Indexed (t : SearchTree) : Prop :=
  ∀ (id : NodeId) (slot : Nat),
    t.index[id]? = some slot ↔ t.nodes[slot]?.map TreeNode.id = some id

theorem get?_eq_of_index (hslot : t.index[id]? = some slot) : t.get? id = t.nodes[slot]? := by
  simp [get?, hslot]

theorem get?_eq_none_of_index (hslot : t.index[id]? = none) : t.get? id = none := by
  simp [get?, hslot]

theorem Indexed.record (h : t.Indexed) (hslot : t.index[id]? = some slot) :
    ∃ node, t.nodes[slot]? = some node ∧ t.get? id = some node ∧ node.id = id := by
  obtain ⟨node, hnode, hid⟩ := Option.map_eq_some_iff.mp ((h id slot).mp hslot)
  exact ⟨node, hnode, (get?_eq_of_index hslot).trans hnode, hid⟩

theorem Indexed.contains_iff (h : t.Indexed) :
    t.contains id = true ↔ ∃ node, t.get? id = some node := by
  rw [contains, ← Std.HashMap.isSome_getElem?_eq_contains, Option.isSome_iff_exists]
  constructor
  · rintro ⟨slot, hslot⟩
    obtain ⟨node, -, hget, -⟩ := h.record hslot
    exact ⟨node, hget⟩
  · rintro ⟨node, hget⟩
    obtain ⟨slot, hslot, -⟩ := Option.bind_eq_some_iff.mp hget
    exact ⟨slot, hslot⟩

theorem indexed_empty : empty.Indexed := by
  intro id slot
  simp [empty]

/-- A record with a new id is found under it, and the others as before. -/
theorem indexed_push (h : t.Indexed) (node : TreeNode) (hnew : t.contains node.id = false) :
    (t.push node).Indexed ∧
      ∀ k, (t.push node).get? k = if k = node.id then some node else t.get? k := by
  have hindex (k : NodeId) :
      (t.push node).index[k]? = if k = node.id then some t.nodes.size else t.index[k]? := by
    simp only [push, Std.HashMap.getElem?_insert, beq_iff_eq, @eq_comm _ node.id k]
  have hnodes (slot : Nat) :
      (t.push node).nodes[slot]? = if slot = t.nodes.size then some node else t.nodes[slot]? :=
    Array.getElem?_push
  have hfree : t.index[node.id]? = none := by
    rw [← Option.not_isSome_iff_eq_none, Std.HashMap.isSome_getElem?_eq_contains]
    exact Bool.eq_false_iff.mp hnew
  constructor
  · intro k slot
    rw [hindex, hnodes]
    by_cases hk : k = node.id
    · by_cases hslot : slot = t.nodes.size
      · simp [hk, hslot]
      · have hother : t.nodes[slot]?.map TreeNode.id ≠ some k := by
          rw [Ne, ← h, hk, hfree]
          exact (Option.some_ne_none slot).symm
        simp only [hk, ↓reduceIte, Option.some.injEq, hslot] at hother ⊢
        simp [Ne.symm hslot, hother]
    · by_cases hslot : slot = t.nodes.size
      · have hnone : t.nodes[slot]?.map TreeNode.id ≠ some k := by
          simp [hslot]
        rw [Ne, ← h] at hnone
        simp [hk, hslot, Ne.symm hk, hslot ▸ hnone]
      · rw [if_neg hk, if_neg hslot, h]
  · intro k
    by_cases hk : k = node.id
    · rw [if_pos hk]
      have hslot := hindex k
      rw [if_pos hk] at hslot
      rw [get?_eq_of_index hslot, hnodes, if_pos rfl]
    · rw [if_neg hk]
      have hslot := hindex k
      rw [if_neg hk] at hslot
      cases hold : t.index[k]? with
      | none => rw [get?_eq_none_of_index (hslot.trans hold), get?_eq_none_of_index hold]
      | some slot =>
        obtain ⟨record, hrecord, -⟩ := h.record hold
        have hlt : slot ≠ t.nodes.size := by
          rintro rfl
          simp at hrecord
        rw [get?_eq_of_index (hslot.trans hold), get?_eq_of_index hold, hnodes, if_neg hlt]

theorem indexed_ofRoot (id : NodeId) : (ofRoot id).Indexed ∧
    ∀ k, (ofRoot id).get? k = if k = id then some (TreeNode.root id) else none := by
  have hnew : empty.contains (TreeNode.root id).id = false := by simp [empty, contains]
  obtain ⟨hindexed, hfind⟩ := indexed_push indexed_empty (TreeNode.root id) hnew
  refine ⟨hindexed, fun k => ?_⟩
  have hnone : empty.get? k = none := by simp [empty, get?]
  rw [ofRoot, hfind, hnone]
  rfl

/-- Changing the record in one slot without its id changes what is found under that id. -/
theorem indexed_modify (h : t.Indexed) {f : TreeNode → TreeNode} (hf : ∀ n, (f n).id = n.id)
    (hslot : t.index[id]? = some slot) :
    Indexed { t with nodes := t.nodes.modify slot f } ∧
      ∀ k, get? { t with nodes := t.nodes.modify slot f } k
        = if k = id then (t.get? k).map f else t.get? k := by
  have hnodes (i : Nat) : (t.nodes.modify slot f)[i]?
      = if slot = i then t.nodes[i]?.map f else t.nodes[i]? := Array.getElem?_modify
  constructor
  · intro k i
    have hsame : (t.nodes.modify slot f)[i]?.map TreeNode.id = t.nodes[i]?.map TreeNode.id := by
      rw [hnodes]
      split
      · rw [Option.map_map]
        congr 1
        exact funext hf
      · rfl
    dsimp only
    rw [hsame]
    exact h k i
  · intro k
    cases hold : t.index[k]? with
    | none =>
      have hk : k ≠ id := by
        rintro rfl
        rw [hslot] at hold
        cases hold
      rw [if_neg hk, get?_eq_none_of_index hold]
      exact get?_eq_none_of_index hold
    | some i =>
      have hget : get? { t with nodes := t.nodes.modify slot f } k = (t.nodes.modify slot f)[i]? :=
        get?_eq_of_index hold
      rw [hget, hnodes, get?_eq_of_index hold]
      by_cases hk : k = id
      · subst hk
        obtain rfl : slot = i := Option.some.inj (hslot.symm.trans hold)
        rw [if_pos rfl, if_pos rfl]
      · have hne : slot ≠ i := by
          rintro rfl
          have hid := (h id slot).mp hslot
          rw [(h k slot).mp hold, Option.some.injEq] at hid
          exact hk hid
        rw [if_neg hne, if_neg hk]

/-- A child is a new record one level below its parent, which lists it last. -/
theorem insertChild_ok (h : t.Indexed) (hok : t.insertChild parent id = .ok t') :
    ∃ p, t.get? parent = some p ∧ t.get? id = none ∧ t'.Indexed ∧ t'.size = t.size + 1 ∧
      ∀ k, t'.get? k = if k = id then some ⟨id, some parent, [], p.depth + 1, .unmarked⟩
        else if k = parent then some { p with children := p.children ++ [id] } else t.get? k := by
  unfold insertChild at hok
  split at hok
  · cases hok
  · rename_i hnew
    rw [Bool.not_eq_true] at hnew
    split at hok
    · cases hok
    · rename_i slot hslot
      cases hok
      obtain ⟨p, hnode, hget, -⟩ := h.record hslot
      obtain ⟨hlinked, hfind⟩ := indexed_modify h
        (f := fun n => { n with children := n.children ++ [id] }) (fun _ => rfl) hslot
      obtain ⟨hindexed, hfind'⟩ := indexed_push hlinked
        ⟨id, some parent, [], p.depth + 1, .unmarked⟩ hnew
      refine ⟨p, hget, ?_, ?_, ?_, ?_⟩
      · cases hid : t.get? id with
        | none => rfl
        | some n =>
          rw [h.contains_iff.mpr ⟨n, hid⟩] at hnew
          cases hnew
      · simpa [hnode] using hindexed
      · rw [size_push]
        simp [size]
      · intro k
        simp only [hnode, Option.map_some, Option.getD_some]
        rw [hfind', hfind]
        by_cases hk : k = parent
        · subst hk
          rw [hget]
          rfl
        · rw [if_neg hk, if_neg hk]

/-- A mark changes one record. -/
theorem mark_ok (h : t.Indexed) {m : Mark} (hok : t.mark id m = .ok t') :
    ∃ n, t.get? id = some n ∧ t'.Indexed ∧ t'.size = t.size ∧
      ∀ k, t'.get? k = if k = id then some { n with mark := m } else t.get? k := by
  unfold mark at hok
  split at hok
  · cases hok
  · rename_i slot hslot
    cases hok
    obtain ⟨n, -, hget, -⟩ := h.record hslot
    obtain ⟨hindexed, hfind⟩ := indexed_modify h (f := fun n => { n with mark := m })
      (fun _ => rfl) hslot
    refine ⟨n, hget, hindexed, by simp [size], ?_⟩
    intro k
    rw [hfind]
    by_cases hk : k = id
    · subst hk
      rw [if_pos rfl, if_pos rfl, hget]
      rfl
    · rw [if_neg hk, if_neg hk]

/-! ## When a tree accepts -/

theorem exists_slot (h : t.contains id = true) : ∃ slot, t.index[id]? = some slot := by
  rw [contains, ← Std.HashMap.isSome_getElem?_eq_contains] at h
  exact Option.isSome_iff_exists.mp h

/-- A child is accepted if its parent has a record and it has none. -/
theorem exists_insertChild (hparent : t.contains parent = true) (hnew : t.contains id = false) :
    ∃ t', t.insertChild parent id = .ok t' := by
  obtain ⟨slot, hslot⟩ := exists_slot hparent
  simp [insertChild, hnew, hslot]

theorem exists_mark (h : t.contains id = true) (m : Mark) : ∃ t', t.mark id m = .ok t' := by
  obtain ⟨slot, hslot⟩ := exists_slot h
  simp [mark, hslot]

theorem contains_insertChild (h : t.insertChild parent id = .ok t') (k : NodeId) :
    t'.contains k = true ↔ k = id ∨ t.contains k = true := by
  unfold insertChild at h
  split at h
  · cases h
  · split at h
    · cases h
    · cases h
      simp [contains, push, Std.HashMap.contains_insert, @eq_comm _ id k]

/-! ## Disposing of a node -/

/-- `t'` is `t` with children of the given ids below `id`, which is marked. -/
structure Grows (t : SearchTree) (id : NodeId) (children : List NodeId) (m : Mark)
    (t' : SearchTree) : Prop where
  indexed : t'.Indexed
  size : t'.size = t.size + children.length
  parent : ∃ p, t.get? id = some p ∧
    t'.get? id = some { p with children := p.children ++ children, mark := m } ∧
    ∀ c ∈ children, t'.get? c = some ⟨c, some id, [], p.depth + 1, .unmarked⟩
  fresh : ∀ c ∈ children, t.get? c = none
  other : ∀ k, k ≠ id → k ∉ children → t'.get? k = t.get? k

theorem Grows.contains_iff {children : List NodeId} {m : Mark} (ht : t.Indexed)
    (h : t.Grows id children m t') {k : NodeId} :
    t'.contains k = true ↔ t.contains k = true ∨ k ∈ children := by
  obtain ⟨p, hp, hp', hchildren⟩ := h.parent
  rw [ht.contains_iff, h.indexed.contains_iff]
  by_cases hk : k = id
  · subst hk
    exact ⟨fun _ => .inl ⟨p, hp⟩, fun _ => ⟨_, hp'⟩⟩
  · by_cases hmem : k ∈ children
    · exact ⟨fun _ => .inr hmem, fun _ => ⟨_, hchildren k hmem⟩⟩
    · rw [h.other k hk hmem]
      exact ⟨.inl, fun hor => hor.resolve_right hmem⟩

theorem grows_mark (h : t.Indexed) {m : Mark} (hok : t.mark id m = .ok t') :
    t.Grows id [] m t' := by
  obtain ⟨p, hget, hindexed, hsize, hfind⟩ := mark_ok h hok
  refine ⟨hindexed, hsize, ⟨p, hget, ?_, by simp⟩, by simp, ?_⟩
  · rw [hfind, if_pos rfl, List.append_nil]
  · intro k hk _
    rw [hfind, if_neg hk]

/-- A node that gets two children and no mark. -/
theorem grows_children (h : t.Indexed) {first second : NodeId} {t₁ t₂ : SearchTree}
    (hfirst : t.insertChild id first = .ok t₁) (hsecond : t₁.insertChild id second = .ok t₂)
    (hmark : t₂.mark id .unmarked = .ok t') : t.Grows id [first, second] .unmarked t' := by
  obtain ⟨p, hp, hfree, hindexed, hsize, hfind⟩ := insertChild_ok h hfirst
  obtain ⟨p₁, hp₁, hfree₁, hindexed₁, hsize₁, hfind₁⟩ := insertChild_ok hindexed hsecond
  obtain ⟨p₂, hp₂, hindexed₂, hsize₂, hfind₂⟩ := mark_ok hindexed₁ hmark
  have hne : id ≠ first := by
    rintro rfl
    rw [hfree] at hp
    cases hp
  have hne₁ : id ≠ second := by
    rintro rfl
    rw [hfree₁] at hp₁
    cases hp₁
  have hdiff : second ≠ first := by
    rintro rfl
    rw [hfind, if_pos rfl] at hfree₁
    cases hfree₁
  rw [hfind, if_neg hne, if_pos rfl, Option.some.injEq] at hp₁
  subst hp₁
  rw [hfind₁, if_neg hne₁, if_pos rfl, Option.some.injEq] at hp₂
  subst hp₂
  refine ⟨hindexed₂, by rw [hsize₂, hsize₁, hsize]; rfl, ⟨p, hp, ?_, ?_⟩, ?_, ?_⟩
  · rw [hfind₂, if_pos rfl]
    simp
  · intro c hc
    rcases List.mem_pair.mp hc with rfl | rfl
    · rw [hfind₂, if_neg hne.symm, hfind₁, if_neg hdiff.symm, if_neg hne.symm, hfind, if_pos rfl]
    · rw [hfind₂, if_neg hne₁.symm, hfind₁, if_pos rfl]
  · intro c hc
    rcases List.mem_pair.mp hc with rfl | rfl
    · exact hfree
    · rwa [hfind, if_neg hdiff, if_neg hne₁.symm] at hfree₁
  · intro k hk hnot
    obtain ⟨hk₁, hk₂⟩ := not_or.mp (mt List.mem_pair.mpr hnot)
    rw [hfind₂, if_neg hk, hfind₁, if_neg hk₂, if_neg hk, hfind, if_neg hk₁, if_neg hk]

theorem parent?_eq {n : TreeNode} (h : t.get? id = some n) : t.parent? id = n.parent := by
  simp [parent?, h]

end SearchTree

end MixedInteger
