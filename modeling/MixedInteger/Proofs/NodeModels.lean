import MixedInteger.Proofs.NodeDisposal
import MixedInteger.Proofs.Undefined

/-!
# What the relaxations of all nodes have in common

The relaxation of a node comes from that of the root by solves and by edits that were accepted. So
what solves and edits keep is true of every node that ever waits. A simplex solver keeps its columns
with their kinds and objective, and the ends of their ranges stay defined.

* `Lasting`: a property that solves and edits keep;
* `Search.Visits.lasting`: every waiting node has it;
* `Simplex.lasting_columns`, `Simplex.lasting_ranges`: two such properties of the simplex solver;
* `Simplex.exists_setBound`: which bounds it accepts.
-/

namespace MixedInteger

open Scalar

section Nodes

variable {R α : Type} [Scalar α] [Relaxation R α]

/-- A property of relaxations that solves and accepted edits keep. -/
structure Lasting (P : R → Prop) : Prop where
  solve : ∀ {r}, P r → P (Relaxation.solve r).2
  setBound : ∀ {r r' j side v}, P r → Relaxation.setBound r j side v = .ok r' → P r'
  addRow : ∀ {r r' row lower i}, P r → Relaxation.addRow r row lower = .ok (i, r') → P r'

namespace Lasting

variable {P : R → Prop} {plan : Plan α} {r r' : R}

omit [Scalar α] in
theorem cutBy (hP : Lasting P) (h : CutBy plan r r') (hr : P r) : P r' := by
  cases h with
  | none => exact hr
  | row _ hadd => exact hP.addRow hr hadd

theorem narrows (hP : Lasting P) {child : Subproblem R α} {change : BoundChange α}
    (h : child.Narrows r change) (hr : P r) : P child.model := by
  obtain ⟨moved, hmove, hmodel, -⟩ := h.moved
  rw [hmodel]
  exact hP.solve (hP.setBound hr hmove)

/-- The children of a node have what the node has. -/
theorem disposes (hP : Lasting P) {i i' : Incumbent α} {node : Subproblem R α} {fate : Fate}
    {children : List (Subproblem R α)} (h : Search.Disposes plan i node fate children i')
    (hnode : P node.model) : ∀ child ∈ children, P child.model := by
  intro child hchild
  cases h with
  | infeasible | integral | fathomed => cases hchild
  | branched _ _ _ hcut hdown hup =>
    have hcutAt := hP.cutBy hcut (hP.solve hnode)
    rcases List.mem_pair.mp hchild with rfl | rfl
    · exact hP.narrows hdown hcutAt
    · exact hP.narrows hup hcutAt

end Lasting

/-- What lasts is true of every node that waits. -/
theorem Search.Visits.lasting {P : R → Prop} (hP : Lasting P) {plan : Plan α} {root : R}
    (hroot : P root) {picks : List (Violation α)} {s : Search R α} (h : Visits plan root picks s) :
    ∀ node ∈ s.pool.waiting, P node.model := by
  induction h with
  | start =>
    intro node hnode
    have hnode : node = Subproblem.root 1 root := by
      simpa [initial, NodePool.push, NodePool.empty] using hnode
    rw [hnode]
    exact hroot
  | next _ hwaits hadvance ih =>
    obtain ⟨taken, k, pool, fate, children, -, hdisposes, hstep⟩ :=
      advance_disposes hwaits hadvance
    intro node hnode
    rcases hstep.mem_waiting hnode with hold | hnew
    · exact ih node hold
    · exact hP.disposes hdisposes (ih taken hstep.node_pooled) node hnew

end Nodes

/-! ## Nodes of the simplex solver -/

variable {α : Type} [Scalar α]

namespace Simplex

variable {s s' : Simplex α} {j : Nat} {side : Side} {v : α}

theorem setBound_ok (h : s.setBound j side v = .ok s') :
    ∃ lower upper, s.model.setColBounds j lower upper = .ok s'.model := by
  cases side with
  | lower =>
    obtain ⟨m, hm, hdone⟩ := exists_ok_of_bind h
    cases hdone
    exact ⟨_, _, hm⟩
  | upper =>
    obtain ⟨m, hm, hdone⟩ := exists_ok_of_bind h
    cases hdone
    exact ⟨_, _, hm⟩

theorem addRow_ok {row : SparseRow α} {lower : α} {i : Nat}
    (h : Relaxation.addRow s row lower = .ok (i, s')) :
    s.model.addRow row.terms lower posInf = .ok s'.model := by
  obtain ⟨m, hm, hdone⟩ := exists_ok_of_bind h
  cases hdone
  exact hm

/-- The objective and the kinds of the columns stay as they are. -/
theorem lasting_columns (objective : Array α) (kinds : Array Kind) :
    Lasting fun s : Simplex α => s.model.objective = objective ∧ s.model.kinds = kinds where
  solve h := h
  setBound hs h := by
    obtain ⟨lower, upper, hset⟩ := setBound_ok h
    obtain ⟨-, -, -, hmodel⟩ := Model.setColBounds_ok hset
    rw [hmodel]
    exact hs
  addRow hs h := by
    rw [(Model.addRow_ok (addRow_ok h)).2.2]
    exact hs

end Simplex

section Ranges

/-- The ends of the range of every column are defined. -/
def Model.RangesDefined (m : Model α) : Prop :=
  ∀ j < m.numCols, isNaN (m.colRange j).1 = false ∧ isNaN (m.colRange j).2 = false

theorem bind_eq_ok_iff {ε β : Type} {x : Except ε Unit} {f : Unit → Except ε β} {b : β} :
    (x >>= f) = .ok b ↔ x = .ok () ∧ f () = .ok b := by
  cases x with
  | error e => simp [bind, Except.bind]
  | ok u => simp [bind, Except.bind]

theorem forM_eq_ok_iff {ε β : Type} {l : List β} {f : β → Except ε Unit} :
    l.forM f = .ok () ↔ ∀ b ∈ l, f b = .ok () := by
  induction l with
  | nil => simp [List.forM, pure, Except.pure]
  | cons b rest ih =>
    rw [List.forall_mem_cons, ← ih]
    exact bind_eq_ok_iff

theorem Model.validate_eq_ok_iff (m : Model α) : m.validate = .ok () ↔
    m.checkSizes = .ok () ∧ m.checkCoefficients = .ok () ∧
    (∀ i < m.numRows, checkRange (.row i) (m.rowRange i).1 (m.rowRange i).2 = .ok ()) ∧
    ∀ j < m.numCols, checkRange (.column j) (m.colRange j).1 (m.colRange j).2 = .ok () := by
  simp only [validate, bind_eq_ok_iff, forM_eq_ok_iff, List.mem_range]

theorem Model.rangesDefined_of_validate {m : Model α} (h : m.validate = .ok ()) :
    m.RangesDefined := by
  obtain ⟨-, -, -, hcols⟩ := m.validate_eq_ok_iff.mp h
  intro j hj
  have hrange := hcols j hj
  unfold checkRange at hrange
  split at hrange
  · cases hrange
  · rename_i hdefined
    simpa using hdefined

/-- An array of defined numbers, with another one in some place. -/
theorem isNaN_setIfInBounds {xs : Array α} {x missing : α} {k : Nat} (hx : isNaN x = false)
    (hold : isNaN (xs[k]?.getD missing) = false) (j : Nat) :
    isNaN ((xs.setIfInBounds j x)[k]?.getD missing) = false := by
  rw [Array.getElem?_setIfInBounds]
  split
  · rename_i hjk
    subst hjk
    split
    · exact hx
    · rename_i hout
      rw [Array.getElem?_eq_none (Nat.le_of_not_lt hout)] at hold
      exact hold
  · exact hold

/-- Every defined number is accepted as a bound of a column. -/
theorem Simplex.exists_setBound {s : Simplex α} (hs : s.model.RangesDefined) {j : Nat}
    (hj : j < s.model.numCols) (side : Side) {v : α} (hv : isNaN v = false) :
    ∃ s', s.setBound j side v = .ok s' := by
  obtain ⟨hlower, hupper⟩ := hs j hj
  have haccepted {lower upper : α} (hl : isNaN lower = false) (hu : isNaN upper = false) :
      ∃ s', s.setColBounds j lower upper = .ok s' := by
    simp [setColBounds, Model.setColBounds, Nat.not_le.mpr hj, hl, hu, bind, Except.bind, pure,
      Except.pure]
  cases side with
  | lower => exact haccepted hv hupper
  | upper => exact haccepted hlower hv

variable [Definite α]

theorem Model.isNaN_clampRange (k : Kind) {lower upper : α} (hlower : isNaN lower = false)
    (hupper : isNaN upper = false) :
    isNaN (clampRange k lower upper).1 = false ∧ isNaN (clampRange k lower upper).2 = false := by
  cases k with
  | binary => exact ⟨Definite.larger hlower Definite.zero, Definite.smaller hupper Definite.one⟩
  | continuous | integer => exact ⟨hlower, hupper⟩

theorem Model.RangesDefined.setColBounds {m m' : Model α} {j : Nat} {lower upper : α}
    (hm : m.RangesDefined) (h : m.setColBounds j lower upper = .ok m') : m'.RangesDefined := by
  obtain ⟨hj, hlower, hupper, rfl⟩ := setColBounds_ok h
  obtain ⟨hlower, hupper⟩ := isNaN_clampRange (m.kind j) hlower hupper
  intro k hk
  obtain ⟨hold, hold'⟩ := hm k hk
  exact ⟨isNaN_setIfInBounds hlower hold j, isNaN_setIfInBounds hupper hold' j⟩

theorem Simplex.lasting_ranges : Lasting fun s : Simplex α => s.model.RangesDefined where
  solve h := h
  setBound hs h := by
    obtain ⟨lower, upper, hset⟩ := setBound_ok h
    exact hs.setColBounds hset
  addRow hs h := by
    rw [(Model.addRow_ok (addRow_ok h)).2.2]
    exact hs

end Ranges

end MixedInteger
