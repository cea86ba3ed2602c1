import MixedInteger.Proofs.NodeBounds
import MixedInteger.Proofs.SearchProgress

/-!
# How many nodes a search can take

Branching on a column takes a value that is no integer out of its range, so that on either side the
range contains fewer integers. If the ranges of the checked columns are finite, a node can have only
so many descendants, and the search takes no more nodes than the ranges at the root allow. That
holds whatever optimum the oracle names within the ranges, and whatever cuts are added.

* `RangedOracle`: the oracle keeps to its column ranges;
* `checkedColumns`: the columns that may be branched on;
* `iterationBudget`: how many nodes their ranges allow;
* `Search.Disposes.affords`: the children of a node share the rest of its budget;
* `search_within_budget`: no run with that many iterations reaches its limit.
-/

namespace MixedInteger

open Exact hiding isFinite isNaN
open Scalar (isFinite isNaN)

variable {R : Type} [Relaxation R Exact]

/-! ## Oracles with ranges -/

/-- The same columns, apart from their ranges. -/
structure SameColumns (r r' : R) : Prop where
  numVariables : Relaxation.numVariables r' = Relaxation.numVariables r
  kind : ∀ j, Relaxation.kind r' j = Relaxation.kind r j
  objective : ∀ j, Relaxation.objective r' j = Relaxation.objective r j

/-- What the oracle finds lies within the ranges of the columns, and only moving a bound changes
them. -/
structure RangedOracle (root : R) : Prop where
  solve_columns : ∀ r, Reachable root r → SameColumns r (Relaxation.solve r).2 ∧
    ∀ j, Relaxation.bounds (Relaxation.solve r).2 j = Relaxation.bounds r j
  addRow_columns : ∀ r r' row lower i, Reachable root r →
    Relaxation.addRow r row lower = .ok (i, r') → SameColumns r r' ∧
    ∀ j, Relaxation.bounds r' j = Relaxation.bounds r j
  setBound_columns : ∀ r r' j side (q : ℚ), Reachable root r →
    Relaxation.setBound r j side (.fin q) = .ok r' → SameColumns r r' ∧
    (side.Inward (.fin q) (Relaxation.bounds r j) → ∀ k, Relaxation.bounds r' k =
      if k = j then side.replace (.fin q) (Relaxation.bounds r j) else Relaxation.bounds r k)
  /-- Optima are points within the ranges. -/
  optimal : ∀ r, Reachable root r → (Relaxation.solve r).1 = .optimal →
    ∀ j < Relaxation.numVariables r,
      (Relaxation.bounds r j).1 ≤ Relaxation.value (Relaxation.solve r).2 j ∧
      Relaxation.value (Relaxation.solve r).2 j ≤ (Relaxation.bounds r j).2

/-- The columns that the scope asks to be integral. -/
def checkedColumns (scope : Scope) (r : R) : List Nat :=
  (List.range (Relaxation.numVariables r)).filter fun j =>
    (Relaxation.kind r j).isIntegral &&
      (scope == .allColumns || !(Relaxation.objective r j == 0))

/-- Both ends of the range are rational. -/
def FiniteRange (range : Exact × Exact) : Prop :=
  isFinite range.1 = true ∧ isFinite range.2 = true

/-! ## Budgets -/

/-- How often a range can be split at values that are no integers, at most. -/
def splits (range : Exact × Exact) : Nat := (⌈range.2.toRat⌉ - ⌊range.1.toRat⌋).toNat

/-- The number of nodes in a full binary tree that splits one of the ranges at every branching. -/
def iterationBudget (ranges : List (Exact × Exact)) : Nat := 2 ^ ((ranges.map splits).sum + 1) - 1

theorem iterationBudget_pos (ranges : List (Exact × Exact)) : 1 ≤ iterationBudget ranges := by
  unfold iterationBudget
  have hpow : 2 ^ 1 ≤ 2 ^ ((ranges.map splits).sum + 1) :=
    Nat.pow_le_pow_right (by omega) (by omega)
  omega

/-- Two nodes with one split less share the budget of their parent. -/
theorem iterationBudget_split {ranges first second : List (Exact × Exact)}
    (hfirst : (first.map splits).sum < (ranges.map splits).sum)
    (hsecond : (second.map splits).sum < (ranges.map splits).sum) :
    1 + (iterationBudget first + iterationBudget second) ≤ iterationBudget ranges := by
  unfold iterationBudget
  have hpow {n : Nat} (hn : n < (ranges.map splits).sum) :
      2 ^ (n + 1) ≤ 2 ^ (ranges.map splits).sum :=
    Nat.pow_le_pow_right (by omega) hn
  have hdown := hpow hfirst
  have hup := hpow hsecond
  have hone (n : Nat) : 1 ≤ 2 ^ n := Nat.one_le_two_pow
  have h₁ := hone ((first.map splits).sum + 1)
  have h₂ := hone ((second.map splits).sum + 1)
  rw [Nat.pow_succ 2 (ranges.map splits).sum]
  omega

/-- A range that is split at a value within it loses an integer on either side. -/
theorem splits_replace {range : Exact × Exact} (hrange : FiniteRange range)
    {pick : Violation Exact} {q : ℚ} (hpick : pick.SplitsAt range q) :
    splits (Side.upper.replace (.fin ⌊q⌋) range) < splits range ∧
      splits (Side.lower.replace (.fin ⌈q⌉) range) < splits range := by
  obtain ⟨lower, upper⟩ := range
  obtain ⟨hl, hu⟩ := hrange
  obtain ⟨a, rfl⟩ := isFinite_iff.mp hl
  obtain ⟨b, rfl⟩ := isFinite_iff.mp hu
  have hlt := floor_lt_ceil_of_not_integer hpick.fractional
  have hfloor : ⌊a⌋ ≤ ⌊q⌋ := Int.floor_le_floor (fin_le.mp hpick.lower)
  have hceil : ⌈q⌉ ≤ ⌈b⌉ := Int.ceil_le_ceil (fin_le.mp hpick.upper)
  simp only [splits, Side.replace, toRat_fin, Int.ceil_intCast, Int.floor_intCast]
  omega

/-! ## States within their ranges -/

/-- A state with the columns of `root`, and finite ranges where these are checked. -/
structure Ranged (scope : Scope) (root r : R) : Prop where
  reachable : Reachable root r
  columns : SameColumns root r
  finite : ∀ j ∈ checkedColumns scope root, FiniteRange (Relaxation.bounds r j)

/-- The budget of a state: what the ranges of the checked columns allow. -/
def budgetOf (scope : Scope) (root r : R) : Nat :=
  iterationBudget ((checkedColumns scope root).map (Relaxation.bounds r))

theorem SameColumns.trans {r r' r'' : R} (h : SameColumns r r') (h' : SameColumns r' r'') :
    SameColumns r r'' :=
  ⟨h'.numVariables.trans h.numVariables, fun j => (h'.kind j).trans (h.kind j),
    fun j => (h'.objective j).trans (h.objective j)⟩

namespace Ranged

variable {scope : Scope} {root r r' : R}

/-- A step that leaves the columns and their ranges leads to a state within its ranges. -/
theorem of_same (h : Ranged scope root r) (hreach : Reachable root r')
    (hsame : SameColumns r r' ∧ ∀ j, Relaxation.bounds r' j = Relaxation.bounds r j) :
    Ranged scope root r' := by
  refine ⟨hreach, h.columns.trans hsame.1, ?_⟩
  intro j hj
  rw [hsame.2]
  exact h.finite j hj

theorem solve (h : Ranged scope root r) (oracle : RangedOracle root) :
    Ranged scope root (Relaxation.solve r).2 :=
  h.of_same h.reachable.solve (oracle.solve_columns r h.reachable)

/-- Cuts leave the ranges. -/
theorem cutBy {plan : Plan Exact} (h : Ranged scope root r) (oracle : RangedOracle root)
    (hcut : CutBy plan r r') :
    Ranged scope root r' ∧ ∀ j, Relaxation.bounds r' j = Relaxation.bounds r j := by
  cases hcut with
  | none => exact ⟨h, fun _ => rfl⟩
  | row _ hadd =>
    have hsame := oracle.addRow_columns _ _ _ _ _ h.reachable hadd
    exact ⟨h.of_same (h.reachable.addRow hadd) hsame, hsame.2⟩

/-- A child has the ranges of its parent, but for the end that was moved. -/
theorem narrows (h : Ranged scope root r) (oracle : RangedOracle root)
    {child : Subproblem R Exact} {j : Nat} {v : Exact} {side : Side} {q : ℚ}
    (hchild : child.Narrows r ⟨j, v, side, .fin q⟩)
    (hq : side.Inward (.fin q) (Relaxation.bounds r j)) :
    Ranged scope root child.model ∧ ∀ k, Relaxation.bounds child.model k =
      if k = j then side.replace (.fin q) (Relaxation.bounds r j) else Relaxation.bounds r k := by
  obtain ⟨⟨moved, hset, hmodel, -⟩, -⟩ := hchild
  obtain ⟨hsame, hbounds⟩ := oracle.setBound_columns _ _ _ _ _ h.reachable hset
  have hreach : Reachable root moved := h.reachable.setBound hset
  have hmoved : Ranged scope root moved := by
    refine ⟨hreach, h.columns.trans hsame, ?_⟩
    intro k hk
    have hold := h.finite k hk
    rw [hbounds hq]
    split
    · rename_i heq
      subst heq
      cases side with
      | lower => exact ⟨rfl, hold.2⟩
      | upper => exact ⟨hold.1, rfl⟩
    · exact hold
  rw [hmodel]
  refine ⟨hmoved.solve oracle, ?_⟩
  intro k
  rw [(oracle.solve_columns moved hreach).2 k, hbounds hq]

/-- A solved node is branched on a value within the range of a checked column. -/
theorem picked (h : Ranged scope root r) (oracle : RangedOracle root) {tol : Exact}
    (htol : 0 ≤ tol) (hopt : (Relaxation.solve r).1 = .optimal) {pick : Violation Exact}
    (hpick : pick ∈ violations (Relaxation.solve r).2 scope tol) :
    pick.column ∈ checkedColumns scope root ∧
      ∃ q : ℚ, pick.SplitsAt (Relaxation.bounds r pick.column) q := by
  obtain ⟨hvar, hvalue, hobj, hkind, hcovers, hfrac⟩ := mem_violations hpick
  have hcolumns := (h.solve oracle).columns
  have hchecked : pick.column ∈ checkedColumns scope root := by
    rw [hcolumns.numVariables] at hvar
    rw [hcolumns.kind] at hkind
    rw [hobj, hcolumns.objective] at hcovers
    apply List.mem_filter.mpr
    refine ⟨List.mem_range.mpr hvar, ?_⟩
    cases scope with
    | allColumns => simp [hkind]
    | objectiveSupport =>
      simp only [Scope.covers, Bool.and_eq_true] at hcovers
      simp only [hkind, hcovers.2, Bool.or_true, Bool.and_self]
  refine ⟨hchecked, ?_⟩
  have hvar' : pick.column < Relaxation.numVariables r := by
    rw [h.columns.numVariables, ← hcolumns.numVariables]
    exact hvar
  obtain ⟨hlower, hupper⟩ := oracle.optimal r h.reachable hopt pick.column hvar'
  rw [← hvalue] at hlower hupper
  -- Between two rational ends there are only rational values.
  obtain ⟨hl, hu⟩ := h.finite pick.column hchecked
  obtain ⟨a, ha⟩ := isFinite_iff.mp hl
  obtain ⟨b, hb⟩ := isFinite_iff.mp hu
  obtain ⟨q, hq⟩ : ∃ q : ℚ, pick.value = .fin q := by
    rw [ha] at hlower
    rw [hb] at hupper
    cases hv : pick.value with
    | undefined => rw [hv] at hlower; cases hlower
    | negInf => rw [hv] at hlower; exact absurd hlower (not_fin_le_negInf a)
    | posInf => rw [hv] at hupper; exact absurd hupper (not_posInf_le_fin b)
    | fin q => exact ⟨q, rfl⟩
  rw [hq] at hlower hupper hfrac
  exact ⟨q, hq, not_integer_of_isFractional htol hfrac, hlower, hupper⟩

end Ranged

/-- With a range of fewer splits in the place of one of them, there are fewer in all. -/
theorem sum_splits_lt {columns : List Nat} {ranges ranges' : Nat → Exact × Exact} {j : Nat}
    {range : Exact × Exact} (hj : j ∈ columns)
    (hranges : ∀ k, ranges' k = if k = j then range else ranges k)
    (hlt : splits range < splits (ranges j)) :
    ((columns.map ranges').map splits).sum < ((columns.map ranges).map splits).sum := by
  have hat : splits (ranges' j) < splits (ranges j) := by
    rw [hranges, if_pos rfl]
    exact hlt
  rw [List.map_map, List.map_map]
  apply List.sum_lt_sum
  · intro k _
    by_cases hk : k = j
    · rw [hk]
      exact hat.le
    · simp [hranges k, hk]
  · exact ⟨j, hj, hat⟩

/-- The budget of a node is enough for the node and for all that its children may cost. -/
structure Subproblem.Affords (scope : Scope) (root : R) (node : Subproblem R Exact)
    (children : List (Subproblem R Exact)) : Prop where
  ranged : ∀ child ∈ children, Ranged scope root child.model
  cost : 1 + (children.map fun child => budgetOf scope root child.model).sum
    ≤ budgetOf scope root node.model

theorem Subproblem.affords_nil (scope : Scope) (root : R) (node : Subproblem R Exact) :
    node.Affords scope root [] := by
  constructor
  · intro child hchild
    cases hchild
  · rw [List.map_nil, List.sum_nil, Nat.add_zero]
    exact iterationBudget_pos _

namespace Search

variable {scope : Scope} {root : R} {plan : Plan Exact}

/-- Whatever becomes of a node, its budget is enough. -/
theorem Disposes.affords {i i' : Incumbent Exact} {node : Subproblem R Exact} {fate : Fate}
    {children : List (Subproblem R Exact)} (h : Disposes plan i node fate children i')
    (oracle : RangedOracle root) (htol : 0 ≤ plan.settings.integralityTol)
    (hnode : Ranged plan.settings.scope root node.model) :
    node.Affords plan.settings.scope root children := by
  cases h with
  | infeasible => exact Subproblem.affords_nil _ root node
  | integral => exact Subproblem.affords_nil _ root node
  | fathomed => exact Subproblem.affords_nil _ root node
  | @branched pick r first second hopt _ hpick hcut hdown hup =>
    obtain ⟨hcolumn, q, hsplits⟩ := hnode.picked oracle htol hopt hpick
    obtain ⟨hr, hcutBounds⟩ := (hnode.solve oracle).cutBy oracle hcut
    have hbounds (j : Nat) : Relaxation.bounds r j = Relaxation.bounds node.model j :=
      (hcutBounds j).trans ((oracle.solve_columns _ hnode.reachable).2 j)
    have hbudget : budgetOf plan.settings.scope root node.model
        = budgetOf plan.settings.scope root r := by
      unfold budgetOf
      rw [funext hbounds]
    rw [← hbounds] at hsplits
    rw [hsplits.down] at hdown
    rw [hsplits.up] at hup
    obtain ⟨hfirst, hfirstBounds⟩ := hr.narrows oracle hdown hsplits.inward_floor
    obtain ⟨hsecond, hsecondBounds⟩ := hr.narrows oracle hup hsplits.inward_ceil
    obtain ⟨hless, hless'⟩ := splits_replace (hr.finite _ hcolumn) hsplits
    constructor
    · intro child hchild
      rcases List.mem_pair.mp hchild with rfl | rfl
      · exact hfirst
      · exact hsecond
    · rw [hbudget, List.map_cons, List.map_singleton, List.sum_cons, List.sum_singleton]
      apply iterationBudget_split
      · exact sum_splits_lt hcolumn hfirstBounds hless
      · exact sum_splits_lt hcolumn hsecondBounds hless'

/-- What has been taken and what the waiting nodes may still cost is within the budget of the
root. -/
structure Budgeted (scope : Scope) (root : R) (s : Search R Exact) : Prop where
  nodes : ∀ node ∈ s.pool.waiting, Ranged scope root node.model
  spent : s.trace.size + (s.pool.waiting.toList.map fun node => budgetOf scope root node.model).sum
    ≤ budgetOf scope root root

theorem budgeted_initial (settings : Settings Exact)
    (hfinite : ∀ j ∈ checkedColumns scope root, FiniteRange (Relaxation.bounds root j)) :
    (initial settings root).Budgeted scope root := by
  have hwaiting : (initial settings root).pool.waiting = #[Subproblem.root 1 root] := rfl
  constructor
  · intro node hnode
    rw [hwaiting, List.mem_toArray, List.mem_singleton] at hnode
    subst hnode
    exact ⟨.root, ⟨rfl, fun _ => rfl, fun _ => rfl⟩, hfinite⟩
  · rw [hwaiting]
    simp [initial, Subproblem.root]

/-- An iteration pays for the node that it takes. -/
theorem Budgeted.advance (oracle : RangedOracle root)
    (htol : 0 ≤ plan.settings.integralityTol) {s : Search R Exact}
    (hs : s.Budgeted plan.settings.scope root) (hwaits : s.pool.isEmpty = false)
    {notices : List (Notice Exact)} {p : Progress R Exact}
    (h : s.advance plan = (notices, .ok p)) : p.search.Budgeted plan.settings.scope root := by
  obtain ⟨node, k, pool, fate, children, -, hdisposes, hstep⟩ := advance_disposes hwaits h
  have haffords := hdisposes.affords oracle htol (hs.nodes node hstep.node_pooled)
  constructor
  · intro other hother
    rcases hstep.mem_waiting hother with hold | hnew
    · exact hs.nodes other hold
    · exact haffords.ranged other hnew
  · obtain ⟨before, after, hwaiting, hleft⟩ := hstep.pool
    have hspent := hs.spent
    have hcost := haffords.cost
    rw [hwaiting] at hspent
    rw [hleft, hstep.trace, Array.size_push]
    simp only [List.map_append, List.map_cons, List.sum_append, List.sum_cons] at hspent ⊢
    omega

/-- While a node waits, not all of the budget is spent. -/
theorem Budgeted.trace_lt {s : Search R Exact} (hs : s.Budgeted scope root)
    (hwaits : s.pool.isEmpty = false) : s.trace.size < budgetOf scope root root := by
  have hspent := hs.spent
  cases hwaiting : s.pool.waiting.toList with
  | nil =>
    rw [NodePool.isEmpty, Array.toList_eq_nil_iff.mp hwaiting] at hwaits
    cases hwaits
  | cons node rest =>
    have hpos : 1 ≤ budgetOf scope root node.model := iterationBudget_pos _
    rw [hwaiting, List.map_cons, List.sum_cons] at hspent
    omega

theorem Visits.budgeted (oracle : RangedOracle root)
    (hfinite : ∀ j ∈ checkedColumns plan.settings.scope root,
      FiniteRange (Relaxation.bounds root j))
    (htol : 0 ≤ plan.settings.integralityTol) {picks : List (Violation Exact)}
    {s : Search R Exact} (h : Visits plan root picks s) :
    s.Budgeted plan.settings.scope root := by
  induction h with
  | start => exact budgeted_initial plan.settings hfinite
  | next _ hwaits hadvance ih => exact ih.advance oracle htol hwaits hadvance

end Search

/-- A search over finite ranges ends. Let the oracle find its optima within the ranges of the
columns, and let those of the checked columns be finite at the root. Whatever the tolerance, the
order of the nodes, the branching rule and the cuts, no search takes more nodes than the ranges at
the root allow, and no run that may take so many fails at its limit. -/
theorem search_within_budget (root : R) (oracle : RangedOracle root) (scope : Scope)
    (hfinite : ∀ j ∈ checkedColumns scope root, FiniteRange (Relaxation.bounds root j))
    (plan : Plan Exact) (hscope : plan.settings.scope = scope)
    (htol : 0 ≤ plan.settings.integralityTol) :
    let budget := iterationBudget ((checkedColumns scope root).map (Relaxation.bounds root))
    (∀ picks s, Search.Visits plan root picks s → s.tally.iterations ≤ budget) ∧
    (budget ≤ plan.settings.maxIterations.toNat →
      ∀ (L : Type) [Link L] (around : Surroundings L) (telemetry : Telemetry L) limit best,
        (branchAndCut plan around telemetry root).result
          ≠ .error (.iterationLimit limit best)) := by
  subst hscope
  dsimp only
  constructor
  · intro picks s hvisits
    have hspent := (hvisits.budgeted oracle hfinite htol).spent
    rw [hvisits.ledger.counts.iterations]
    exact Nat.le_trans (Nat.le_add_right _ _) hspent
  · intro hbudget L _ around telemetry limit best hlimit
    obtain ⟨picks, s, hvisits, hwaits, hsize⟩ := branchAndCut_limit hlimit
    have hs := hvisits.budgeted oracle hfinite htol
    have hlt := hs.trace_lt hwaits
    rw [hsize] at hlt
    exact absurd hbudget (Nat.not_le_of_lt hlt)

theorem OneColumn.sameColumns {r r' : OneColumn} (hobj : r'.model.objective = r.model.objective)
    (hkinds : r'.model.kinds = r.model.kinds) : SameColumns r r' := by
  refine ⟨congrArg Array.size hobj, ?_, ?_⟩
  · intro j
    change r'.model.kind j = r.model.kind j
    unfold Model.kind
    rw [hkinds]
  · intro j
    exact congrArg (Point.coord · j) hobj

/-- The relaxation of one column keeps to its range. -/
theorem OneColumn.rangedOracle {root : OneColumn} (h : Fits root.model) : RangedOracle root where
  solve_columns r _ := by
    have hsame := model_solve r
    constructor
    · apply sameColumns
      · rw [hsame]
      · rw [hsame]
    · intro j
      exact congrArg (Model.colRange · j) hsame
  addRow_columns r r' row lower i _ hadd := by
    have hmap := map_addRow r row lower
    rw [hadd, Simplex.map_addRow] at hmap
    obtain ⟨m, hm, heq⟩ := exists_ok_of_map hmap.symm
    obtain ⟨-, rfl⟩ := Prod.mk.inj heq
    have hm' := (Model.addRow_ok hm).2.2
    constructor
    · apply sameColumns
      · rw [hm']
      · rw [hm']
    · intro j
      change r'.model.colRange j = r.model.colRange j
      rw [hm']
      rfl
  setBound_columns r r' j side q hr hset := by
    have hm := h.reachable hr
    have hmap := map_setBound r j side (.fin q)
    rw [hset, Simplex.map_setBound] at hmap
    have hrange := Model.colRange_setColBounds hm.wellFormed.colLower hm.wellFormed.colUpper
      hmap.symm
    obtain ⟨hj, -, -, hm'⟩ := Model.setColBounds_ok hmap.symm
    obtain rfl : j = 0 := Nat.lt_one_iff.mp (hm.numCols ▸ hj)
    rw [hm.kind] at hrange
    constructor
    · apply sameColumns
      · rw [hm']
      · rw [hm']
    · intro _ k
      exact hrange k
  optimal r hr hopt j hj := by
    have hm := h.reachable hr
    obtain ⟨hmax, -⟩ := (exactOracle hm).maximal .root hopt
    have hvar : j < Relaxation.numVariables (Relaxation.solve r).2 := by
      change j < (Relaxation.solve r).2.model.numCols
      rw [model_solve]
      exact hj
    rw [← coord_pointOf _ hvar]
    exact hmax.admits.columns j hj

/-- The range from 0 to 10 allows 2047 nodes, fewer than the run may take. -/
theorem search_within_budget_capped :
    iterationBudget ((checkedColumns .allColumns OneColumn.capped).map
      (Relaxation.bounds OneColumn.capped)) = 2047 ∧
    ∀ limit best, (branchAndCut ⟨plainSettings, CutPool.mostRecent⟩ .quiet Telemetry.disabled
      OneColumn.capped).result ≠ .error (.iterationLimit limit best) := by
  have hcolumns : checkedColumns .allColumns OneColumn.capped = [0] := by cbv
  have hbudget : iterationBudget ((checkedColumns .allColumns OneColumn.capped).map
      (Relaxation.bounds OneColumn.capped)) = 2047 := by
    rw [hcolumns]
    change iterationBudget [(.fin 0, .fin 10)] = 2047
    have hsplits : splits (.fin 0, .fin 10) = 10 := by
      norm_num [splits]
      rfl
    rw [iterationBudget, List.map_singleton, List.sum_singleton, hsplits]
    norm_num
  have hfinite : ∀ j ∈ checkedColumns .allColumns OneColumn.capped,
      FiniteRange (Relaxation.bounds OneColumn.capped j) := by
    intro j hj
    rw [hcolumns, List.mem_singleton] at hj
    subst hj
    exact ⟨rfl, rfl⟩
  obtain ⟨-, hbounded⟩ := search_within_budget OneColumn.capped
    (OneColumn.rangedOracle OneColumn.fits_capped) .allColumns hfinite
    ⟨plainSettings, CutPool.mostRecent⟩ rfl (Exact.le_refl rfl)
  refine ⟨hbudget, hbounded ?_ Silence .quiet Telemetry.disabled⟩
  rw [hbudget]
  decide

end MixedInteger
