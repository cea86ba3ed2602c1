import MixedInteger.Proofs.NodeBounds

/-!
# What waits in the open nodes

At every moment of a search without cuts the waiting nodes share out what is left to find: an
integral point that is better than the incumbent waits in one node and in no other, and the bound of
that node is no smaller than the objective of the point. So whatever ends a search, the incumbent
and the largest bound of a waiting node enclose the optimum.

* `Search.Partitioned`: waiting nodes know their bounds and have no point in common;
* `Search.Partitioned.advance`: one iteration keeps that;
* `openNodes_partition`: where the better points wait, at every moment.
-/

namespace MixedInteger

open Exact hiding isFinite isNaN

variable {R : Type} [Relaxation R Exact]

section Invariant

variable (model : R → Model Exact)

/-- No point is admitted by both nodes. -/
def Subproblem.Apart (a b : Subproblem R Exact) : Prop :=
  ∀ x, (model a.model).Admits x → ¬ (model b.model).Admits x

/-- The waiting nodes know their bounds and have no point in common. -/
structure Search.Partitioned (s : Search R Exact) : Prop where
  bounded : ∀ node ∈ s.pool.waiting, node.Bounded model
  apart : s.pool.waiting.toList.Pairwise (Subproblem.Apart model)

end Invariant

variable {model : R → Model Exact} {root : R}

namespace Subproblem

variable {a b c : Subproblem R Exact}

omit [Relaxation R Exact] in
theorem Apart.symm (h : a.Apart model b) : b.Apart model a :=
  fun x hb ha => h x ha hb

theorem Apart.part (h : a.Apart model b) (hc : c.Part model b.model) : a.Apart model c :=
  fun x ha hx => h x ha (hc.restricts.admits x hx)

end Subproblem

namespace Search

variable {plan : Plan Exact}

/-- Without cuts the children of a node are parts of it that have no point in common. -/
theorem Disposes.parts {i i' : Incumbent Exact} {node : Subproblem R Exact} {fate : Fate}
    {children : List (Subproblem R Exact)} (h : Disposes plan i node fate children i')
    (oracle : ExactOracle model node.model) (wf : (model node.model).WellFormed)
    (hoff : plan.settings.cutStrategy = .off) (htol : plan.settings.integralityTol = 0) :
    (∀ child ∈ children, child.Part model node.model) ∧
      children.Pairwise (Subproblem.Apart model) := by
  cases h with
  | infeasible => simp
  | integral => simp
  | fathomed => simp
  | @branched pick r first second hopt _ hpick hcut hdown hup =>
    cases hcut with
    | row henabled => simp [Settings.cutsEnabled, hoff] at henabled
    | none =>
      have hsame := oracle.solve_model _ .root
      rw [htol] at hpick
      obtain ⟨q, hsplits⟩ := oracle.picked (Exact.le_refl rfl) hopt hpick
      rw [← hsame] at wf hsplits
      obtain ⟨hfirst, hsecond, hapart⟩ :=
        (oracle.derived Derived.root.solve).split wf hsplits hdown hup
      have hpart {c : Subproblem R Exact} (hc : c.Part model (Relaxation.solve node.model).2) :
          c.Part model node.model :=
        ⟨Derived.root.solve.trans hc.derived, hsame ▸ hc.restricts, hc.bound, hc.isRoot⟩
      constructor
      · intro child hchild
        rcases List.mem_pair.mp hchild with rfl | rfl
        · exact hpart hfirst
        · exact hpart hsecond
      · exact List.pairwise_pair.mpr hapart

omit [Relaxation R Exact] in
theorem partitioned_initial (settings : Settings Exact) :
    (initial settings root).Partitioned model := by
  have hwaiting : (initial settings root).pool.waiting = #[Subproblem.root 1 root] := rfl
  constructor
  · intro node hnode
    rw [hwaiting, List.mem_toArray, List.mem_singleton] at hnode
    subst hnode
    exact ⟨fun _ => rfl, nofun⟩
  · rw [hwaiting]
    exact List.pairwise_singleton _ _

/-- An iteration replaces a node by parts of it, if by anything. -/
theorem Partitioned.advance (oracle : ExactOracle model root)
    (hoff : plan.settings.cutStrategy = .off) (htol : plan.settings.integralityTol = 0)
    {s : Search R Exact} (hs : s.Partitioned model) (hsound : s.Sound model root plan.settings)
    (hwaits : s.pool.isEmpty = false) {notices : List (Notice Exact)} {p : Progress R Exact}
    (h : s.advance plan = (notices, .ok p)) : p.search.Partitioned model := by
  obtain ⟨node, k, pool, fate, children, -, hdisposes, hstep⟩ := advance_disposes hwaits h
  have hnode := hsound.nodes node hstep.node_pooled
  obtain ⟨hparts, hapart⟩ := hdisposes.parts (oracle.derived hnode.derived)
    hnode.restricts.wellFormed hoff htol
  constructor
  · intro other hother
    rcases hstep.mem_waiting hother with hold | hnew
    · exact hs.bounded other hold
    · exact (hparts other hnew).bounded
  · obtain ⟨before, after, hwaiting, hleft⟩ := hstep.pool
    have hall := hs.apart
    rw [hwaiting, List.pairwise_middle fun h => h.symm] at hall
    obtain ⟨hbeside, hothers⟩ := List.pairwise_cons.mp hall
    rw [hleft, List.pairwise_append]
    refine ⟨hothers, hapart, ?_⟩
    -- What was apart from the node is apart from every part of it.
    intro other hother child hchild
    exact (hbeside other hother).symm.part (hparts child hchild)

omit [Relaxation R Exact] in
/-- A point is admitted by one waiting node at most. -/
theorem Partitioned.position_unique {s : Search R Exact} (hs : s.Partitioned model)
    {a b : Subproblem R Exact} {i k : Nat} {x : Point Exact}
    (hi : s.pool.waiting[i]? = some a) (hk : s.pool.waiting[k]? = some b)
    (ha : (model a.model).Admits x) (hb : (model b.model).Admits x) : i = k := by
  rw [← Array.getElem?_toList] at hi hk
  obtain ⟨hi', rfl⟩ := List.getElem?_eq_some_iff.mp hi
  obtain ⟨hk', rfl⟩ := List.getElem?_eq_some_iff.mp hk
  have hpairs := List.pairwise_iff_getElem.mp hs.apart
  rcases Nat.lt_trichotomy i k with hlt | heq | hlt
  · exact absurd hb (hpairs i k hi' hk' hlt x ha)
  · exact heq
  · exact absurd ha (hpairs k i hk' hi' hlt x hb)

/-- Wherever a search without cuts comes to, it is sound and its nodes partition what is left. -/
theorem Visits.partitioned (oracle : ExactOracle model root) (wf : (model root).WellFormed)
    (hoff : plan.settings.cutStrategy = .off) (htol : plan.settings.integralityTol = 0)
    {picks : List (Violation Exact)} {s : Search R Exact} (h : Visits plan root picks s) :
    s.Sound model root plan.settings ∧ s.Partitioned model := by
  induction h with
  | start => exact ⟨initial_sound plan.settings wf, partitioned_initial plan.settings⟩
  | next _ hwaits hadvance ih =>
    obtain ⟨hsound, hs⟩ := ih
    constructor
    · exact (advance_sound oracle wf (cutsSafe_off oracle hoff) htol hsound hwaits hadvance).1
    · exact hs.advance oracle hoff htol hsound hwaits hadvance

/-- An integral point that is better than the incumbent waits in a node whose bound shows it. -/
theorem Partitioned.waits {settings : Settings Exact} {s : Search R Exact}
    (hs : s.Partitioned model) (hsound : s.Sound model root settings) {x : Point Exact}
    (hx : (model root).IntegralPoint settings.scope x)
    (hbetter : s.incumbent.bestLowerBound < (model root).objectiveValue x) :
    ∃ (i : Nat) (node : Subproblem R Exact), s.pool.waiting[i]? = some node ∧
      (model node.model).Admits x ∧ (model root).objectiveValue x ≤ node.upperBound := by
  rcases hsound.covered x hx with hbeaten | ⟨node, hnode, hadmits⟩
  · exact absurd hbetter (Exact.not_lt_of_le hbeaten)
  · obtain ⟨i, hi⟩ := Array.getElem?_of_mem hnode
    refine ⟨i, node, hi, hadmits, ?_⟩
    have hrestr := (hsound.nodes node hnode).restricts
    rw [← hrestr.objectiveValue]
    exact (hs.bounded node hnode).le hrestr.wellFormed.objective hadmits

/-- The incumbent and the waiting nodes enclose the objective of every integral point. -/
theorem Partitioned.le_larger {settings : Settings Exact} {s : Search R Exact}
    (hs : s.Partitioned model) (hsound : s.Sound model root settings) {x : Point Exact}
    (hx : (model root).IntegralPoint settings.scope x) :
    (model root).objectiveValue x ≤ Scalar.larger s.incumbent.bestLowerBound s.pool.bestBound := by
  rcases hsound.covered x hx with hbeaten | ⟨node, hnode, hadmits⟩
  · exact le_larger_left hbeaten _
  · have hrestr := (hsound.nodes node hnode).restricts
    have hle := (hs.bounded node hnode).le hrestr.wellFormed.objective hadmits
    rw [hrestr.objectiveValue] at hle
    apply le_larger_right
    apply le_foldl_larger _ _ hle
    exact List.mem_map_of_mem (Array.mem_toList_iff.mpr hnode)

end Search

/-- No solution is lost at any moment. Wherever a search without cuts and without tolerance comes
to, an integral point of the root model that is better than the incumbent is admitted by one waiting
node only, whose bound is at least its objective; no point at all is admitted by two waiting nodes;
and no integral point is better than both the incumbent and the largest bound of a waiting node. The
result of every run, cancelled ones included, is read off such a search. -/
theorem openNodes_partition (oracle : ExactOracle model root) (built : (model root).Built)
    (plan : Plan Exact) (hoff : plan.settings.cutStrategy = .off)
    (htol : plan.settings.integralityTol = 0) :
    (∀ picks s, Search.Visits plan root picks s →
      (∀ x, (model root).IntegralPoint plan.settings.scope x →
        s.incumbent.bestLowerBound < (model root).objectiveValue x →
        ∃ (i : Nat) (node : Subproblem R Exact), s.pool.waiting[i]? = some node ∧
          (model node.model).Admits x ∧ (model root).objectiveValue x ≤ node.upperBound ∧
          ∀ (k : Nat) (other : Subproblem R Exact), s.pool.waiting[k]? = some other →
            (model other.model).Admits x → k = i) ∧
      (∀ (x : Point Exact) (i k : Nat) (a b : Subproblem R Exact),
        s.pool.waiting[i]? = some a → s.pool.waiting[k]? = some b →
        (model a.model).Admits x → (model b.model).Admits x → i = k) ∧
      ∀ x, (model root).IntegralPoint plan.settings.scope x → (model root).objectiveValue x
        ≤ Scalar.larger s.incumbent.bestLowerBound s.pool.bestBound) ∧
    ∀ (L : Type) [Link L] (around : Surroundings L) (telemetry : Telemetry L)
      (sol : Solution Exact), (branchAndCut plan around telemetry root).result = .ok sol →
      ∃ picks s, Search.Visits plan root picks s ∧ sol = Solution.ofSearch s sol.status := by
  constructor
  · intro picks s hvisits
    obtain ⟨hsound, hs⟩ := hvisits.partitioned oracle built.wellFormed hoff htol
    refine ⟨?_, ?_, fun x hx => hs.le_larger hsound hx⟩
    · intro x hx hbetter
      obtain ⟨i, node, hi, hadmits, hle⟩ := hs.waits hsound hx hbetter
      refine ⟨i, node, hi, hadmits, hle, ?_⟩
      intro k other hk hother
      exact hs.position_unique hk hi hother hadmits
    · intro x i k a b hi hk ha hb
      exact hs.position_unique hi hk ha hb
  · intro L _ around telemetry sol hrun
    exact branchAndCut_visits hrun

theorem OneColumn.integralPoint_capped :
    capped.model.IntegralPoint .allColumns #[.fin 2] := by
  constructor
  · apply Model.admits_iff.mpr
    exact ⟨isRational_singleton 2, by cbv⟩
  · intro j hj
    obtain rfl : j = 0 := Nat.lt_one_iff.mp hj.1
    exact ⟨2, rfl⟩

/-- A run that is cancelled after one iteration has no incumbent yet. The optimum 2 waits in one of
its two open nodes. -/
theorem openNodes_partition_capped : ∃ (sol : Solution Exact) (s : Search OneColumn Exact),
    (branchAndCut ⟨plainSettings, CutPool.mostRecent⟩ ⟨fun n _ => decide (1 ≤ n), fun _ => 0⟩
      Telemetry.disabled OneColumn.capped).result = .ok sol ∧ sol.status = .interrupted ∧
    sol = Solution.ofSearch s sol.status ∧ sol.objective = .negInf ∧
    (∃ (i : Nat) (node : Subproblem OneColumn Exact), s.pool.waiting[i]? = some node ∧
      node.model.model.Admits #[.fin 2] ∧ .fin 2 ≤ node.upperBound ∧
      ∀ (k : Nat) (other : Subproblem OneColumn Exact), s.pool.waiting[k]? = some other →
        other.model.model.Admits #[.fin 2] → k = i) ∧
    .fin 2 ≤ Scalar.larger .negInf s.pool.bestBound := by
  have hrun : (branchAndCut ⟨plainSettings, CutPool.mostRecent⟩
      ⟨fun n _ => decide (1 ≤ n), fun _ => 0⟩ Telemetry.disabled OneColumn.capped).result.map
      (fun sol => (sol.status, sol.objective)) = .ok (.interrupted, .negInf) := by
    cbv
  obtain ⟨sol, hsol, heq⟩ := exists_ok_of_map hrun
  obtain ⟨hstatus, hobj⟩ := Prod.mk.inj heq
  obtain ⟨hvisited, hresult⟩ := openNodes_partition
    (OneColumn.exactOracle OneColumn.fits_capped) OneColumn.built_capped
    ⟨plainSettings, CutPool.mostRecent⟩ rfl rfl
  obtain ⟨picks, s, hvisits, hread⟩ := hresult _ _ _ sol hsol
  have hbest : s.incumbent.bestLowerBound = .negInf := by
    rw [← hobj, hread]
    rfl
  have hvalue : OneColumn.capped.model.objectiveValue #[.fin 2] = .fin 2 := by cbv
  obtain ⟨hwaits, -, hle⟩ := hvisited picks s hvisits
  have hplace := hwaits _ OneColumn.integralPoint_capped
  have hlarger := hle _ OneColumn.integralPoint_capped
  rw [hbest, hvalue] at hplace hlarger
  exact ⟨sol, s, hsol, hstatus, hread, hobj, hplace (negInf_lt_fin 2), hlarger⟩

end MixedInteger
