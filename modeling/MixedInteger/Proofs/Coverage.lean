import MixedInteger.Proofs.ExactOracle

/-!
# No solution is lost

The invariant of a search over an exact oracle: every integral point of the root is either no better
than the incumbent, or it is admitted by a waiting node. Each way of disposing of a node keeps it.

* `Search.Sound`: the invariant;
* `CutsSafe`: what adding cuts at a node has to guarantee;
* `advance_sound`: one iteration keeps the invariant, or settles the search;
* `Search.Settled`: no integral point is better than the incumbent.
-/

namespace MixedInteger

open Exact hiding isFinite isNaN
open Scalar (isFinite isNaN)

/-- `m` has the columns of `whole` and admits fewer points. -/
structure Model.Restricts (m whole : Model Exact) : Prop where
  wellFormed : m.WellFormed
  objective : m.objective = whole.objective
  kinds : m.kinds = whole.kinds
  admits : ∀ x, m.Admits x → whole.Admits x

namespace Model.Restricts

variable {m whole : Model Exact} {scope : Scope} {x : Point Exact}

theorem refl (wf : m.WellFormed) : m.Restricts m := ⟨wf, rfl, rfl, fun _ h => h⟩

theorem trans {m' : Model Exact} (h' : m'.Restricts m) (h : m.Restricts whole) :
    m'.Restricts whole :=
  ⟨h'.wellFormed, h'.objective.trans h.objective, h'.kinds.trans h.kinds,
    fun x hx => h.admits x (h'.admits x hx)⟩

theorem objectiveValue (h : m.Restricts whole) : m.objectiveValue x = whole.objectiveValue x := by
  unfold Model.objectiveValue
  rw [h.objective]

theorem checks (h : m.Restricts whole) (j : Nat) : scope.Checks m j ↔ scope.Checks whole j := by
  simp only [Scope.Checks, Model.numCols, Model.kind, h.objective, h.kinds]

theorem integralPoint (h : m.Restricts whole) (hx : m.IntegralPoint scope x) :
    whole.IntegralPoint scope x :=
  ⟨h.admits x hx.admits, fun j hj => hx.integral j ((h.checks j).mpr hj)⟩

theorem integralPoint_of_admits (h : m.Restricts whole) (hx : whole.IntegralPoint scope x)
    (ha : m.Admits x) : m.IntegralPoint scope x :=
  ⟨ha, fun j hj => hx.integral j ((h.checks j).mp hj)⟩

end Model.Restricts

/-- `m'` arises from `m` by rows that every integral point meets. -/
structure Model.Tightens (m' m : Model Exact) (scope : Scope) : Prop where
  restricts : m'.Restricts m
  colRange : ∀ j, m'.colRange j = m.colRange j
  keeps : ∀ x, m.IntegralPoint scope x → m'.Admits x

theorem Model.Tightens.refl {m : Model Exact} (wf : m.WellFormed) (scope : Scope) :
    m.Tightens m scope :=
  ⟨.refl wf, fun _ => rfl, fun _ h => h.admits⟩

variable {R : Type} [Relaxation R Exact]

section Invariant

variable (model : R → Model Exact) (root : R) (scope : Scope) (settings : Settings Exact)

/-- The node stands for a part of the root model; a node marked as root stands for all of it. -/
structure NodeSound (node : Subproblem R Exact) : Prop where
  derived : Derived root node.model
  restricts : (model node.model).Restricts (model root)
  whole : node.isRoot = true → model node.model = model root

/-- The incumbent is an integral point of the root model with the recorded objective. -/
structure IncumbentSound (i : Incumbent Exact) : Prop where
  empty : i.found = none → i.bestLowerBound = .negInf
  found : ∀ f, i.found = some f → (model root).IntegralPoint scope f.point ∧
    (model root).objectiveValue f.point = i.bestLowerBound

/-- The point is no better than the incumbent. -/
def Beaten (i : Incumbent Exact) (x : Point Exact) : Prop :=
  (model root).objectiveValue x ≤ i.bestLowerBound

/-- Every integral point that is better than the incumbent waits in some node. -/
structure Search.Sound (s : Search R Exact) : Prop where
  nodes : ∀ node ∈ s.pool.waiting, NodeSound model root node
  incumbent : IncumbentSound model root settings.scope s.incumbent
  generator : s.generator.settings = settings.gomory
  covered : ∀ x, (model root).IntegralPoint settings.scope x →
    Beaten model root s.incumbent x ∨ ∃ node ∈ s.pool.waiting, (model node.model).Admits x

/-- No integral point is better than the incumbent. -/
structure Search.Settled (s : Search R Exact) : Prop where
  incumbent : IncumbentSound model root scope s.incumbent
  beaten : ∀ x, (model root).IntegralPoint scope x → Beaten model root s.incumbent x

/-- The relaxation to branch from, after cuts if they are enabled. -/
def Search.tightened (plan : Plan Exact) (s : Search R Exact) (id : NodeId) (r : R) :
    Except (ModelError Exact) (Search R Exact × R) :=
  if plan.settings.cutsEnabled then s.addCuts plan id r else .ok (s, r)

/-- Cuts added to a solved relaxation keep its integral points. They leave the pool, the incumbent
and the settings of the generator. -/
def CutsSafe (plan : Plan Exact) : Prop :=
  ∀ (s s' : Search R Exact) (id : NodeId) (r r' : R), Derived root r → (model r).WellFormed →
    (Relaxation.solve r).1 = .optimal → s.generator.settings = plan.settings.gomory →
    s.tightened plan id (Relaxation.solve r).2 = .ok (s', r') →
    s'.pool = s.pool ∧ s'.incumbent = s.incumbent ∧
      s'.generator.settings = plan.settings.gomory ∧ Derived root r' ∧
      (model r').Tightens (model r) plan.settings.scope

end Invariant

variable {model : R → Model Exact} {root : R}

theorem cutsSafe_off (oracle : ExactOracle model root) {plan : Plan Exact}
    (hoff : plan.settings.cutStrategy = .off) : CutsSafe model root plan := by
  intro s s' id r r' hr wf _ hgen h
  have hdis : plan.settings.cutsEnabled = false := by simp [Settings.cutsEnabled, hoff]
  simp only [Search.tightened, hdis, Bool.false_eq_true, ↓reduceIte, Except.ok.injEq,
    Prod.mk.injEq] at h
  obtain ⟨rfl, rfl⟩ := h
  refine ⟨rfl, rfl, hgen, hr.solve, ?_⟩
  rw [oracle.solve_model r hr]
  exact .refl wf _

/-! ## Branching -/

/-- A child that was added is the relaxation with the bound moved, solved once. -/
theorem addChild_ok {s s' : Search R Exact} {parent id : NodeId} {depth : Nat} {r : R}
    {change : BoundChange Exact} {notices : List (Notice Exact)}
    (h : s.addChild parent depth r id change = (notices, .ok s')) :
    ∃ (moved : R) (child : Subproblem R Exact), change.apply r = .ok moved ∧
      child.model = (Relaxation.solve moved).2 ∧ child.isRoot = false ∧
      s'.pool = s.pool.push child ∧ s'.incumbent = s.incumbent ∧
      s'.generator = s.generator := by
  unfold Search.addChild Subproblem.child at h
  cases hmove : change.apply r with
  | error e => simp [hmove, bind, Except.bind] at h
  | ok moved =>
    simp only [hmove, bind, Except.bind, pure, Except.pure] at h
    split at h
    · simp at h
    · simp only [Prod.mk.injEq, Except.ok.injEq] at h
      obtain ⟨-, rfl⟩ := h
      exact ⟨moved, _, rfl, rfl, rfl, rfl, rfl, rfl⟩

/-- Branching on a column leaves two nodes, one with the bound moved to each side. -/
theorem branch_ok {plan : Plan Exact} {s s' : Search R Exact} {node : Subproblem R Exact} {r : R}
    {bound : Exact} {vs : List (Violation Exact)} {notices : List (Notice Exact)}
    (h : s.branch plan node r bound vs = (notices, .ok s')) :
    ∃ pick ∈ vs, ∃ (s₁ : Search R Exact) (r₁ down up : R) (first second : Subproblem R Exact),
      s.tightened plan node.id r = .ok (s₁, r₁) ∧
      Relaxation.setBound r₁ pick.column .upper (Scalar.floor pick.value) = .ok down ∧
      Relaxation.setBound r₁ pick.column .lower (Scalar.ceil pick.value) = .ok up ∧
      first.model = (Relaxation.solve down).2 ∧ first.isRoot = false ∧
      second.model = (Relaxation.solve up).2 ∧ second.isRoot = false ∧
      s'.pool = (s₁.pool.push first).push second ∧ s'.incumbent = s₁.incumbent ∧
      s'.generator = s₁.generator := by
  unfold Search.branch at h
  cases hpick : (plan.settings.branchingRule.select? vs).bind (vs[·]?) with
  | none => simp [hpick] at h
  | some pick =>
    obtain ⟨i, _, hi⟩ := Option.bind_eq_some_iff.mp hpick
    refine ⟨pick, List.mem_of_getElem? hi, ?_⟩
    simp only [hpick] at h
    rw [← Search.tightened] at h
    cases htight : s.tightened plan node.id r with
    | error e => simp [htight] at h
    | ok p =>
      obtain ⟨s₁, r₁⟩ := p
      simp only [htight, Search.addChildren, Prod.mk.injEq] at h
      split at h
      · simp at h
      · rename_i s₂ hdown
        obtain ⟨down, first, hmove, hmodel, hroot, hpool, hinc, hgen⟩ := addChild_ok hdown
        obtain ⟨up, second, hmove', hmodel', hroot', hpool', hinc', hgen'⟩ :=
          addChild_ok (Prod.ext rfl h.2)
        refine ⟨s₁, r₁, down, up, first, second, rfl, hmove, hmove', hmodel, hroot, hmodel',
          hroot', ?_, hinc'.trans hinc, hgen'.trans hgen⟩
        rw [hpool', hpool]

/-- Moving a bound inwards makes a sound child. -/
theorem child_sound (oracle : ExactOracle model root) {r moved : R} (hr : Derived root r)
    (hrestr : (model r).Restricts (model root)) {j : Nat} {side : Side} {q : ℚ}
    (hmove : Relaxation.setBound r j side (.fin q) = .ok moved)
    (hq : side.Inward (.fin q) ((model r).colRange j)) {child : Subproblem R Exact}
    (hmodel : child.model = (Relaxation.solve moved).2) (hroot : child.isRoot = false) :
    NodeSound model root child ∧ ∀ x, (model child.model).Admits x ↔
      (model r).Admits x ∧ side.Allows (.fin q) (x.coord j) := by
  obtain ⟨wf, hobj, hkinds, hadm⟩ := oracle.admits_setBound hr hrestr.wellFormed hmove hq
  have hderived : Derived root moved := hr.setBound hmove
  have hsame : model child.model = model moved := by rw [hmodel, oracle.solve_model _ hderived]
  refine ⟨⟨hmodel ▸ hderived.solve, ?_, by simp [hroot]⟩, fun x => hsame ▸ hadm x⟩
  rw [hsame]
  exact Model.Restricts.trans ⟨wf, hobj, hkinds, fun x hx => ((hadm x).mp hx).1⟩ hrestr

/-- Branching keeps every integral point of the node in one of its children. -/
theorem branch_sound (oracle : ExactOracle model root) {plan : Plan Exact}
    (hcuts : CutsSafe model root plan) {s s' : Search R Exact} {node : Subproblem R Exact}
    (hnode : NodeSound model root node) (hopt : (Relaxation.solve node.model).1 = .optimal)
    (hgen : s.generator.settings = plan.settings.gomory)
    {bound : Exact} {notices : List (Notice Exact)}
    (h : s.branch plan node (Relaxation.solve node.model).2 bound
      (violations (Relaxation.solve node.model).2 plan.settings.scope 0) = (notices, .ok s')) :
    s'.incumbent = s.incumbent ∧ s'.generator.settings = plan.settings.gomory ∧
      ∃ first second, s'.pool = (s.pool.push first).push second ∧
      NodeSound model root first ∧ NodeSound model root second ∧
      ∀ x, (model root).IntegralPoint plan.settings.scope x → (model node.model).Admits x →
        (model first.model).Admits x ∨ (model second.model).Admits x := by
  obtain ⟨pick, hpick, s₁, r₁, down, up, first, second, htight, hdown, hup, hfirst, hfroot,
    hsecond, hsroot, hpool, hinc, hgen'⟩ := branch_ok h
  obtain ⟨hpool₁, hinc₁, hgen₁, hr₁, ht⟩ :=
    hcuts s s₁ node.id node.model r₁ hnode.derived hnode.restricts.wellFormed hopt hgen htight
  obtain ⟨hchecks, hvalue⟩ := oracle.violation_mem hnode.derived hopt hpick
  obtain ⟨hmax, -⟩ := oracle.maximal hnode.derived hopt
  -- The value branched on lies in the column's range, so both bounds move inwards.
  obtain ⟨hlo, hup'⟩ := hmax.admits.columns pick.column hchecks.1
  rw [← hvalue, ← ht.colRange] at hlo hup'
  rw [Point.coord_eq hmax.admits.rational] at hvalue
  rw [hvalue] at hdown hup hlo hup'
  simp only [floor_fin, ceil_fin] at hdown hup
  set q := Point.rat (Search.pointOf (Relaxation.solve node.model).2) pick.column
  have hinward : Side.upper.Inward (.fin ⌊q⌋) ((model r₁).colRange pick.column) :=
    Exact.le_trans (fin_le.mpr (Int.floor_le q)) hup'
  have hinward' : Side.lower.Inward (.fin ⌈q⌉) ((model r₁).colRange pick.column) :=
    Exact.le_trans hlo (fin_le.mpr (Int.le_ceil q))
  have hrestr := ht.restricts.trans hnode.restricts
  obtain ⟨hns, hadm⟩ := child_sound oracle hr₁ hrestr hdown hinward hfirst hfroot
  obtain ⟨hns', hadm'⟩ := child_sound oracle hr₁ hrestr hup hinward' hsecond hsroot
  refine ⟨hinc.trans hinc₁, hgen' ▸ hgen₁, first, second, by rw [hpool, hpool₁], hns, hns', ?_⟩
  intro x hx hxn
  have hxm := hnode.restricts.integralPoint_of_admits hx hxn
  have hx₁ := ht.keeps x hxm
  obtain ⟨z, hz⟩ := hxm.integral pick.column hchecks
  rcases le_floor_or_ceil_le z q with hz' | hz'
  · exact .inl ((hadm x).mpr ⟨hx₁, by rw [hz]; exact fin_le.mpr hz'⟩)
  · exact .inr ((hadm' x).mpr ⟨hx₁, by rw [hz]; exact fin_le.mpr hz'⟩)

/-! ## Disposing of a node -/

/-- The classification of a solved relaxation, read backwards. -/
theorem classify_cases (r : R) (verdict : Verdict) (scope : Scope) :
    (verdict ≠ .optimal ∧ classify r verdict scope 0 = .infeasible) ∨
    (verdict = .optimal ∧ violations r scope 0 = [] ∧ classify r verdict scope 0 = .integral) ∨
    (verdict = .optimal ∧
      classify r verdict scope 0 = .fractional (violations r scope 0)) := by
  unfold classify
  by_cases hv : verdict = .optimal
  · cases hvs : violations r scope 0 <;> simp [hv]
  · simp [hv]

theorem offer_eq (s : Search R Exact) (id : NodeId) (r : R) (bound : Exact) :
    (s.offer id r bound).2.pool = s.pool ∧
      (s.offer id r bound).2.generator = s.generator ∧
      (s.offer id r bound).2.incumbent =
        s.incumbent.update bound ⟨Search.pointOf r, describeSolution id r, id⟩ := by
  unfold Search.offer Incumbent.update
  split <;> simp_all

omit [Relaxation R Exact] in
/-- The recorded objective is `-∞` or a rational number. -/
theorem IncumbentSound.isNaN_eq {scope : Scope} {i : Incumbent Exact}
    (hi : IncumbentSound model root scope i) (wf : (model root).WellFormed) :
    isNaN i.bestLowerBound = false := by
  cases hf : i.found with
  | none => rw [hi.empty hf]; rfl
  | some f =>
    obtain ⟨hp, hv⟩ := hi.found f hf
    rw [← hv, Model.objectiveValue_eq wf.objective hp.admits.rational hp.admits.size]
    rfl

omit [Relaxation R Exact] in
/-- Offering an integral point leaves an incumbent that is at least as good as both. -/
theorem IncumbentSound.update {scope : Scope} {i : Incumbent Exact}
    (hi : IncumbentSound model root scope i) (wf : (model root).WellFormed) {f : Found Exact}
    (hf : (model root).IntegralPoint scope f.point) {bound : Exact}
    (hbound : (model root).objectiveValue f.point = bound) :
    IncumbentSound model root scope (i.update bound f) ∧
    i.bestLowerBound ≤ (i.update bound f).bestLowerBound ∧
    bound ≤ (i.update bound f).bestLowerBound := by
  have hfin := Model.objectiveValue_eq wf.objective hf.admits.rational hf.admits.size
  rw [hbound] at hfin
  by_cases himp : i.bestLowerBound < bound
  · have hupd : i.update bound f = ⟨some f, bound, i.history.push bound⟩ := by
      simp [Incumbent.update, Incumbent.improvedBy, himp]
    rw [hupd]
    refine ⟨⟨by simp, ?_⟩, le_of_lt himp, le_refl (by rw [hfin]; rfl)⟩
    intro g hg
    cases hg
    exact ⟨hf, hbound⟩
  · have hupd : i.update bound f = i := by
      simp [Incumbent.update, Incumbent.improvedBy, himp]
    rw [hupd]
    refine ⟨hi, le_refl (hi.isNaN_eq wf), ?_⟩
    rw [hfin] at himp ⊢
    exact le_of_not_lt (hi.isNaN_eq wf) himp

/-- A search without the node at hand, which waits no more: what is left to show is that its points
are beaten or wait in other nodes. -/
structure Search.SoundBeside (model : R → Model Exact) (root : R) (settings : Settings Exact)
    (node : Subproblem R Exact) (s : Search R Exact) : Prop where
  taken : NodeSound model root node
  nodes : ∀ other ∈ s.pool.waiting, NodeSound model root other
  incumbent : IncumbentSound model root settings.scope s.incumbent
  generator : s.generator.settings = settings.gomory
  covered : ∀ x, (model root).IntegralPoint settings.scope x → Beaten model root s.incumbent x ∨
    (model node.model).Admits x ∨ ∃ other ∈ s.pool.waiting, (model other.model).Admits x

/-- A disposal keeps the invariant, and settles the search if it says so. -/
def Search.Disposal.Sound (model : R → Model Exact) (root : R) (settings : Settings Exact)
    (d : Search.Disposal R Exact) : Prop :=
  d.search.Sound model root settings ∧
    (d.stop = true → d.search.Settled model root settings.scope)

section Process

variable {plan : Plan Exact} {s : Search R Exact} {node : Subproblem R Exact}

theorem infeasible_sound (oracle : ExactOracle model root)
    (hs : s.SoundBeside model root plan.settings node)
    (hopt : (Relaxation.solve node.model).1 ≠ .optimal) :
    Search.Disposal.Sound model root plan.settings ⟨s, .prunedInfeasible, node.isRoot⟩ := by
  have hno := oracle.not_admits hs.taken.derived hopt
  refine ⟨⟨hs.nodes, hs.incumbent, hs.generator, ?_⟩, ?_⟩
  · intro x hx
    rcases hs.covered x hx with hb | hn | hother
    · exact .inl hb
    · exact absurd hn (hno x)
    · exact .inr hother
  · intro hroot
    refine ⟨hs.incumbent, ?_⟩
    intro x hx
    exact absurd (hs.taken.whole hroot ▸ hx.admits) (hno x)

theorem integral_sound (oracle : ExactOracle model root) (wf : (model root).WellFormed)
    (hs : s.SoundBeside model root plan.settings node)
    (hopt : (Relaxation.solve node.model).1 = .optimal)
    (hnone : violations (Relaxation.solve node.model).2 plan.settings.scope 0 = []) :
    Search.Disposal.Sound model root plan.settings
      ⟨(s.offer node.id (Relaxation.solve node.model).2
        (Relaxation.objectiveValue (Relaxation.solve node.model).2)).2, .prunedIntegral,
        node.isRoot⟩ := by
  let r := (Relaxation.solve node.model).2
  let f : Found Exact := ⟨Search.pointOf r, describeSolution node.id r, node.id⟩
  obtain ⟨hpool, hgen, hinc⟩ := offer_eq s node.id r (Relaxation.objectiveValue r)
  obtain ⟨hmax, hobj⟩ := oracle.maximal hs.taken.derived hopt
  have hpoint : (model root).IntegralPoint plan.settings.scope f.point :=
    hs.taken.restricts.integralPoint (oracle.integralPoint hs.taken.derived hopt hnone)
  obtain ⟨hsound, hold, hnew⟩ := hs.incumbent.update wf hpoint
    (hs.taken.restricts.objectiveValue.symm.trans hobj.symm)
  rw [← hinc] at hsound hold hnew
  -- The point offered is a best one of the node, so the node is beaten as a whole.
  have hbeaten : ∀ x, (model node.model).Admits x →
      Beaten model root (s.offer node.id r (Relaxation.objectiveValue r)).2.incumbent x := by
    intro x hx
    refine Exact.le_trans ?_ hnew
    rw [← hs.taken.restricts.objectiveValue, hobj]
    exact hmax.le x hx
  refine ⟨⟨hpool ▸ hs.nodes, hsound, hgen ▸ hs.generator, ?_⟩, ?_⟩
  · intro x hx
    rcases hs.covered x hx with hb | hn | hother
    · exact .inl (Exact.le_trans hb hold)
    · exact .inl (hbeaten x hn)
    · exact .inr (hpool ▸ hother)
  · intro hroot
    exact ⟨hsound, fun x hx => hbeaten x (hs.taken.whole hroot ▸ hx.admits)⟩

/-- A node that is not better than the incumbent has no point that is. -/
theorem fathomed_sound (oracle : ExactOracle model root)
    (hs : s.SoundBeside model root plan.settings node)
    (hopt : (Relaxation.solve node.model).1 = .optimal)
    (hdom : s.incumbent.dominates (Relaxation.objectiveValue (Relaxation.solve node.model).2)
      plan.settings.pruneTies = true) :
    Search.Disposal.Sound model root plan.settings ⟨s, .prunedByBound, false⟩ := by
  obtain ⟨hmax, hobj⟩ := oracle.maximal hs.taken.derived hopt
  have hle : Relaxation.objectiveValue (Relaxation.solve node.model).2
      ≤ s.incumbent.bestLowerBound := by
    unfold Incumbent.dominates at hdom
    split at hdom
    · simpa using hdom
    · exact le_of_lt (by simpa using hdom)
  refine ⟨⟨hs.nodes, hs.incumbent, hs.generator, ?_⟩, by simp⟩
  intro x hx
  rcases hs.covered x hx with hb | hn | hother
  · exact .inl hb
  · refine .inl (Exact.le_trans ?_ hle)
    rw [← hs.taken.restricts.objectiveValue, hobj]
    exact hmax.le x hn
  · exact .inr hother

theorem branched_sound (oracle : ExactOracle model root) (hcuts : CutsSafe model root plan)
    (hs : s.SoundBeside model root plan.settings node)
    (hopt : (Relaxation.solve node.model).1 = .optimal) {s' : Search R Exact} {bound : Exact}
    {notices : List (Notice Exact)}
    (h : s.branch plan node (Relaxation.solve node.model).2 bound
      (violations (Relaxation.solve node.model).2 plan.settings.scope 0) = (notices, .ok s')) :
    Search.Disposal.Sound model root plan.settings ⟨s', .branched, false⟩ := by
  obtain ⟨hinc, hgen, first, second, hpool, hfirst, hsecond, hsplit⟩ :=
    branch_sound oracle hcuts hs.taken hopt hs.generator h
  have hmem (n : Subproblem R Exact) : n ∈ s'.pool.waiting ↔
      n ∈ s.pool.waiting ∨ n = first ∨ n = second := by
    rw [hpool]
    simp [NodePool.push, or_assoc]
  refine ⟨⟨?_, hinc ▸ hs.incumbent, hgen, ?_⟩, by simp⟩
  · intro n hn
    rcases (hmem n).mp hn with hn | rfl | rfl
    · exact hs.nodes n hn
    · exact hfirst
    · exact hsecond
  · intro x hx
    rcases hs.covered x hx with hb | hn | ⟨n, hn, hadm⟩
    · exact .inl (hinc ▸ hb)
    · rcases hsplit x hx hn with hadm | hadm
      · exact .inr ⟨first, (hmem first).mpr (.inr (.inl rfl)), hadm⟩
      · exact .inr ⟨second, (hmem second).mpr (.inr (.inr rfl)), hadm⟩
    · exact .inr ⟨n, (hmem n).mpr (.inl hn), hadm⟩

/-- Whatever becomes of a node, no better integral point is lost. -/
theorem process_sound (oracle : ExactOracle model root) (wf : (model root).WellFormed)
    (hcuts : CutsSafe model root plan) (htol : plan.settings.integralityTol = 0)
    (hs : s.SoundBeside model root plan.settings node) {notices : List (Notice Exact)}
    {d : Search.Disposal R Exact} (h : s.process plan node = (notices, .ok d)) :
    d.Sound model root plan.settings := by
  unfold Search.process at h
  simp only [htol] at h
  rcases classify_cases (Relaxation.solve node.model).2 (Relaxation.solve node.model).1
      plan.settings.scope with ⟨hopt, hclass⟩ | ⟨hopt, hnone, hclass⟩ | ⟨hopt, hclass⟩
  · simp only [hclass, Prod.mk.injEq, Except.ok.injEq] at h
    exact h.2 ▸ infeasible_sound oracle hs hopt
  · simp only [hclass, Prod.mk.injEq, Except.ok.injEq] at h
    exact h.2 ▸ integral_sound oracle wf hs hopt hnone
  · simp only [hclass] at h
    split at h
    · simp only [Prod.mk.injEq, Except.ok.injEq] at h
      exact h.2 ▸ fathomed_sound oracle hs hopt ‹_›
    · simp only [Prod.mk.injEq] at h
      obtain ⟨s', hs', hd⟩ : ∃ s', (s.branch plan node (Relaxation.solve node.model).2
          (Relaxation.objectiveValue (Relaxation.solve node.model).2)
          (violations (Relaxation.solve node.model).2 plan.settings.scope 0)).2 = .ok s' ∧
          ⟨s', .branched, false⟩ = d := by
        revert h
        cases (s.branch plan node (Relaxation.solve node.model).2
          (Relaxation.objectiveValue (Relaxation.solve node.model).2)
          (violations (Relaxation.solve node.model).2 plan.settings.scope 0)).2 <;>
          simp [Except.map]
      exact hd ▸ branched_sound oracle hcuts hs hopt (Prod.ext rfl hs')

end Process

/-! ## Iterating -/

omit [Relaxation R Exact] in
/-- Taking a node out of the pool leaves exactly the others. -/
theorem take?_eq_some {pool pool' : NodePool R Exact} {selector : NodeSelector Exact}
    {node : Subproblem R Exact} {i : Nat} (h : pool.take? selector = some ((node, i), pool')) :
    node ∈ pool.waiting ∧ (∀ n ∈ pool'.waiting, n ∈ pool.waiting) ∧
      ∀ n ∈ pool.waiting, n = node ∨ n ∈ pool'.waiting := by
  obtain ⟨-, hn, rfl⟩ := NodePool.take?_eq_some_iff.mp h
  have hmem (m : Subproblem R Exact) : m ∈ pool.waiting.eraseIdxIfInBounds i ↔
      ∃ l, l ≠ i ∧ pool.waiting[l]? = some m := by
    rw [← Array.mem_toList_iff, Array.toList_eraseIdxIfInBounds, List.mem_eraseIdx_iff_getElem?]
    simp
  refine ⟨Array.mem_of_getElem? hn, ?_, ?_⟩
  · intro m hm
    obtain ⟨l, _, hl⟩ := (hmem m).mp hm
    exact Array.mem_of_getElem? hl
  · intro m hm
    obtain ⟨l, hl⟩ := Array.getElem?_of_mem hm
    by_cases hlk : l = i
    · subst hlk
      exact .inl (Option.some.inj (hl.symm.trans hn))
    · exact .inr ((hmem m).mpr ⟨l, hlk, hl⟩)

omit [Relaxation R Exact] in
/-- Both node orders name a waiting node as long as there is one. -/
theorem take?_ne_none {α : Type} [Scalar α] {pool : NodePool R α} (order : NodeOrder)
    (h : pool.isEmpty = false) : pool.take? order.selector ≠ none := by
  intro hnone
  have hlength : pool.bounds.length = pool.size := by simp [NodePool.bounds, NodePool.size]
  have hbounds : pool.bounds ≠ [] := by
    simpa [NodePool.bounds, NodePool.isEmpty] using h
  have hpick : ∃ i, order.selector pool.bounds = some i ∧ i < pool.bounds.length := by
    cases order with
    | depthFirst =>
      exact ⟨0, by simp [NodeOrder.selector, hbounds], List.length_pos_iff.mpr hbounds⟩
    | bestBound => exact exists_firstMax? hbounds
  obtain ⟨i, hi, hlt⟩ := hpick
  have hle := NodePool.take?_eq_none_iff.mp hnone i hi
  omega

/-- The invariant speaks of the pool, the incumbent and the generator only. -/
theorem Search.Sound.congr {settings : Settings Exact} {s s' : Search R Exact}
    (hs : s.Sound model root settings) (hpool : s'.pool = s.pool)
    (hinc : s'.incumbent = s.incumbent) (hgen : s'.generator = s.generator) :
    s'.Sound model root settings :=
  ⟨hpool ▸ hs.nodes, hinc ▸ hs.incumbent, hgen ▸ hs.generator, hpool ▸ hinc ▸ hs.covered⟩

/-- With a node taken out, the invariant holds beside that node. -/
theorem Search.Sound.take {settings : Settings Exact} {s s' : Search R Exact}
    (hs : s.Sound model root settings) {selector : NodeSelector Exact} {node : Subproblem R Exact}
    {i : Nat} (h : s.pool.take? selector = some ((node, i), s'.pool))
    (hinc : s'.incumbent = s.incumbent) (hgen : s'.generator = s.generator) :
    s'.SoundBeside model root settings node := by
  obtain ⟨hnode, hsub, hsplit⟩ := take?_eq_some h
  refine ⟨hs.nodes node hnode, fun n hn => hs.nodes n (hsub n hn), hinc ▸ hs.incumbent,
    hgen ▸ hs.generator, ?_⟩
  intro x hx
  rcases hs.covered x hx with hb | ⟨n, hn, hadm⟩
  · exact .inl (hinc ▸ hb)
  · rcases hsplit n hn with rfl | hn
    · exact .inr (.inl hadm)
    · exact .inr (.inr ⟨n, hn, hadm⟩)

omit [Relaxation R Exact] in
theorem conclude_ok {d : Search.Disposal R Exact} {id : NodeId} {s : Search R Exact}
    (h : Search.conclude d id = .ok s) :
    s.pool = d.search.pool ∧ s.incumbent = d.search.incumbent ∧
      s.generator = d.search.generator := by
  unfold Search.conclude at h
  split at h
  · cases h
  · cases h
    exact ⟨rfl, rfl, rfl⟩

/-- An iteration keeps the invariant, and the search is settled if the iteration says so. -/
theorem advance_sound (oracle : ExactOracle model root) (wf : (model root).WellFormed)
    {plan : Plan Exact} (hcuts : CutsSafe model root plan)
    (htol : plan.settings.integralityTol = 0) {s : Search R Exact}
    (hs : s.Sound model root plan.settings) (hpool : s.pool.isEmpty = false)
    {notices : List (Notice Exact)} {p : Search.Progress R Exact}
    (h : s.advance plan = (notices, .ok p)) :
    p.search.Sound model root plan.settings ∧
      (p.stop = true → p.search.Settled model root plan.settings.scope) := by
  unfold Search.advance at h
  cases htake : s.pool.take? plan.settings.nodeOrder.selector with
  | none => exact absurd htake (take?_ne_none _ hpool)
  | some t =>
    obtain ⟨⟨node, i⟩, pool'⟩ := t
    simp only [htake] at h
    split at h
    · simp at h
    · rename_i d hprocess
      split at h
      · simp at h
      · rename_i s' hconclude
        simp only [Prod.mk.injEq, Except.ok.injEq] at h
        obtain ⟨-, rfl⟩ := h
        have hd : d.Sound model root plan.settings := by
          refine process_sound oracle wf hcuts htol ?_ hprocess
          exact hs.take htake rfl rfl
        obtain ⟨hpool', hinc', hgen'⟩ := conclude_ok hconclude
        refine ⟨hd.1.congr hpool' hinc' hgen', ?_⟩
        intro hstop
        have hset := hd.2 hstop
        exact ⟨hinc' ▸ hset.incumbent, hinc' ▸ hset.beaten⟩

theorem initial_sound (settings : Settings Exact) (wf : (model root).WellFormed) :
    (Search.initial settings root).Sound model root settings := by
  refine ⟨?_, ⟨fun _ => rfl, by simp [Search.initial, Incumbent.initial]⟩, rfl, ?_⟩
  · intro node hnode
    have : node = Subproblem.root 1 root := by
      simpa [Search.initial, NodePool.push, NodePool.empty] using hnode
    subst this
    exact ⟨.root, .refl wf, fun _ => rfl⟩
  · intro x hx
    refine .inr ⟨Subproblem.root 1 root, ?_, hx.admits⟩
    simp [Search.initial, NodePool.push, NodePool.empty]

end MixedInteger
