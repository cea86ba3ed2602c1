import MixedInteger.Proofs.CutValidity
import MixedInteger.Proofs.SearchOptimum

/-!
# Cuts never change the answer

A cut that a search injects was generated from the very relaxation that it is injected into, and so
it is valid for the whole subtree below. With tolerance zero no integral point is lost, however
deeply cuts are derived from the rows of earlier cuts.

* `ExactTableau`: the tableau rows of the oracle say the truth about its models;
* `addCuts_ok`: which row a search adds to a relaxation;
* `cutsSafe_gomory`: that row keeps every integral point;
* `gomoryCuts_exact`: the result of a search with cuts, also against that of one without.
-/

namespace MixedInteger

open Exact hiding isFinite isNaN
open Scalar (isFinite isNaN)

/-- The range of a variable of the tableau. -/
def Model.tableauRange (m : Model Exact) : TableauVar → Exact × Exact
  | .row i => m.rowRange i
  | .column j => m.colRange j

/-- The kind of a variable of the tableau. Rows are continuous. -/
def Model.tableauKind (m : Model Exact) : TableauVar → Kind
  | .row _ => .continuous
  | .column j => m.kind j

variable {R : Type} [Relaxation R Exact]

/-- A tableau row of a solved relaxation for `m` that is an identity, shows the values, ranges and
kinds of the model, and has every variable resting where its status says. -/
structure TableauRow.TrueOf (m : Model Exact) (oracle : R) (column : Nat)
    (row : TableauRow Exact) : Prop where
  identity : ∀ x : Point Exact, x.IsRational → x.size = m.numCols → x.coord column =
    Scalar.sum (row.entries.map fun e => e.coefficient * e.var.valueAt oracle x)
  basicValue : row.basicValue = Point.coord (Search.pointOf oracle) column
  inRange : ∀ e ∈ row.entries, e.var.InRange oracle
  coefficient : ∀ e ∈ row.entries, isFinite e.coefficient = true
  range : ∀ e ∈ row.entries, (e.lower, e.upper) = m.tableauRange e.var
  kind : ∀ e ∈ row.entries, e.kind = m.tableauKind e.var
  status : ∀ e ∈ row.entries, e.activeBound = e.var.valueAt oracle (Search.pointOf oracle)
  fixed : ∀ e ∈ row.entries, e.rest = .fixed → e.lower = e.upper

/-- The tableau rows shown after an optimal solve are true. -/
def ExactTableau (model : R → Model Exact) (root : R) : Prop :=
  ∀ r, Derived root r → (Relaxation.solve r).1 = .optimal → ∀ column row,
    Relaxation.tableauRow? (Relaxation.solve r).2 column = some row →
      row.TrueOf (model r) (Relaxation.solve r).2 column

/-! ## What a search injects -/

section Inject

theorem generate_settings (g : Gomory Exact) (r : R) (j node : Nat) :
    (g.generate r j node).2.settings = g.settings := by
  unfold Gomory.generate
  split
  · rfl
  · dsimp only
    split
    · rfl
    · split
      · rfl
      · split <;> rfl

/-- Every cut of a round comes from one of the columns, by a generator with the same settings. -/
theorem generateAll_spec (g : Gomory Exact) (r : R) (node : NodeId) (js : List Nat) :
    (g.generateAll r node js).2.settings = g.settings ∧
      ∀ cut ∈ (g.generateAll r node js).1, ∃ (g' : Gomory Exact) (j : Nat), j ∈ js ∧
        g'.settings = g.settings ∧ (g'.generate r j node).1 = some cut := by
  induction js generalizing g with
  | nil => exact ⟨rfl, by simp [Gomory.generateAll]⟩
  | cons j js ih =>
    have hset := generate_settings g r j node
    unfold Gomory.generateAll
    cases hgen : g.generate r j node with
    | mk made g₁ =>
      rw [hgen] at hset
      obtain ⟨hrest, hcuts⟩ := ih g₁
      have later : ∀ cut ∈ (g₁.generateAll r node js).1, ∃ (g' : Gomory Exact) (k : Nat),
          k ∈ j :: js ∧ g'.settings = g.settings ∧ (g'.generate r k node).1 = some cut := by
        intro cut hcut
        obtain ⟨g', k, hk, hg', hmade⟩ := hcuts cut hcut
        exact ⟨g', k, List.mem_cons_of_mem _ hk, hg'.trans hset, hmade⟩
      cases made with
      | none => exact ⟨hrest.trans hset, later⟩
      | some cut =>
        refine ⟨hrest.trans hset, List.forall_mem_cons.mpr ⟨?_, later⟩⟩
        exact ⟨g, j, List.mem_cons_self, rfl, by rw [hgen]⟩

/-- Admitted cuts stand behind those that were there. -/
theorem cuts_admitted (cuts : List (Cut Exact)) (p : CutPool Exact) :
    (cuts.foldl CutPool.add p).cuts.map PooledCut.cut
      = p.cuts.map PooledCut.cut ++ cuts.toArray := by
  induction cuts generalizing p with
  | nil => simp
  | cons cut rest ih =>
    rw [List.foldl_cons, ih]
    simp [CutPool.add]

/-- A cut that was not in the pool before is one of those admitted. -/
theorem mem_of_admitted {cuts : List (Cut Exact)} {p : CutPool Exact} {i : Nat}
    {pooled : PooledCut Exact} (h : (cuts.foldl CutPool.add p).cuts[i]? = some pooled)
    (hi : p.size ≤ i) : pooled.cut ∈ cuts := by
  have hget := congrArg (·[i]?) (cuts_admitted cuts p)
  simp only [Array.getElem?_map, h, Option.map_some] at hget
  rw [Array.getElem?_append_right (by simpa [CutPool.size] using hi)] at hget
  exact List.mem_toArray.mp (Array.mem_of_getElem? hget.symm)

theorem le_of_mostRecent {p : CutPool Exact} {start stop i : Nat}
    (h : CutPool.mostRecent p start stop = some i) : start ≤ i := by
  simp only [CutPool.mostRecent] at h
  split at h
  · cases h
    omega
  · cases h

/-- Adding cuts leaves the relaxation, or adds to it one cut that was generated from it. The cuts of
other nodes stay in the pool. -/
theorem addCuts_ok {plan : Plan Exact} (hselect : plan.cutSelector = CutPool.mostRecent)
    {s s' : Search R Exact} {id : NodeId} {r r' : R} (h : s.addCuts plan id r = .ok (s', r')) :
    s'.pool = s.pool ∧ s'.incumbent = s.incumbent ∧
      s'.generator.settings = s.generator.settings ∧
      (r' = r ∨ ∃ (g : Gomory Exact) (j : Nat) (cut : Cut Exact) (i : Nat),
        j < Relaxation.numVariables r ∧ g.settings = s.generator.settings ∧
        (g.generate r j id).1 = some cut ∧
        Relaxation.addRow r cut.coefficients cut.lowerBound = .ok (i, r')) := by
  obtain ⟨hset, hmade⟩ := generateAll_spec s.generator r id (integralColumns r)
  simp only [Search.addCuts, hselect] at h
  split at h
  · simp only [pure, Except.pure, Except.ok.injEq, Prod.mk.injEq] at h
    obtain ⟨rfl, rfl⟩ := h
    exact ⟨rfl, rfl, hset, .inl rfl⟩
  · rename_i chosen hchosen
    unfold CutPool.inject CutPool.resolve? at h
    dsimp only at h
    split at h
    · simp only [bind, Except.bind, pure, Except.pure, Except.ok.injEq, Prod.mk.injEq] at h
      obtain ⟨rfl, rfl⟩ := h
      exact ⟨rfl, rfl, hset, .inl rfl⟩
    · rename_i pooled hpooled
      cases hadd : Relaxation.addRow r pooled.cut.coefficients pooled.cut.lowerBound with
      | error e => simp [hadd, bind, Except.bind] at h
      | ok t =>
        simp only [hadd, bind, Except.bind, pure, Except.pure, Except.ok.injEq,
          Prod.mk.injEq] at h
        obtain ⟨rfl, rfl⟩ := h
        have hmem := mem_of_admitted hpooled (le_of_mostRecent hchosen)
        obtain ⟨g, j, hj, hg, hcut⟩ := hmade _ (List.mem_of_mem_take hmem)
        refine ⟨rfl, rfl, hset, .inr ⟨g, j, pooled.cut, t.1, ?_, hg, hcut, hadd⟩⟩
        exact List.mem_range.mp (List.mem_filter.mp hj).1

end Inject

/-! ## The injected row keeps the integral points -/

section Safety

variable {model : R → Model Exact} {root r : R}

theorem rowsInRange (oracle : ExactOracle model root) (hr : Derived root r)
    (wf : (model r).WellFormed) : RowsInRange r := by
  intro i _
  rw [oracle.rowTerms r hr, oracle.numVariables r hr]
  exact ⟨wf.finite i, wf.columns i⟩

theorem valueAt_mem_range (oracle : ExactOracle model root) (hr : Derived root r)
    {x : Point Exact} (hx : (model r).Admits x) {var : TableauVar} (hvar : var.InRange r) :
    ((model r).tableauRange var).1 ≤ var.valueAt r x ∧
      var.valueAt r x ≤ ((model r).tableauRange var).2 := by
  cases var with
  | column j => exact hx.columns j (oracle.numVariables r hr ▸ hvar)
  | row i =>
    have hact : (TableauVar.row i).valueAt r x = (model r).rowActivity i x := by
      rw [TableauVar.valueAt, oracle.rowTerms r hr]
      unfold Model.line Model.rowActivity
      cases (model r).matrix.lines[i]? <;> rfl
    rw [hact]
    exact hx.rows i (oracle.numRows r hr ▸ hvar)

/-- A true row is one that a cut can rely on. -/
theorem TableauRow.TrueOf.usable (oracle : ExactOracle model root) (hr : Derived root r)
    (wf : (model r).WellFormed) {column : Nat} {row : TableauRow Exact}
    (hrow : row.TrueOf (model r) r column) (hpoint : (model r).Admits (Search.pointOf r)) :
    row.Usable r := by
  have hvalue (e : TableauEntry Exact) (he : e ∈ row.entries) :=
    Gomory.valueAt_eq (rowsInRange oracle hr wf) hpoint.rational (hrow.inRange e he)
  refine ⟨fun e he => ⟨hrow.inRange e he, hrow.coefficient e he, ?_, hrow.fixed e he⟩, ?_⟩
  · rw [hrow.status e he, hvalue e he]
    rfl
  · rw [hrow.basicValue, hrow.identity _ hpoint.rational hpoint.size]
    congr 1
    refine List.map_congr_left fun e he => ?_
    rw [hrow.status e he]

/-- An integral point is one that a cut from a true row must not remove. -/
theorem TableauRow.TrueOf.meets (oracle : ExactOracle model root) (hr : Derived root r)
    {column : Nat} {row : TableauRow Exact} (hrow : row.TrueOf (model r) r column)
    (hcol : column < (model r).numCols) (hkind : ((model r).kind column).isIntegral = true)
    {x : Point Exact} (hx : (model r).IntegralPoint .allColumns x) : row.Meets r column x := by
  have hint (j : Nat) (hj : j < (model r).numCols) (hk : ((model r).kind j).isIntegral = true) :
      (x.coord j).IsInteger :=
    hx.integral j ⟨hj, hk, by simp⟩
  refine ⟨hx.admits.rational, ?_, hrow.identity x hx.admits.rational hx.admits.size, ?_,
    hint column hcol hkind, ?_⟩
  · rw [oracle.numVariables r hr, hx.admits.size]
  · intro e he
    obtain ⟨hlower, hupper⟩ := Prod.mk.inj (hrow.range e he)
    rw [hlower, hupper]
    exact valueAt_mem_range oracle hr hx.admits (hrow.inRange e he)
  · intro e he hk
    have hvar := hrow.inRange e he
    rw [hrow.kind e he] at hk
    cases hv : e.var with
    | row i => simp [hv, Model.tableauKind, Kind.isIntegral] at hk
    | column j =>
      rw [hv] at hk hvar
      exact hint j (oracle.numVariables r hr ▸ hvar) hk

/-- A row is added to an exact oracle as it is added to its model. -/
theorem ExactOracle.addRow_ok (oracle : ExactOracle model root) (hr : Derived root r)
    {row : SparseRow Exact} (hrow : Sparse.Finite row.terms) {q : ℚ} {i : Nat} {r' : R}
    (h : Relaxation.addRow r row (.fin q) = .ok (i, r')) :
    (model r).addRow row.terms (.fin q) .posInf = .ok (model r') := by
  have hadd := oracle.addRow r hr row q hrow
  rw [Simplex.map_addRow, h] at hadd
  cases hm : (model r).addRow row.terms (.fin q) .posInf with
  | error e =>
    rw [hm] at hadd
    cases hadd
  | ok m =>
    rw [hm] at hadd
    exact congrArg Except.ok (Prod.mk.inj (Except.ok.inj hadd)).2.symm

/-- Adding a row that every integral point meets tightens the model. -/
theorem Model.tightens_addRow {m m' : Model Exact} (wf : m.WellFormed)
    {terms : List (Term Exact)} {lower : Exact} (h : m.addRow terms lower .posInf = .ok m')
    {scope : Scope}
    (hkeep : ∀ x, m.IntegralPoint scope x → lower ≤ .fin (Sparse.value terms x.rat)) :
    m'.Tightens m scope := by
  have hm := (Model.addRow_ok h).2.2
  refine ⟨⟨wf.addRow h, by rw [hm], by rw [hm], ?_⟩, fun j => by rw [hm]; rfl, ?_⟩
  · intro x hx
    exact ((Model.admits_addRow wf h).mp hx).1
  · intro x hx
    exact (Model.admits_addRow wf h).mpr ⟨hx.admits, hkeep x hx, fin_le_posInf _⟩

/-- A point that satisfies a rational cut meets the row that the cut becomes. -/
theorem Cut.le_of_isSatisfied {cut : Cut Exact} (hfin : Sparse.Finite cut.coefficients.terms)
    {q : ℚ} (hq : cut.lowerBound = .fin q) {x : Point Exact} (hx : x.IsRational)
    (h : cut.isSatisfied x 0 = true) :
    .fin q ≤ Exact.fin (Sparse.value cut.coefficients.terms x.rat) := by
  simp only [Cut.isSatisfied, Cut.violation?, Cut.activity?] at h
  split at h
  · rename_i v hv
    split at hv
    · rw [Sparse.dot_eq hfin hx, hq] at hv
      cases hv
      simpa using h
    · cases hv
  · cases h

/-- A cut generated from a true tableau row holds at every integral point, and the numbers in it are
rational. -/
theorem generated_keeps (oracle : ExactOracle model root) (tableau : ExactTableau model root)
    (hr : Derived root r) (wf : (model r).WellFormed) (hopt : (Relaxation.solve r).1 = .optimal)
    {g : Gomory Exact} (hz : g.settings.zeroTol = 0) {j node : Nat} {cut : Cut Exact}
    (hj : j < Relaxation.numVariables (Relaxation.solve r).2)
    (h : (g.generate (Relaxation.solve r).2 j node).1 = some cut) :
    Sparse.Finite cut.coefficients.terms ∧ isFinite cut.lowerBound = true ∧
      ∀ x, (model r).IntegralPoint .allColumns x → cut.isSatisfied x 0 = true := by
  have hsolve := oracle.solve_model r hr
  obtain ⟨row, -, hrow, hkind, -, -⟩ := Gomory.generate_eq_some h
  have htrue := tableau r hr hopt j row hrow
  have hadmits := (oracle.maximal hr hopt).1.admits
  rw [← hsolve] at htrue hadmits wf ⊢
  have hrows := rowsInRange oracle hr.solve wf
  have husable := htrue.usable oracle hr.solve wf hadmits
  obtain ⟨hfin, hlower⟩ := Gomory.generate_finite hz hrows hrow husable h
  refine ⟨hfin, hlower, fun x hx => ?_⟩
  refine Gomory.isSatisfied_of_meets hz hrows hrow husable h ?_
  refine htrue.meets oracle hr.solve (oracle.numVariables _ hr.solve ▸ hj) ?_ hx
  rw [← oracle.kind _ hr.solve]
  exact hkind

/-- With tolerance zero, cuts from true tableau rows are safe. -/
theorem cutsSafe_gomory (oracle : ExactOracle model root) (tableau : ExactTableau model root)
    {plan : Plan Exact} (hscope : plan.settings.scope = .allColumns)
    (hz : plan.settings.gomory.zeroTol = 0)
    (hselect : plan.cutSelector = CutPool.mostRecent) : CutsSafe model root plan := by
  intro s s' id r r' hr wf hopt hgen h
  have hsolve := oracle.solve_model r hr
  have hrefl : (model (Relaxation.solve r).2).Tightens (model r) plan.settings.scope := by
    rw [hsolve]
    exact .refl wf _
  unfold Search.tightened at h
  split at h
  · obtain ⟨hpool, hinc, hset, hcase⟩ := addCuts_ok hselect h
    refine ⟨hpool, hinc, hset.trans hgen, ?_⟩
    rcases hcase with rfl | ⟨g, j, cut, i, hj, hg, hcut, hadd⟩
    · exact ⟨hr.solve, hrefl⟩
    · obtain ⟨hfin, hlower, hkeep⟩ := generated_keeps oracle tableau hr wf hopt
        (by rw [hg, hgen, hz]) hj hcut
      rw [eq_fin hlower] at hadd
      refine ⟨hr.solve.addRow hfin hadd, ?_⟩
      have hmodel := oracle.addRow_ok hr.solve hfin hadd
      rw [hsolve] at hmodel
      refine Model.tightens_addRow wf hmodel fun x hx => ?_
      rw [hscope] at hx
      exact Cut.le_of_isSatisfied hfin (eq_fin hlower) hx.admits.rational (hkeep x hx)
  · cases h
    exact ⟨rfl, rfl, hgen, hr.solve, hrefl⟩

end Safety

/-! ## Whole runs -/

section Runs

variable {L : Type} [Link L] {model : R → Model Exact} {root : R}

/-- Two correct results for one model agree. -/
theorem Solution.Correct.agree {m : Model Exact} {scope : Scope} {sol sol' : Solution Exact}
    (h : sol.Correct m scope) (h' : sol'.Correct m scope) (hdone : sol.status ≠ .interrupted)
    (hdone' : sol'.status ≠ .interrupted) :
    sol.status = sol'.status ∧ sol.objective = sol'.objective := by
  cases hs : sol.status with
  | interrupted => exact absurd hs hdone
  | optimal =>
    have hopt := h.1 hs
    cases hs' : sol'.status with
    | interrupted => exact absurd hs' hdone'
    | infeasible => exact absurd ⟨_, hopt.point⟩ (h'.2 hs').1
    | optimal =>
      have hopt' := h'.1 hs'
      refine ⟨rfl, Exact.le_antisymm ?_ ?_⟩
      · exact hopt.objective ▸ hopt'.le _ hopt.point
      · exact hopt'.objective ▸ hopt.le _ hopt'.point
  | infeasible =>
    obtain ⟨hnone, hobj⟩ := h.2 hs
    cases hs' : sol'.status with
    | interrupted => exact absurd hs' hdone'
    | infeasible => exact ⟨rfl, hobj.trans (h'.2 hs').2.symm⟩
    | optimal => exact absurd ⟨_, (h'.1 hs').point⟩ hnone

/-- Cuts never change the answer. Over an exact oracle with true tableau rows, a search with cuts
that ends as optimal returns an integral point of the root model with the largest objective of all,
one that ends as infeasible has none to return, and a search without cuts that ends as well, over
this or any other exact oracle for the model, reports the same status and objective. -/
theorem gomoryCuts_exact (oracle : ExactOracle model root) (tableau : ExactTableau model root)
    (built : (model root).Built) (plan : Plan Exact)
    (hscope : plan.settings.scope = .allColumns) (htol : plan.settings.integralityTol = 0)
    (hzero : plan.settings.gomory.zeroTol = 0)
    (hselect : plan.cutSelector = CutPool.mostRecent) (around : Surroundings L)
    (telemetry : Telemetry L) {sol : Solution Exact}
    (h : (branchAndCut plan around telemetry root).result = .ok sol) :
    (sol.status = .optimal → (model root).IsOptimum .allColumns sol.values sol.objective) ∧
    (sol.status = .infeasible → ¬ ∃ x, (model root).IntegralPoint .allColumns x) ∧
    ∀ {R' L' : Type} [Relaxation R' Exact] [Link L'] {model' : R' → Model Exact} {root' : R'},
      ExactOracle model' root' → model' root' = model root →
      ∀ (plain : Plan Exact) (around' : Surroundings L') (telemetry' : Telemetry L')
        (sol' : Solution Exact), plain.settings.cutStrategy = .off →
      plain.settings.scope = .allColumns → plain.settings.integralityTol = 0 →
      (branchAndCut plain around' telemetry' root').result = .ok sol' →
      sol.status ≠ .interrupted → sol'.status ≠ .interrupted →
      sol.status = sol'.status ∧ sol.objective = sol'.objective := by
  have hcorrect := branchAndCut_result oracle built.wellFormed
    (cutsSafe_gomory oracle tableau hscope hzero hselect) htol around telemetry h
  rw [hscope] at hcorrect
  refine ⟨hcorrect.1, fun hinf => (hcorrect.2 hinf).1, ?_⟩
  intro R' L' _ _ model' root' oracle' hsame plain around' telemetry' sol' hoff hscope' htol' h'
    hdone hdone'
  have wf' : (model' root').WellFormed := hsame ▸ built.wellFormed
  have hcorrect' := branchAndCut_result oracle' wf' (cutsSafe_off oracle' hoff) htol' around'
    telemetry' h'
  rw [hscope', hsame] at hcorrect'
  exact hcorrect.agree hcorrect' hdone hdone'

end Runs

/-! ## Models with one column -/

namespace OneColumn

theorem infinity_ne_fin (q b : ℚ) : infinity q ≠ .fin b := by
  unfold infinity
  split
  · simp
  · split <;> simp

/-- Only a rational number has a rational quotient. -/
theorem eq_of_div_eq {u : Exact} {a b : ℚ} (ha : a ≠ 0) (h : u / .fin a = .fin b) :
    u = .fin (a * b) := by
  cases u with
  | undefined => cases h
  | fin q =>
    rw [fin_div q ha, Exact.fin.injEq] at h
    rw [← h, mul_div_cancel₀ q ha]
  | posInf => exact absurd ((posInf_div ha).symm.trans h) (infinity_ne_fin _ _)
  | negInf => exact absurd ((negInf_div ha).symm.trans h) (infinity_ne_fin _ _)

/-- The row that leaves exactly the value found, solved for the column. -/
theorem bindingRow?_eq_some {m : Model Exact} (hm : Fits m) {b : ℚ} {row : TableauRow Exact}
    (h : bindingRow? m (.fin b) = some row) :
    ∃ (i : Nat) (a : ℚ) (rest : Resting), i < m.numRows ∧ a ≠ 0 ∧ m.line i = [(0, .fin a)] ∧
      rest ≠ .fixed ∧ rest.value (m.rowRange i).1 (m.rowRange i).2 = .fin (a * b) ∧
      row = ⟨.fin b, [⟨.row i, .fin (1 / a), rest, (m.rowRange i).1, (m.rowRange i).2,
        .continuous⟩]⟩ := by
  obtain ⟨i, hfind, h⟩ := Option.bind_eq_some_iff.mp h
  obtain ⟨t, ht, h⟩ := Option.bind_eq_some_iff.mp h
  have hi := List.mem_range.mp (List.mem_of_find?_eq_some hfind)
  have hcap : cap m i = .fin b :=
    beq_fin_iff.mp (List.find?_some (p := fun i => cap m i == .fin b) hfind)
  have hrow := (Option.some.inj h).symm
  rcases row_cases hm i with ⟨hinf, -⟩ | ⟨a, hline, -, ⟨ha, hdiv⟩ | ⟨ha, hdiv⟩⟩
  · rw [hinf] at hcap
    cases hcap
  · rw [hline] at ht
    obtain rfl : (0, .fin a) = t := Option.some.inj ht
    refine ⟨i, a, .atUpper, hi, ha.ne', hline, by decide, ?_, ?_⟩
    · exact eq_of_div_eq ha.ne' (hdiv.symm.trans hcap)
    · simpa [ha, fin_div 1 ha.ne'] using hrow
  · rw [hline] at ht
    obtain rfl : (0, .fin a) = t := Option.some.inj ht
    refine ⟨i, a, .atLower, hi, ha.ne, hline, by decide, ?_, ?_⟩
    · exact eq_of_div_eq ha.ne (hdiv.symm.trans hcap)
    · simpa [not_lt.mpr ha.le, fin_div 1 ha.ne] using hrow

/-- The tableau rows are true, whatever bounds are moved and rows are added. -/
theorem exactTableau {root : OneColumn} (h : Fits root.model) :
    ExactTableau OneColumn.model root := by
  intro r hr hopt column row hrow
  have hm := h.derived hr
  have oracle := exactOracle h
  obtain ⟨b, hsolve, -, -⟩ := solve_eq hm ⟨_, (oracle.maximal hr hopt).1.admits⟩
  rw [hsolve] at hrow ⊢
  have hpoint := pointOf_eq (r := ⟨r.model, some (.fin b)⟩) hm rfl
  obtain ⟨rfl, hbind⟩ : column = 0 ∧ bindingRow? r.model (.fin b) = some row := by
    change (if column = 0 then bindingRow? r.model (.fin b) else none) = some row at hrow
    split at hrow
    · exact ⟨‹_›, hrow⟩
    · cases hrow
  obtain ⟨i, a, rest, hi, ha, hline, hrest, hbound, rfl⟩ := bindingRow?_eq_some hm hbind
  have hvalue (x : Point Exact) (hx : x.IsRational) :
      (TableauVar.row i).valueAt (⟨r.model, some (.fin b)⟩ : OneColumn) x
        = .fin (a * x.rat 0) := by
    change Sparse.dot (r.model.line i) x = _
    rw [Sparse.dot_eq (hm.wellFormed.finite i) hx, hline]
    simp
  constructor
  case identity =>
    intro x hx _
    have hone : 1 / a * (a * x.rat 0) = x.rat 0 := by
      rw [← mul_assoc, one_div_mul_cancel ha, one_mul]
    rw [List.map_singleton, hvalue x hx, fin_mul, hone, x.coord_eq hx]
    exact (congrArg Exact.fin (zero_add _)).symm
  case basicValue =>
    rw [hpoint]
    rfl
  case inRange =>
    intro e he
    obtain rfl := List.mem_singleton.mp he
    exact hi
  case coefficient => simp
  case range => simp [Model.tableauRange]
  case kind => simp [Model.tableauKind]
  case status =>
    simp only [List.mem_singleton, forall_eq, TableauEntry.activeBound]
    rw [hpoint, hvalue _ (isRational_singleton b), hbound]
    rfl
  case fixed => simp [hrest]

end OneColumn

/-- The settings without cuts, but with cuts and without a tolerance in them. -/
def cutSettings : Settings Exact :=
  { plainSettings with
    cutStrategy := .gomoryMixedInteger
    gomory := { GomorySettings.default with zeroTol := 0 } }

/-- A cut is added at `5/2`, and the optimum is 2 with and without it. -/
theorem gomoryCuts_exact_capped : ∃ sol sol' : Solution Exact,
    (branchAndCut ⟨cutSettings, CutPool.mostRecent⟩ .quiet Telemetry.disabled
      OneColumn.capped).result = .ok sol ∧ sol.tally.cutsInjected = 1 ∧
    (branchAndCut ⟨plainSettings, CutPool.mostRecent⟩ .quiet Telemetry.disabled
      OneColumn.capped).result = .ok sol' ∧
    OneColumn.capped.model.IsOptimum .allColumns sol.values (.fin 2) ∧
    sol.status = sol'.status ∧ sol.objective = sol'.objective := by
  have hrun : (branchAndCut ⟨cutSettings, CutPool.mostRecent⟩ .quiet Telemetry.disabled
      OneColumn.capped).result.map
        (fun sol => (sol.status, sol.objective, sol.tally.cutsInjected))
      = .ok (.optimal, .fin 2, 1) := by
    cbv
  have hplain : (branchAndCut ⟨plainSettings, CutPool.mostRecent⟩ .quiet Telemetry.disabled
      OneColumn.capped).result.map Solution.status = .ok .optimal := by
    cbv
  obtain ⟨sol, hsol, heq⟩ := exists_ok_of_map hrun
  obtain ⟨sol', hsol', hstatus'⟩ := exists_ok_of_map hplain
  obtain ⟨hstatus, hobj, hcuts⟩ : sol.status = .optimal ∧ sol.objective = .fin 2 ∧
      sol.tally.cutsInjected = 1 := by
    simpa using heq
  obtain ⟨hopt, -, hagree⟩ := gomoryCuts_exact (OneColumn.exactOracle OneColumn.fits_capped)
    (OneColumn.exactTableau OneColumn.fits_capped) OneColumn.built_capped _ rfl rfl rfl rfl _ _ hsol
  refine ⟨sol, sol', hsol, hcuts, hsol', hobj ▸ hopt hstatus, ?_⟩
  exact hagree (OneColumn.exactOracle OneColumn.fits_capped) rfl _ _ _ _ rfl rfl rfl hsol'
    (by simp [hstatus]) (by simp [hstatus'])

end MixedInteger
