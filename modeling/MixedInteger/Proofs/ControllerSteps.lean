import MixedInteger.Proofs.SearchStep
import MixedInteger.Search.Controller

/-!
# Steps of a controller

A controller tells observers what it does between its changes, with the telemetry in reach. A step
of a search only says what it wants to be told. The two come to the same: a part of a run ends in
the search to which the step leads and has published what the step wants to be told, in order, and
a whole run leaves the same report.

* `Controller.Realizes`: a part of a run does what a step says;
* `Controller.Realizes.bind`: one part after the other;
* `Controller.realizes_addCuts`, `Controller.realizes_branch`, `Controller.realizes_process`: the
  parts of an iteration;
* `Controller.realizes_iterate`, `Controller.endsWith_loop`: iterations;
* `conduct_eq`: whole runs.
-/

namespace MixedInteger

variable {R α L β γ : Type} [Scalar α] [Relaxation R α] [Link L]

/-! ## Publishing -/

section Publishing

variable {clock : Nat → Nat}

omit [Relaxation R α] in
theorem Session.publish_append (s : Session R α L) (notices more : List (Notice α)) :
    s.publish clock (notices ++ more) = (s.publish clock notices).publish clock more :=
  List.foldl_append

omit [Relaxation R α] in
/-- What is published does not depend on the search. -/
theorem Session.publish_replace (s : Session R α L) (search : Search R α)
    (notices : List (Notice α)) :
    ({ s.publish clock notices with search := search } : Session R α L)
      = ({ s with search := search } : Session R α L).publish clock notices := by
  unfold publish
  induction notices generalizing s with
  | nil => rfl
  | cons notice rest ih =>
    rw [List.foldl_cons, List.foldl_cons, ih]
    cases notice <;> rfl

end Publishing

namespace Controller

/-- From a session with the search `start` the program goes to the search to which the step leads,
and gives its answer. On the way it publishes what the step wants to be told. If the step fails so
does the program, after it has published as much. -/
def Realizes (clock : Nat → Nat) (c : Controller R α L β) (start : Search R α)
    (step : Reported α (β × Search R α)) : Prop :=
  ∀ s : Session R α L, s.search = start →
    match step with
    | (notices, .ok (b, search)) => EStateM.run c s
        = .ok b (({ s with search := search } : Session R α L).publish clock notices)
    | (notices, .error e) => ∃ search, EStateM.run c s
        = .error e (({ s with search := search } : Session R α L).publish clock notices)

variable {clock : Nat → Nat} {start mid : Search R α} {c : Controller R α L β}
  {k : β → Controller R α L γ} {b : β} {e : SearchError α} {notices more : List (Notice α)}

/-! ## Composition -/

omit [Relaxation R α] in
theorem Realizes.bind {result : Except (SearchError α) (γ × Search R α)}
    (hc : Realizes clock c start (notices, .ok (b, mid)))
    (hk : Realizes clock (k b) mid (more, result)) :
    Realizes clock (c >>= k) start (notices ++ more, result) := by
  intro s hs
  have hrun : EStateM.run (c >>= k) s
      = EStateM.run (k b) (({ s with search := mid } : Session R α L).publish clock notices) := by
    rw [EStateM.run_bind, hc s hs]
  have hnext := hk (({ s with search := mid } : Session R α L).publish clock notices)
    (Session.search_publish clock _ notices)
  cases result with
  | ok p =>
    dsimp only at hnext ⊢
    rw [hrun, hnext, Session.publish_replace, ← Session.publish_append]
  | error e =>
    obtain ⟨search, hnext⟩ := hnext
    refine ⟨search, ?_⟩
    rw [hrun, hnext, Session.publish_replace, ← Session.publish_append]

omit [Relaxation R α] in
/-- What follows has nothing to tell. -/
theorem Realizes.bind_nil {result : Except (SearchError α) (γ × Search R α)}
    (hc : Realizes clock c start (notices, .ok (b, mid)))
    (hk : Realizes clock (k b) mid ([], result)) :
    Realizes clock (c >>= k) start (notices, result) := by
  have hbound := hc.bind hk
  rwa [List.append_nil] at hbound

omit [Relaxation R α] in
theorem Realizes.bind_error (hc : Realizes clock c start (notices, .error e)) :
    Realizes clock (c >>= k) start (notices, .error e) := by
  intro s hs
  obtain ⟨search, hrun⟩ := hc s hs
  refine ⟨search, ?_⟩
  rw [EStateM.run_bind, hrun]

/-! ## Single changes -/

omit [Relaxation R α] in
theorem realizes_pure (b : β) :
    Realizes clock (pure b : Controller R α L β) start ([], .ok (b, start)) := by
  rintro s rfl
  rfl

omit [Relaxation R α] in
/-- An answer that is put in another form. -/
theorem Realizes.bind_pure {step : Reported α (β × Search R α)}
    (hc : Realizes clock c start step) (f : β → γ) :
    Realizes clock (c >>= fun b => pure (f b)) start
      (step.1, step.2.map fun p => (f p.1, p.2)) := by
  obtain ⟨notices, result⟩ := step
  cases result with
  | error e => exact hc.bind_error
  | ok p =>
    have hdone : Realizes clock (c >>= fun b => pure (f b)) start
      (notices, .ok (f p.1, p.2)) := hc.bind_nil (realizes_pure (f p.1))
    exact hdone

omit [Relaxation R α] in
theorem realizes_throw (e : SearchError α) :
    Realizes clock (throw e : Controller R α L β) start ([], .error e) := by
  rintro s rfl
  exact ⟨s.search, rfl⟩

omit [Relaxation R α] in
theorem realizes_current :
    Realizes clock (current : Controller R α L _) start ([], .ok (start, start)) := by
  rintro s rfl
  rfl

omit [Relaxation R α] in
theorem realizes_update (f : Search R α → Search R α) :
    Realizes clock (update f : Controller R α L _) start ([], .ok ((), f start)) := by
  rintro s rfl
  rfl

omit [Relaxation R α] in
theorem realizes_note (level : LogLevel) (text : String) :
    Realizes clock (note level text : Controller R α L _) start
      ([.log ⟨level, text⟩], .ok ((), start)) := by
  rintro s rfl
  rfl

omit [Relaxation R α] in
theorem realizes_emit (node : NodeId) (parent : Option NodeId) (kind : EventKind α) :
    Realizes clock (emit clock node parent kind : Controller R α L _) start
      ([.event node parent kind], .ok ((), start)) := by
  rintro s rfl
  rfl

omit [Relaxation R α] in
theorem realizes_accept (edit : Except (ModelError α) β) :
    Realizes clock (accept edit : Controller R α L β) start
      ([], (edit.mapError .invalidModel).map fun b => (b, start)) := by
  rintro s rfl
  cases edit with
  | ok b => rfl
  | error e => exact ⟨s.search, rfl⟩

section Trees

variable {step : SearchTree → Except TreeError SearchTree}

omit [Scalar α] [Relaxation R α] [Link L] in
theorem run_onTree (step : SearchTree → Except TreeError SearchTree) (s : Session R α L) :
    EStateM.run (onTree (Change.atomic step fun _ => ()) : Controller R α L Unit) s =
      match step s.search.tree with
      | .ok tree => .ok () { s with search := { s.search with tree := tree } }
      | .error e => .error (.internal (.tree e)) s := by
  unfold onTree
  rw [Change.run_adaptExcept, Change.run_onPart, Change.run_atomic]
  cases step s.search.tree <;> rfl

omit [Relaxation R α] in
theorem realizes_onTree {tree : SearchTree} (h : step start.tree = .ok tree) :
    Realizes clock (onTree (Change.atomic step fun _ => ()) : Controller R α L Unit) start
      ([], .ok ((), { start with tree := tree })) := by
  rintro s rfl
  dsimp only
  rw [run_onTree, h]
  rfl

omit [Relaxation R α] in
theorem realizes_onTree_error {e : TreeError} (h : step start.tree = .error e) :
    Realizes clock (onTree (Change.atomic step fun _ => ()) : Controller R α L Unit) start
      ([], .error (.internal (.tree e))) := by
  rintro s rfl
  refine ⟨s.search, ?_⟩
  rw [run_onTree, h]
  rfl

end Trees

/-! ## Cuts -/

theorem realizes_generate (node : NodeId) (oracle : R) (js : List Nat) :
    Realizes clock (generate node oracle js : Controller R α L _) start
      ([], .ok ((start.generator.generateAll oracle node js).1,
        { start with generator := (start.generator.generateAll oracle node js).2 })) := by
  induction js generalizing start with
  | nil => exact realizes_pure []
  | cons j js ih =>
    unfold generate Gomory.generateAll
    refine realizes_current.bind ?_
    obtain ⟨cut, generator⟩ := start.generator.generate oracle j node
    refine (realizes_update _).bind ?_
    refine ih.bind ?_
    cases cut with
    | none => exact realizes_pure _
    | some cut => exact realizes_pure _

omit [Relaxation R α] in
theorem realizes_admission (cuts : List (Cut α)) :
    Realizes clock (cuts.forM fun cut =>
        (update fun s => { s with cuts := s.cuts.add cut } : Controller R α L Unit)) start
      ([], .ok ((), { start with cuts := cuts.foldl CutPool.add start.cuts })) := by
  induction cuts generalizing start with
  | nil => exact realizes_pure ()
  | cons cut cuts ih => exact (realizes_update _).bind ih

theorem realizes_addCuts (plan : Plan α) (node : NodeId) (oracle : R) :
    Realizes clock (addCuts plan node oracle : Controller R α L R) start
      ([], ((start.addCuts plan node oracle).mapError .invalidModel).map Prod.swap) := by
  unfold addCuts Search.addCuts
  refine (realizes_generate node oracle _).bind ?_
  obtain ⟨generated, generator⟩ :=
    start.generator.generateAll oracle node (integralColumns oracle)
  refine (realizes_update _).bind ?_
  refine realizes_current.bind ?_
  refine (realizes_admission _).bind ?_
  refine realizes_current.bind ?_
  dsimp only
  generalize (generated.take _).foldl CutPool.add start.cuts = cuts
  cases plan.cutSelector cuts start.cuts.size cuts.size with
  | none => exact realizes_pure oracle
  | some chosen =>
    dsimp only
    cases cuts.inject oracle (some chosen) with
    | error e => exact (realizes_accept (.error e)).bind_error
    | ok injected =>
      obtain ⟨row, cuts, oracle⟩ := injected
      refine (realizes_accept (.ok (row, cuts, oracle))).bind ?_
      refine (realizes_update _).bind ?_
      cases row with
      | none => exact realizes_pure oracle
      | some row => exact (realizes_update _).bind (realizes_pure oracle)

/-! ## Nodes -/

/-- A step without an answer. -/
def silent (r : Reported α (Search R α)) : Reported α (Unit × Search R α) :=
  (r.1, r.2.map fun s => ((), s))

theorem realizes_addChild (parent : NodeId) (depth : Nat) (oracle : R) (id : NodeId)
    (change : BoundChange α) :
    Realizes clock (addChild clock parent depth oracle id change : Controller R α L Unit) start
      (silent (start.addChild parent depth oracle id change)) := by
  unfold addChild Search.addChild
  cases Subproblem.child id parent depth oracle change with
  | error e => exact (realizes_accept (.error e)).bind_error
  | ok child =>
    refine (realizes_accept (.ok child)).bind ?_
    rw [SearchTree.insertChildInPlace_eq]
    dsimp only
    cases hinsert : start.tree.insertChild parent id with
    | error e => exact (realizes_onTree_error hinsert).bind_error
    | ok tree =>
      refine (realizes_onTree hinsert).bind ?_
      refine (realizes_emit id (some parent) _).bind ?_
      exact (realizes_update _).bind (realizes_update _)

theorem realizes_addChildren (node : Subproblem R α) (oracle : R) (pick : Violation α) :
    Realizes clock (addChildren clock node oracle pick : Controller R α L Unit) start
      (silent (start.addChildren node oracle pick)) := by
  unfold addChildren Search.addChildren
  refine realizes_current.bind ?_
  obtain ⟨⟨downId, upId⟩, ids⟩ := start.ids.nextPair
  dsimp only
  have hdown : Realizes clock (addChild clock node.id (node.depth + 1) oracle downId
      (.down pick.column pick.value) : Controller R α L Unit) { start with ids := ids } _ :=
    realizes_addChild node.id (node.depth + 1) oracle downId (.down pick.column pick.value)
  generalize Search.addChild { start with ids := ids } node.id (node.depth + 1) oracle downId
    (.down pick.column pick.value) = added at hdown ⊢
  obtain ⟨notices, result⟩ := added
  cases result with
  | error e => exact (realizes_update _).bind hdown.bind_error
  | ok s =>
    refine (realizes_update _).bind ?_
    refine hdown.bind ?_
    exact realizes_addChild node.id (node.depth + 1) oracle upId (.up pick.column pick.value)

theorem realizes_branch (plan : Plan α) (node : Subproblem R α) (oracle : R) (bound : α)
    (vs : List (Violation α)) :
    Realizes clock (branch plan clock node oracle bound vs : Controller R α L Unit) start
      (silent (start.branch plan node oracle bound vs)) := by
  unfold branch Search.branch
  dsimp only
  cases (plan.settings.branchingRule.select? vs).bind (vs[·]?) with
  | none => exact (realizes_emit _ _ _).bind (realizes_throw _)
  | some pick =>
    dsimp only
    have htightened : Realizes clock (tighten plan node.id oracle : Controller R α L R) start
        ([], ((if plan.settings.cutsEnabled then start.addCuts plan node.id oracle
          else .ok (start, oracle)).mapError .invalidModel).map Prod.swap) := by
      unfold tighten
      split
      · exact realizes_addCuts plan node.id oracle
      · exact realizes_pure oracle
    generalize (if plan.settings.cutsEnabled then start.addCuts plan node.id oracle
      else .ok (start, oracle)) = tightened at htightened ⊢
    cases tightened with
    | error e => exact (realizes_emit _ _ _).bind htightened.bind_error
    | ok added =>
      obtain ⟨s, oracle⟩ := added
      refine (realizes_emit _ _ _).bind ?_
      refine htightened.bind ?_
      exact realizes_addChildren node oracle pick

theorem realizes_offer (node : NodeId) (oracle : R) (bound : α) :
    Realizes clock (offer node oracle bound : Controller R α L Unit) start
      ((start.offer node oracle bound).1, .ok ((), (start.offer node oracle bound).2)) := by
  unfold offer Search.offer
  refine realizes_current.bind ?_
  split
  · exact (realizes_update _).bind ((realizes_update _).bind (realizes_note .info _))
  · exact realizes_pure ()

/-- A disposal with the answer of the program. -/
def disposed (r : Reported α (Search.Disposal R α)) : Reported α ((Fate × Bool) × Search R α) :=
  (r.1, r.2.map fun d => ((d.fate, d.stop), d.search))

theorem realizes_process (plan : Plan α) (node : Subproblem R α) :
    Realizes clock (process plan clock node : Controller R α L (Fate × Bool)) start
      (disposed (start.process plan node)) := by
  unfold process Search.process
  obtain ⟨verdict, oracle⟩ := Relaxation.solve node.model
  dsimp only
  cases classify oracle verdict plan.settings.scope plan.settings.integralityTol with
  | infeasible =>
    cases node.isRoot with
    | true =>
      refine (realizes_emit _ _ _).bind ?_
      refine (realizes_emit _ _ _).bind ?_
      exact (realizes_note _ _).bind (realizes_pure _)
    | false =>
      refine (realizes_emit _ _ _).bind ?_
      exact (realizes_emit _ _ _).bind (realizes_pure _)
  | integral =>
    have hoffer : Realizes clock (offer node.id oracle (Relaxation.objectiveValue oracle) :
      Controller R α L Unit) start _ := realizes_offer _ _ _
    refine (realizes_emit _ _ _).bind ?_
    refine (realizes_emit _ _ _).bind ?_
    exact hoffer.bind_pure fun _ => (Fate.prunedIntegral, node.isRoot)
  | fractional vs =>
    dsimp only
    by_cases hdominated :
        start.incumbent.dominates (Relaxation.objectiveValue oracle) plan.settings.pruneTies = true
    · rw [if_pos hdominated]
      refine (realizes_emit _ _ _).bind ?_
      refine realizes_current.bind ?_
      dsimp only
      rw [if_pos hdominated]
      exact (realizes_emit _ _ _).bind (realizes_pure _)
    · have hbranch : Realizes clock
          (branch plan clock node oracle (Relaxation.objectiveValue oracle) vs :
            Controller R α L Unit) start _ := realizes_branch _ _ _ _ _
      rw [if_neg hdominated]
      refine (realizes_emit _ _ _).bind ?_
      refine realizes_current.bind ?_
      dsimp only
      rw [if_neg hdominated]
      have hdone := hbranch.bind_pure fun _ => (Fate.branched, false)
      generalize start.branch plan node oracle (Relaxation.objectiveValue oracle) vs = branched
        at hdone ⊢
      obtain ⟨notices, result⟩ := branched
      cases result with
      | error e => exact hdone
      | ok s => exact hdone

/-! ## Iterations -/

/-- How an iteration ends, with the answer of the program. -/
def settled (r : Reported α (Search.Progress R α)) : Reported α (Bool × Search R α) :=
  (r.1, r.2.map fun p => (p.stop, p.search))

omit [Relaxation R α] in
theorem realizes_take (selector : NodeSelector α) :
    Realizes clock (take selector : Controller R α L _) start
      ([], .ok (match start.pool.take? selector with
        | none => (none, start)
        | some ((node, _), pool) => (some node, { start with pool := pool }))) := by
  unfold take
  refine realizes_current.bind ?_
  rw [NodePool.run_takeInPlace]
  cases start.pool.take? selector with
  | none => exact (realizes_update _).bind (realizes_pure _)
  | some taken => exact (realizes_update _).bind (realizes_pure _)

omit [Relaxation R α] in
theorem realizes_logProgress (plan : Plan α) :
    Realizes clock (logProgress plan : Controller R α L Unit) start
      (start.progress plan, .ok ((), start)) := by
  unfold logProgress Search.progress
  dsimp only
  by_cases hdue : plan.settings.logFreq.toNat ≠ 0 ∧
      start.tally.iterations % plan.settings.logFreq.toNat = 0
  · rw [if_pos hdue]
    refine realizes_current.bind ?_
    rw [if_pos hdue]
    exact realizes_note _ _
  · rw [if_neg hdue]
    refine realizes_current.bind ?_
    rw [if_neg hdue]
    exact realizes_pure ()

theorem realizes_iterate (plan : Plan α) :
    Realizes clock (iterate plan clock : Controller R α L Bool) start
      (settled (start.advance plan)) := by
  have htake : Realizes clock (take plan.settings.nodeOrder.selector : Controller R α L _) start
      _ := realizes_take plan.settings.nodeOrder.selector
  unfold iterate Search.advance
  cases htaken : start.pool.take? plan.settings.nodeOrder.selector with
  | none =>
    rw [htaken] at htake
    exact htake.bind (realizes_pure true)
  | some taken =>
    obtain ⟨⟨node, i⟩, pool⟩ := taken
    rw [htaken] at htake
    dsimp only at htake ⊢
    have hprocess : Realizes clock (process plan clock node : Controller R α L _) { start with
        pool := pool
        tally := { start.tally with iterations := start.tally.iterations + 1 } } _ :=
      realizes_process plan node
    generalize Search.process plan _ node = processed at hprocess ⊢
    obtain ⟨notices, result⟩ := processed
    cases result with
    | error e =>
      refine htake.bind ?_
      refine (realizes_update _).bind ?_
      exact hprocess.bind_error
    | ok d =>
      dsimp only [Search.conclude]
      cases hmark : d.search.tree.mark node.id d.fate.mark with
      | error e =>
        refine htake.bind ?_
        refine (realizes_update _).bind ?_
        refine hprocess.bind_nil ?_
        dsimp only
        rw [SearchTree.markInPlace_eq]
        exact (realizes_onTree_error hmark).bind_error
      | ok tree =>
        refine htake.bind ?_
        refine (realizes_update _).bind ?_
        refine hprocess.bind ?_
        dsimp only
        rw [SearchTree.markInPlace_eq]
        refine (realizes_onTree hmark).bind ?_
        refine (realizes_update _).bind ?_
        refine (realizes_update _).bind ?_
        exact (realizes_logProgress plan).bind_pure fun _ => d.stop

/-! ## Runs -/

/-- A run of a loop has ended so. What an error leaves of the search is not said. -/
def EndsWith (r : EStateM.Result (SearchError α) (Session R α L) Bool) :
    Session.Ending α × Session R α L → Prop
  | (.settled, s) => r = .ok false s
  | (.cancelled, s) => r = .ok true s
  | (.failed e, s) => ∃ search : Search R α, r = .error e { s with search := search }

/-- A loop in memory ends as exploring does. -/
theorem endsWith_loop (plan : Plan α) (around : Surroundings L) (remaining : Nat)
    (s : Session R α L) :
    EndsWith (EStateM.run (loop plan around remaining) s) (s.explore plan around remaining) := by
  induction remaining generalizing s with
  | zero =>
    unfold Session.explore
    rw [loop, EStateM.run_bind, EStateM.run_get]
    dsimp only
    cases s.search.pool.isEmpty with
    | true => rfl
    | false =>
      cases around.isCancelled s.search.tally.iterations s.telemetry.link with
      | true => rfl
      | false => exact ⟨s.search, rfl⟩
  | succ left ih =>
    unfold Session.explore
    rw [loop, EStateM.run_bind, EStateM.run_get]
    dsimp only
    cases s.search.pool.isEmpty with
    | true => rfl
    | false =>
      cases around.isCancelled s.search.tally.iterations s.telemetry.link with
      | true => rfl
      | false =>
        have hiterate : Realizes around.clock (iterate plan around.clock : Controller R α L Bool)
            s.search (settled (s.search.advance plan)) := realizes_iterate plan
        have hstep := hiterate s rfl
        simp only [Bool.false_eq_true, ↓reduceIte]
        rw [EStateM.run_bind]
        generalize s.search.advance plan = advanced at hstep ⊢
        obtain ⟨notices, result⟩ := advanced
        cases result with
        | error e =>
          obtain ⟨search, hrun⟩ := hstep
          refine ⟨search, ?_⟩
          rw [hrun, Session.publish_replace]
        | ok p =>
          dsimp only [settled, Except.map] at hstep ⊢
          rw [hstep]
          dsimp only
          cases p.stop with
          | true => rfl
          | false => exact ih _

end Controller

omit [Relaxation R α] in
/-- The root is entered into the empty tree, which is no error. -/
theorem Search.start_eq (settings : Settings α) (root : R) : Search.start settings root =
    match settings.validate with
    | .error e => .error (.config e)
    | .ok () => .ok (Search.initial settings root) := by
  unfold Search.start
  cases settings.validate <;> rfl

theorem Controller.ofRun_run (plan : Plan α) (around : Surroundings L) (s : Session R α L) :
    Report.ofRun (EStateM.run (run plan around) s) = s.run plan around := by
  unfold run Session.run
  dsimp only
  rw [EStateM.run_bind]
  change Report.ofRun (EStateM.run (loop plan around _ >>= _) (s.note _ _)) = _
  generalize s.note _ _ = s₀
  have hloop := endsWith_loop plan around plan.settings.maxIterations.toNat s₀
  generalize s₀.explore plan around plan.settings.maxIterations.toNat = explored at hloop ⊢
  obtain ⟨ending, s'⟩ := explored
  rw [EStateM.run_bind]
  cases ending with
  | settled =>
    rw [hloop]
    rfl
  | cancelled =>
    rw [hloop]
    rfl
  | failed e =>
    obtain ⟨search, hrun⟩ := hloop
    rw [hrun]
    rfl

/-- A run in place leaves the same report. -/
theorem conduct_eq (plan : Plan α) (around : Surroundings L) (telemetry : Telemetry L) (root : R) :
    conduct plan around telemetry root = branchAndCut plan around telemetry root := by
  unfold conduct branchAndCut
  rw [Search.start_eq]
  cases plan.settings.validate with
  | error e => rfl
  | ok valid => exact Controller.ofRun_run plan around _

end MixedInteger
