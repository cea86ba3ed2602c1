import MixedInteger.Change
import MixedInteger.Search.Run

/-!
# A controller in memory

A controller changes its search where it is. It tells observers what it does and writes to the log
between one change and the next, with the telemetry beside the search and within its reach. What it
has done before a failure stays done.

* `Controller`: a part of a run;
* `Controller.addCuts`, `Controller.branch`, `Controller.process`: the parts of an iteration;
* `Controller.iterate`, `Controller.loop`: iterations;
* `conduct`: a whole run;
* `solveObserved`: a run over the simplex relaxation of a model, with an observer if there is to be
  one.
-/

namespace MixedInteger

/-- A part of a run with an answer. -/
abbrev Controller (R α L β : Type) : Type := Change (SearchError α) (Session R α L) β

variable {R α L β : Type} [Scalar α] [Relaxation R α] [Link L]

open Scalar

namespace Controller

/-! ## Single changes -/

def current : Controller R α L (Search R α) := return (← get).search

def update (f : Search R α → Search R α) : Controller R α L Unit :=
  modify fun s => { s with search := f s.search }

def count (f : Tally → Tally) : Controller R α L Unit :=
  update fun s => { s with tally := f s.tally }

def note (level : LogLevel) (text : String) : Controller R α L Unit :=
  modify fun s => s.note level text

/-- Delivers an event at once. A failing delivery is logged. -/
def emit (clock : Nat → Nat) (node : NodeId) (parent : Option NodeId) (kind : EventKind α) :
    Controller R α L Unit :=
  modify fun s =>
    let (telemetry, warnings) :=
      s.telemetry.emit (Event.new (clock s.telemetry.sent) node parent kind)
    { s with telemetry := telemetry, log := s.log ++ warnings.toArray }

/-- An edit that an oracle or a node has made of itself, or refused. -/
def accept (edit : Except (ModelError α) β) : Controller R α L β :=
  ofExcept (edit.mapError .invalidModel)

/-- Changes the tree. -/
def onTree (c : Change TreeError SearchTree Unit) : Controller R α L Unit :=
  EStateM.adaptExcept (fun e => .internal (.tree e)) <|
    Change.onPart (fun s => s.search.tree)
      (fun s tree => { s with search := { s.search with tree := tree } }) c

/-! ## Cuts -/

/-- Cuts of the given columns, one column after the other. -/
def generate (node : NodeId) (oracle : R) : List Nat → Controller R α L (List (Cut α))
  | [] => return []
  | j :: js => do
    let (cut, generator) := (← current).generator.generate oracle j node
    update fun s => { s with generator := generator }
    let cuts ← generate node oracle js
    return cut.toList ++ cuts

/-- Generates cuts at a solved relaxation, admits a share of them and injects the selected one. -/
def addCuts (plan : Plan α) (node : NodeId) (oracle : R) : Controller R α L R := do
  let generated ← generate node oracle (integralColumns oracle)
  count fun t => { t with cutsGenerated := t.cutsGenerated + generated.length }
  let start := (← current).cuts.size
  (generated.take (admittedCount plan.settings.cutFraction generated.length)).forM fun cut =>
    update fun s => { s with cuts := s.cuts.add cut }
  let cuts := (← current).cuts
  match plan.cutSelector cuts start cuts.size with
  | none => return oracle
  | some chosen =>
    let (row, cuts, oracle) ← accept (cuts.inject oracle (some chosen))
    update fun s => { s with cuts := cuts }
    if row.isSome then
      count fun t => { t with cutsInjected := t.cutsInjected + 1 }
    return oracle

/-- Adds cuts if there are to be any. -/
def tighten (plan : Plan α) (node : NodeId) (oracle : R) : Controller R α L R :=
  if plan.settings.cutsEnabled then addCuts plan node oracle else return oracle

/-! ## Nodes -/

/-- One child of a node: it is solved once for its bound, recorded in the tree, and waits. -/
def addChild (clock : Nat → Nat) (parent : NodeId) (depth : Nat) (oracle : R) (id : NodeId)
    (change : BoundChange α) : Controller R α L Unit := do
  let child ← accept (Subproblem.child id parent depth oracle change)
  let child := child.presolve
  onTree (SearchTree.insertChildInPlace parent id)
  let bound := if isFinite child.upperBound then some child.upperBound else none
  emit clock id (some parent) (.candidate bound)
  update fun s => { s with pool := s.pool.push child }
  count fun t => { t with nodesCreated := t.nodesCreated + 1 }

/-- The children of a node: the floor side first, then the ceiling side. -/
def addChildren (clock : Nat → Nat) (node : Subproblem R α) (oracle : R) (pick : Violation α) :
    Controller R α L Unit := do
  let ((downId, upId), ids) := (← current).ids.nextPair
  update fun s => { s with ids := ids }
  addChild clock node.id (node.depth + 1) oracle downId (.down pick.column pick.value)
  addChild clock node.id (node.depth + 1) oracle upId (.up pick.column pick.value)

/-- Replaces a fractional node by its children. The violation to branch on is chosen before cuts
are added. -/
def branch (plan : Plan α) (clock : Nat → Nat) (node : Subproblem R α) (oracle : R) (bound : α)
    (vs : List (Violation α)) : Controller R α L Unit := do
  emit clock node.id node.parent
    (.branched bound (Scalar.sum (vs.map Violation.fraction)) vs.length)
  match (plan.settings.branchingRule.select? vs).bind (vs[·]?) with
  | none => throw (.internal (.noBranchingVariable node.id))
  | some pick =>
    let oracle ← tighten plan node.id oracle
    addChildren clock node oracle pick

/-- Offers the solution of an integral node as incumbent. -/
def offer (node : NodeId) (oracle : R) (bound : α) : Controller R α L Unit := do
  let found : Found α := ⟨Search.pointOf oracle, describeSolution node oracle, node⟩
  if (← current).incumbent.improvedBy bound then
    update fun s => { s with incumbent := s.incumbent.update bound found }
    count fun t => { t with incumbentUpdates := t.incumbentUpdates + 1 }
    note .info s!"New incumbent at node {node}: obj={text bound}"

/-- Solves, classifies and disposes of one node. Says what became of it, and whether the whole
search is settled by it. -/
def process (plan : Plan α) (clock : Nat → Nat) (node : Subproblem R α) :
    Controller R α L (Fate × Bool) := do
  let (verdict, oracle) := Relaxation.solve node.model
  let bound := Relaxation.objectiveValue oracle
  emit clock node.id node.parent (.pregnant (if verdict = .optimal then some bound else none))
  match classify oracle verdict plan.settings.scope plan.settings.integralityTol with
  | .infeasible =>
    emit clock node.id node.parent .infeasible
    if node.isRoot then
      note .info s!"Root relaxation is {verdict.text}; no feasible solution"
    return (.prunedInfeasible, node.isRoot)
  | .integral =>
    emit clock node.id node.parent (.integral bound)
    offer node.id oracle bound
    return (.prunedIntegral, node.isRoot)
  | .fractional vs =>
    if (← current).incumbent.dominates bound plan.settings.pruneTies then
      emit clock node.id node.parent .fathomed
      return (.prunedByBound, false)
    else
      branch plan clock node oracle bound vs
      return (.branched, false)

/-! ## Iterations -/

/-- Takes a node by the chosen order. -/
def take (selector : NodeSelector α) : Controller R α L (Option (Subproblem R α)) := do
  let (taken, pool) := (NodePool.takeInPlace selector).run (← current).pool
  update fun s => { s with pool := pool }
  return taken.map Prod.fst

/-- The progress line, after every so many iterations. -/
def logProgress (plan : Plan α) : Controller R α L Unit := do
  let s ← current
  let every := plan.settings.logFreq.toNat
  if every ≠ 0 ∧ s.tally.iterations % every = 0 then
    note .info (s!"Iteration {s.tally.iterations}: {s.pool.size} open nodes, "
      ++ s!"{s.tally.nodesCreated} created, incumbent {text s.incumbent.bestLowerBound}, "
      ++ s!"best open bound {text s.pool.bestBound}")

/-- One iteration. Says whether the search is settled; it is without a node to take. -/
def iterate (plan : Plan α) (clock : Nat → Nat) : Controller R α L Bool := do
  match ← take plan.settings.nodeOrder.selector with
  | none => return true
  | some node =>
    count fun t => { t with iterations := t.iterations + 1 }
    let (fate, stop) ← process plan clock node
    onTree (SearchTree.markInPlace node.id fate.mark)
    count fun t => t.record fate
    update fun s => { s with trace := s.trace.push (node.id, fate) }
    logProgress plan
    return stop

/-- Iterates while nodes wait; `remaining` more iterations are allowed. Says whether the search was
cancelled. -/
def loop (plan : Plan α) (around : Surroundings L) (remaining : Nat) : Controller R α L Bool := do
  let s ← get
  if s.search.pool.isEmpty then return false
  else if around.isCancelled s.search.tally.iterations s.telemetry.link then
    note .info s!"Search cancelled after {s.search.tally.iterations} iterations"
    return true
  else
    match remaining with
    | 0 =>
      let limit := plan.settings.maxIterations.toNat
      let best := s.search.incumbent.bestLowerBound
      note .error (s!"Iteration limit {limit} reached with {s.search.pool.size} open nodes, "
        ++ s!"best lower bound {text best}")
      throw (.iterationLimit limit best)
    | left + 1 =>
      if ← iterate plan around.clock then return false
      else loop plan around left

/-- Logs the end of a search and puts its result together. -/
def finish (status : Status) : Controller R α L (Solution α) := do
  let s ← current
  note .info (s!"Search finished ({status.text}): "
    ++ s!"{s.tally.iterations} iterations, "
    ++ s!"{s.tally.nodesCreated} nodes, objective {text s.incumbent.bestLowerBound}")
  return Solution.ofSearch s status

def run (plan : Plan α) (around : Surroundings L) : Controller R α L (Solution α) := do
  let o := plan.settings
  note .info (s!"Branch-and-cut: node selection {o.nodeOrder.name}, "
    ++ s!"branching {o.branchingRule.name}, cuts {o.cutStrategy.label}")
  if ← loop plan around o.maxIterations.toNat then finish .interrupted
  else finish (Session.settledStatus (← current))

end Controller

/-- The search before its first iteration. The root is entered into an empty tree and an empty
pool, unless the settings are out of range. -/
def Search.start (settings : Settings α) (root : R) : Except (SearchError α) (Search R α) := do
  settings.validate.mapError .config
  let (id, ids) := NodeIds.initial.nextId
  let tree ← (SearchTree.empty.insertRoot id).mapError fun e => .internal (.tree e)
  return {
    pool := NodePool.empty.push (Subproblem.root id root)
    tree := tree
    ids := ids
    incumbent := Incumbent.initial
    cuts := CutPool.empty
    generator := Gomory.new settings.gomory
    tally := { Tally.zero with nodesCreated := 1 }
    trace := #[] }

/-- What a run leaves behind. -/
def Report.ofRun (r : EStateM.Result (SearchError α) (Session R α L) (Solution α)) : Report α L :=
  match r with
  | .ok solution s => ⟨.ok solution, s.telemetry, s.log⟩
  | .error e s => ⟨.error e, s.telemetry, s.log⟩

/-- Searches from a root relaxation in memory. Settings out of range are refused. -/
def conduct (plan : Plan α) (around : Surroundings L) (telemetry : Telemetry L) (root : R) :
    Report α L :=
  match Search.start plan.settings root with
  | .error e => ⟨.error e, telemetry, #[]⟩
  | .ok search => .ofRun (EStateM.run (Controller.run plan around) ⟨search, telemetry, #[]⟩)

/-- The telemetry that the settings ask for. -/
def Settings.telemetry (net : Network L) (settings : Settings α) :
    List LogRecord × Except LinkError (Telemetry (Option L)) :=
  match settings.telemetryPort with
  | none => ([], .ok Telemetry.off)
  | some port => Telemetry.listen net port

/-- Solves a model under observation, if the settings name a port for observers. Settings, then the
model, are validated before anybody is waited for. -/
def solveObserved (net : Network L) (model : Model α) (settings : Settings α) :
    Report α (Option L) :=
  match settings.validate, model.validate with
  | .error e, _ => ⟨.error (.config e), Telemetry.off, #[]⟩
  | .ok (), .error e => ⟨.error (.invalidModel e), Telemetry.off, #[]⟩
  | .ok (), .ok () =>
    match settings.telemetry net with
    | (records, .error e) => ⟨.error (.telemetry e), Telemetry.off, records.toArray⟩
    | (records, .ok telemetry) =>
      let opening : LogRecord :=
        ⟨.info, s!"Solving MILP: {model.numCols} columns, {model.numRows} rows"⟩
      let report := conduct ⟨settings, CutPool.mostRecent⟩ .quiet telemetry (Simplex.ofModel model)
      { report with log := (records ++ [opening]).toArray ++ report.log }

end MixedInteger
