import MixedInteger.Search

/-!
# Running a search

A session is a search with its telemetry and its log. It runs until no node waits, the root settles
it, it is cancelled, or the iterations allowed are used up, which is an error because the tree was
not exhausted.

* `Session.explore`: the loop;
* `branchAndCut`: a search over any relaxation;
* `solveModel`: a search over the simplex relaxation of a model.
-/

namespace MixedInteger

inductive Status where
  /-- No node is left and there is an incumbent. -/
  | optimal
  /-- There is no integral point. -/
  | infeasible
  /-- Cancelled; the incumbent is the best point so far. -/
  | interrupted
  deriving DecidableEq, Repr

def Status.text : Status → String
  | .optimal => "Optimal"
  | .infeasible => "Infeasible"
  | .interrupted => "Interrupted"

structure Solution (α : Type) where
  status : Status
  /-- The objective of the incumbent, `-∞` without one. -/
  objective : α
  /-- The incumbent, empty without one. -/
  values : Point α
  description : Option String
  incumbentNode : Option NodeId
  tree : SearchTree
  tally : Tally
  trace : Array (NodeId × Fate)
  /-- The objective after each improvement. -/
  boundHistory : Array α

/-- What surrounds a search without being part of it. -/
structure Surroundings (L : Type) where
  /-- Has a stop been requested, after so many iterations and with the link in this state? -/
  isCancelled : Nat → L → Bool
  /-- The time in milliseconds at which an event is made after so many have been sent. -/
  clock : Nat → Nat

/-- A search that nobody cancels, at a time that stands still. -/
def Surroundings.quiet {L : Type} : Surroundings L := ⟨fun _ _ => false, fun _ => 0⟩

structure Session (R α L : Type) where
  search : Search R α
  telemetry : Telemetry L
  log : Array LogRecord

/-- All that a run leaves behind. -/
structure Report (α L : Type) where
  result : Except (SearchError α) (Solution α)
  telemetry : Telemetry L
  log : Array LogRecord

variable {R α L : Type} [Scalar α] [Relaxation R α] [Link L]

open Scalar

namespace Solution

/-- There is a point attached. -/
def hasSolution (s : Solution α) : Bool := !s.values.isEmpty

def text (s : Solution α) : String :=
  let found :=
    match s.status, s.description with
    | .infeasible, _ | _, none => "No feasible solution found"
    | _, some d => d
  found ++ "\n" ++ s!"{s.status.text}: {s.tally.iterations} iterations, "
    ++ s!"{s.tally.nodesCreated} nodes, {s.tally.cutsInjected} cuts"

/-- The result of a search that has ended with the given status. -/
def ofSearch (s : Search R α) (status : Status) : Solution α where
  status := status
  objective := s.incumbent.bestLowerBound
  values := (s.incumbent.found.map Found.point).getD #[]
  description := s.incumbent.found.map Found.description
  incumbentNode := s.incumbent.found.map Found.node
  tree := s.tree
  tally := s.tally
  trace := s.trace
  boundHistory := s.incumbent.history

end Solution

namespace Session

def note (s : Session R α L) (level : LogLevel) (text : String) : Session R α L :=
  { s with log := s.log.push ⟨level, text⟩ }

/-- Delivers an event or writes to the log. A failing delivery is logged where it happens. -/
def publishOne (clock : Nat → Nat) (s : Session R α L) : Notice α → Session R α L
  | .log record => { s with log := s.log.push record }
  | .event node parent kind =>
    let (telemetry, warnings) :=
      s.telemetry.emit (Event.new (clock s.telemetry.sent) node parent kind)
    { s with telemetry := telemetry, log := s.log ++ warnings.toArray }

def publish (clock : Nat → Nat) (s : Session R α L) (notices : List (Notice α)) : Session R α L :=
  notices.foldl (publishOne clock) s

/-- How exploring ends: settled, or cancelled, or by an error. -/
inductive Ending (α : Type) where
  | settled
  | cancelled
  | failed (error : SearchError α)

/-- Iterates while nodes wait; `remaining` more iterations are allowed. A request to stop is looked
at before each iteration, and before the limit. -/
def explore (plan : Plan α) (around : Surroundings L) (remaining : Nat) (s : Session R α L) :
    Ending α × Session R α L :=
  if s.search.pool.isEmpty then (.settled, s)
  else if around.isCancelled s.search.tally.iterations s.telemetry.link then
    (.cancelled, s.note .info s!"Search cancelled after {s.search.tally.iterations} iterations")
  else
    match remaining with
    | 0 =>
      let limit := plan.settings.maxIterations.toNat
      let best := s.search.incumbent.bestLowerBound
      (.failed (.iterationLimit limit best), s.note .error
        (s!"Iteration limit {limit} reached with {s.search.pool.size} open nodes, "
          ++ s!"best lower bound {text best}"))
    | left + 1 =>
      match s.search.advance plan with
      | (notices, .error e) => (.failed e, s.publish around.clock notices)
      | (notices, .ok p) =>
        let s := { s with search := p.search }.publish around.clock notices
        if p.stop then (.settled, s) else explore plan around left s

/-- Without cancellation the incumbent is optimal, and there is no integral point without one. -/
def settledStatus (s : Search R α) : Status :=
  if s.incumbent.found.isSome then .optimal else .infeasible

/-- Logs the end of a search and puts its result together. -/
def finish (s : Session R α L) (status : Status) : Report α L :=
  let s := s.note .info (s!"Search finished ({status.text}): "
    ++ s!"{s.search.tally.iterations} iterations, "
    ++ s!"{s.search.tally.nodesCreated} nodes, objective {text s.search.incumbent.bestLowerBound}")
  ⟨.ok (Solution.ofSearch s.search status), s.telemetry, s.log⟩

def run (plan : Plan α) (around : Surroundings L) (s : Session R α L) : Report α L :=
  let o := plan.settings
  let s := s.note .info (s!"Branch-and-cut: node selection {o.nodeOrder.name}, "
    ++ s!"branching {o.branchingRule.name}, cuts {o.cutStrategy.label}")
  match s.explore plan around o.maxIterations.toNat with
  | (.settled, s) => s.finish (settledStatus s.search)
  | (.cancelled, s) => s.finish .interrupted
  | (.failed e, s) => ⟨.error e, s.telemetry, s.log⟩

end Session

/-- Searches from a root relaxation. Settings out of range are refused. -/
def branchAndCut (plan : Plan α) (around : Surroundings L) (telemetry : Telemetry L) (root : R) :
    Report α L :=
  match plan.settings.validate with
  | .error e => ⟨.error (.config e), telemetry, #[]⟩
  | .ok () => Session.run plan around ⟨Search.initial plan.settings root, telemetry, #[]⟩

/-- Solves a model. Settings, then the model, are validated before the search starts. -/
def solveModel (model : Model α) (settings : Settings α) : Report α Silence :=
  match settings.validate, model.validate with
  | .error e, _ => ⟨.error (.config e), .disabled, #[]⟩
  | .ok (), .error e => ⟨.error (.invalidModel e), .disabled, #[]⟩
  | .ok (), .ok () =>
    let report := branchAndCut ⟨settings, CutPool.mostRecent⟩ .quiet Telemetry.disabled
      (Simplex.ofModel model)
    let opening : LogRecord :=
      ⟨.info, s!"Solving MILP: {model.numCols} columns, {model.numRows} rows"⟩
    { report with log := #[opening] ++ report.log }

end MixedInteger
