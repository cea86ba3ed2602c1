import MixedInteger.Cut.Pool
import MixedInteger.Search.Incumbent
import MixedInteger.Search.Tally
import MixedInteger.Settings
import MixedInteger.Telemetry

/-!
# Branch and cut

A search holds the waiting nodes, the tree of all nodes, the incumbent and the cuts. One step takes
a node, solves and classifies it, and prunes it or replaces it by two children. A step also says
what it wants to be told to observers and written to the log; it never asks whether anyone listened.

* `Search.initial`: the search with the root waiting;
* `Search.process`: disposes of one node;
* `Search.advance`: one iteration.
-/

namespace MixedInteger

/-- A broken promise of the search to itself. -/
inductive Fault where
  | tree (error : TreeError)
  | noBranchingVariable (node : NodeId)
  deriving DecidableEq, Repr

/-- Why a search ends without a result. -/
inductive SearchError (α : Type) where
  | config (error : ConfigError α)
  | invalidModel (error : ModelError α)
  | telemetry (error : LinkError)
  | iterationLimit (limit : Nat) (bestLowerBound : α)
  | internal (fault : Fault)
  deriving DecidableEq, Repr

/-- Something to tell observers, or to write to the log. -/
inductive Notice (α : Type) where
  | event (node : NodeId) (parent : Option NodeId) (kind : EventKind α)
  | log (record : LogRecord)
  deriving DecidableEq, Repr

structure Search (R α : Type) where
  pool : NodePool R α
  tree : SearchTree
  ids : NodeIds
  incumbent : Incumbent α
  cuts : CutPool α
  generator : Gomory α
  tally : Tally
  /-- The fate of every node taken, in order. -/
  trace : Array (NodeId × Fate)

/-- The choices that stay fixed during a search. -/
structure Plan (α : Type) where
  settings : Settings α
  cutSelector : CutSelector α

/-- What a part of a step wants to be told and what it leaves behind. Notices that were given
before a failure stay. -/
abbrev Reported (α β : Type) := List (Notice α) × Except (SearchError α) β

variable {R α : Type} [Scalar α] [Relaxation R α]

open Scalar

def Fault.text : Fault → String
  | .tree error => error.text
  | .noBranchingVariable node => s!"no branching variable chosen at node {node}"

def SearchError.message : SearchError α → String
  | .config e => s!"Invalid configuration: {e.message}"
  | .invalidModel e => s!"Invalid model: {e.message}"
  | .telemetry e => s!"Telemetry setup failed: {e.message}"
  | .iterationLimit limit best =>
    s!"Iteration limit of {limit} reached (best lower bound so far: {text best})"
  | .internal fault => s!"Internal error: {fault.text}"

def Verdict.text : Verdict → String
  | .optimal => "Optimal"
  | .infeasible => "Infeasible"
  | .unbounded => "Unbounded"

def Notice.info (text : String) : Notice α := .log ⟨.info, text⟩

/-- Cuts of the given columns, in order, and the generator after them. -/
def Gomory.generateAll (g : Gomory α) (oracle : R) (node : NodeId) :
    List Nat → List (Cut α) × Gomory α
  | [] => ([], g)
  | j :: js =>
    match g.generate oracle j node with
    | (none, g) => g.generateAll oracle node js
    | (some cut, g) =>
      let (cuts, g) := g.generateAll oracle node js
      (cut :: cuts, g)

/-- Columns that have to be integral, in or out of scope. -/
def integralColumns (oracle : R) : List Nat :=
  (List.range (Relaxation.numVariables oracle)).filter fun j =>
    (Relaxation.kind oracle j).isIntegral

/-- How many of `generated` cuts are admitted. -/
def admittedCount (fraction : α) (generated : Nat) : Nat :=
  min (toCount (ceil (fraction * ofNat generated))) generated

namespace Search

def initial (settings : Settings α) (model : R) : Search R α where
  pool := NodePool.empty.push (Subproblem.root 1 model)
  tree := SearchTree.ofRoot 1
  ids := NodeIds.initial.nextId.2
  incumbent := Incumbent.initial
  cuts := CutPool.empty
  generator := Gomory.new settings.gomory
  tally := { Tally.zero with nodesCreated := 1 }
  trace := #[]

/-- Generates cuts at a solved relaxation, admits a share of them and injects the selected one. -/
def addCuts (plan : Plan α) (s : Search R α) (node : NodeId) (oracle : R) :
    Except (ModelError α) (Search R α × R) := do
  let (generated, generator) := s.generator.generateAll oracle node (integralColumns oracle)
  let start := s.cuts.size
  let admitted := generated.take (admittedCount plan.settings.cutFraction generated.length)
  let cuts := admitted.foldl CutPool.add s.cuts
  let tally := { s.tally with cutsGenerated := s.tally.cutsGenerated + generated.length }
  let s := { s with generator := generator, cuts := cuts, tally := tally }
  match plan.cutSelector cuts start cuts.size with
  | none => return (s, oracle)
  | some chosen =>
    let (row, cuts, oracle) ← cuts.inject oracle (some chosen)
    let injected := if row.isSome then 1 else 0
    return ({ s with
      cuts := cuts
      tally := { tally with cutsInjected := tally.cutsInjected + injected } }, oracle)

/-- One child of a node: it is solved once for its bound, recorded in the tree, and waits. -/
def addChild (s : Search R α) (parent : NodeId) (depth : Nat) (oracle : R) (id : NodeId)
    (change : BoundChange α) : Reported α (Search R α) :=
  match Subproblem.child id parent depth oracle change with
  | .error e => ([], .error (.invalidModel e))
  | .ok child =>
    let child := child.presolve
    match s.tree.insertChild parent id with
    | .error e => ([], .error (.internal (.tree e)))
    | .ok tree =>
      let bound := if isFinite child.upperBound then some child.upperBound else none
      ([.event id (some parent) (.candidate bound)], .ok { s with
        tree := tree
        pool := s.pool.push child
        tally := { s.tally with nodesCreated := s.tally.nodesCreated + 1 } })

/-- The children of a node: the floor side first, then the ceiling side. -/
def addChildren (s : Search R α) (node : Subproblem R α) (oracle : R) (pick : Violation α) :
    Reported α (Search R α) :=
  let ((downId, upId), ids) := s.ids.nextPair
  let s := { s with ids := ids }
  match s.addChild node.id (node.depth + 1) oracle downId (.down pick.column pick.value) with
  | (notices, .error e) => (notices, .error e)
  | (notices, .ok s) =>
    let (more, result) :=
      s.addChild node.id (node.depth + 1) oracle upId (.up pick.column pick.value)
    (notices ++ more, result)

/-- Replaces a fractional node by its children. The violation to branch on is chosen before cuts
are added. -/
def branch (plan : Plan α) (s : Search R α) (node : Subproblem R α) (oracle : R) (bound : α)
    (vs : List (Violation α)) : Reported α (Search R α) :=
  let announced : Notice α := .event node.id node.parent
    (.branched bound (Scalar.sum (vs.map Violation.fraction)) vs.length)
  match (plan.settings.branchingRule.select? vs).bind (vs[·]?) with
  | none => ([announced], .error (.internal (.noBranchingVariable node.id)))
  | some pick =>
    let tightened :=
      if plan.settings.cutsEnabled then s.addCuts plan node.id oracle else .ok (s, oracle)
    match tightened with
    | .error e => ([announced], .error (.invalidModel e))
    | .ok (s, oracle) =>
      let (notices, result) := s.addChildren node oracle pick
      (announced :: notices, result)

/-- The values of all columns at the last solve. -/
def pointOf (oracle : R) : Point α :=
  ((List.range (Relaxation.numVariables oracle)).map (Relaxation.value oracle)).toArray

/-- Offers the solution of an integral node as incumbent. -/
def offer (s : Search R α) (node : NodeId) (oracle : R) (bound : α) :
    List (Notice α) × Search R α :=
  if s.incumbent.improvedBy bound then
    let found : Found α := ⟨pointOf oracle, describeSolution node oracle, node⟩
    ([.info s!"New incumbent at node {node}: obj={text bound}"], { s with
      incumbent := s.incumbent.update bound found
      tally := { s.tally with incumbentUpdates := s.tally.incumbentUpdates + 1 } })
  else ([], s)

/-- What happened to a node and whether the whole search is settled by it. -/
structure Disposal (R α : Type) where
  search : Search R α
  fate : Fate
  stop : Bool

/-- Solves, classifies and disposes of one node. A root that is infeasible or integral settles the
search. -/
def process (plan : Plan α) (s : Search R α) (node : Subproblem R α) : Reported α (Disposal R α) :=
  let (verdict, oracle) := Relaxation.solve node.model
  let bound := Relaxation.objectiveValue oracle
  let tell (kind : EventKind α) : Notice α := .event node.id node.parent kind
  let solved := tell (.pregnant (if verdict = .optimal then some bound else none))
  match classify oracle verdict plan.settings.scope plan.settings.integralityTol with
  | .infeasible =>
    let settled : List (Notice α) :=
      if node.isRoot then
        [.info s!"Root relaxation is {verdict.text}; no feasible solution"]
      else []
    (solved :: tell .infeasible :: settled, .ok ⟨s, .prunedInfeasible, node.isRoot⟩)
  | .integral =>
    let (notices, s) := s.offer node.id oracle bound
    (solved :: tell (.integral bound) :: notices, .ok ⟨s, .prunedIntegral, node.isRoot⟩)
  | .fractional vs =>
    if s.incumbent.dominates bound plan.settings.pruneTies then
      ([solved, tell .fathomed], .ok ⟨s, .prunedByBound, false⟩)
    else
      let (notices, result) := s.branch plan node oracle bound vs
      (solved :: notices, result.map fun s => ⟨s, .branched, false⟩)

/-- Records the fate of a node in the tree, the counters and the trace. -/
def conclude (d : Disposal R α) (id : NodeId) : Except (SearchError α) (Search R α) :=
  match d.search.tree.mark id d.fate.mark with
  | .error e => .error (.internal (.tree e))
  | .ok tree => .ok { d.search with
      tree := tree
      tally := d.search.tally.record d.fate
      trace := d.search.trace.push (id, d.fate) }

/-- The progress line, after every so many iterations. -/
def progress (plan : Plan α) (s : Search R α) : List (Notice α) :=
  let every := plan.settings.logFreq.toNat
  if every ≠ 0 ∧ s.tally.iterations % every = 0 then
    [.info (s!"Iteration {s.tally.iterations}: {s.pool.size} open nodes, "
      ++ s!"{s.tally.nodesCreated} created, incumbent {text s.incumbent.bestLowerBound}, "
      ++ s!"best open bound {text s.pool.bestBound}")]
  else []

/-- A search after an iteration, and whether it is settled. -/
structure Progress (R α : Type) where
  search : Search R α
  stop : Bool

/-- One iteration: takes a node by the chosen order and disposes of it. Without a node to take the
search is settled. -/
def advance (plan : Plan α) (s : Search R α) : Reported α (Progress R α) :=
  match s.pool.take? plan.settings.nodeOrder.selector with
  | none => ([], .ok ⟨s, true⟩)
  | some ((node, _), pool) =>
    let s := { s with
      pool := pool
      tally := { s.tally with iterations := s.tally.iterations + 1 } }
    match s.process plan node with
    | (notices, .error e) => (notices, .error e)
    | (notices, .ok d) =>
      match conclude d node.id with
      | .error e => (notices, .error e)
      | .ok s => (notices ++ s.progress plan, .ok ⟨s, d.stop⟩)

end Search

end MixedInteger
