import Std.Data.HashMap
import MixedInteger.Change
import MixedInteger.Search.NodeId

/-!
# The search tree

A record of every node ever created. Nodes are only added and marked, never removed. `index` finds
the slot of an id.

* `SearchTree.insertRoot`, `SearchTree.insertChild`, `SearchTree.mark`: the operations, each of
  which fails on ids that do not fit;
* `SearchTree.insertRootInPlace`, `SearchTree.insertChildInPlace`, `SearchTree.markInPlace`: the
  same where the tree is, which a failure leaves as it was;
* `SearchTree.render`: the nodes in pre-order under a legend.
-/

namespace MixedInteger

/-- What became of a node that was taken from the pool. -/
inductive Fate where
  | prunedIntegral
  | prunedInfeasible
  | prunedByBound
  | branched
  deriving DecidableEq, Repr

/-- Why a node left the search; open and branched nodes have no mark. -/
inductive Mark where
  | unmarked
  | prunedIntegral
  | prunedInfeasible
  | prunedByBound
  deriving DecidableEq, Repr

def Fate.mark : Fate → Mark
  | .prunedIntegral => .prunedIntegral
  | .prunedInfeasible => .prunedInfeasible
  | .prunedByBound => .prunedByBound
  | .branched => .unmarked

def Mark.suffix : Mark → String
  | .unmarked => ""
  | .prunedIntegral => " I"
  | .prunedInfeasible => " F"
  | .prunedByBound => " B"

structure TreeNode where
  id : NodeId
  parent : Option NodeId
  /-- In order of creation. -/
  children : List NodeId
  depth : Nat
  mark : Mark
  deriving DecidableEq, Repr

/-- A node that stands at the top. -/
def TreeNode.root (id : NodeId) : TreeNode := ⟨id, none, [], 0, .unmarked⟩

structure SearchTree where
  nodes : Array TreeNode
  index : Std.HashMap NodeId Nat

inductive TreeError where
  | secondRoot (id : NodeId)
  | duplicate (id : NodeId)
  | missingParent (parent id : NodeId)
  | missing (id : NodeId)
  deriving DecidableEq, Repr

def TreeError.text : TreeError → String
  | .secondRoot id => s!"root {id} inserted into a non-empty tree"
  | .duplicate id => s!"node {id} inserted twice"
  | .missingParent parent id => s!"parent {parent} of node {id} not in tree"
  | .missing id => s!"node {id} not in tree"

namespace SearchTree

def empty : SearchTree := ⟨#[], ∅⟩

def size (t : SearchTree) : Nat := t.nodes.size

def contains (t : SearchTree) (id : NodeId) : Bool := t.index.contains id

/-- Puts a node into the next slot. -/
def push (t : SearchTree) (node : TreeNode) : SearchTree :=
  ⟨t.nodes.push node, t.index.insert node.id t.nodes.size⟩

@[simp] theorem size_push (t : SearchTree) (node : TreeNode) : (t.push node).size = t.size + 1 := by
  simp [push, size]

/-- The tree of a single node. -/
def ofRoot (id : NodeId) : SearchTree := empty.push (TreeNode.root id)

/-- A tree has one root, and it is inserted first. -/
def insertRoot (t : SearchTree) (id : NodeId) : Except TreeError SearchTree :=
  if t.nodes.isEmpty then .ok (t.push (TreeNode.root id)) else .error (.secondRoot id)

def insertChild (t : SearchTree) (parent id : NodeId) : Except TreeError SearchTree :=
  if t.contains id then .error (.duplicate id)
  else
    match t.index[parent]? with
    | none => .error (.missingParent parent id)
    | some slot =>
      let depth := ((t.nodes[slot]?.map TreeNode.depth).getD 0) + 1
      let linked := t.nodes.modify slot fun p => { p with children := p.children ++ [id] }
      .ok (push { t with nodes := linked } ⟨id, some parent, [], depth, .unmarked⟩)

def mark (t : SearchTree) (id : NodeId) (m : Mark) : Except TreeError SearchTree :=
  match t.index[id]? with
  | none => .error (.missing id)
  | some slot => .ok { t with nodes := t.nodes.modify slot fun n => { n with mark := m } }

/-! ## In place -/

/-- Enters the id of a node, then the node. -/
def pushInPlace (node : TreeNode) : Change TreeError SearchTree Unit := do
  modify fun t => { t with index := t.index.insert node.id t.nodes.size }
  modify fun t => { t with nodes := t.nodes.push node }

def insertRootInPlace (id : NodeId) : Change TreeError SearchTree Unit := do
  if !(← get).nodes.isEmpty then throw (.secondRoot id)
  pushInPlace (TreeNode.root id)

/-- The parent lists its child before the child is there. -/
def insertChildInPlace (parent id : NodeId) : Change TreeError SearchTree Unit := do
  let start ← get
  if start.contains id then throw (.duplicate id)
  let some slot := start.index[parent]? | throw (.missingParent parent id)
  let depth := ((start.nodes[slot]?.map TreeNode.depth).getD 0) + 1
  modify fun t => { t with
    nodes := t.nodes.modify slot fun p => { p with children := p.children ++ [id] } }
  pushInPlace ⟨id, some parent, [], depth, .unmarked⟩

def markInPlace (id : NodeId) (m : Mark) : Change TreeError SearchTree Unit := do
  let some slot := (← get).index[id]? | throw (.missing id)
  modify fun t => { t with nodes := t.nodes.modify slot fun n => { n with mark := m } }

theorem insertRootInPlace_eq (id : NodeId) : insertRootInPlace id =
    Change.atomic (fun t => t.insertRoot id) fun _ => () := by
  funext t
  change (insertRootInPlace id).run t = (Change.atomic _ _).run t
  simp only [insertRootInPlace, insertRoot, Change.run_atomic, EStateM.run_bind,
    EStateM.run_get]
  cases t.nodes.isEmpty <;> rfl

/-- The ids are looked up before the parent is written. -/
theorem insertChildInPlace_eq (parent id : NodeId) :
    insertChildInPlace parent id =
      Change.atomic (fun t => t.insertChild parent id) fun _ => () := by
  funext t
  change (insertChildInPlace parent id).run t = (Change.atomic _ _).run t
  simp only [insertChildInPlace, insertChild, Change.run_atomic, EStateM.run_bind,
    EStateM.run_get]
  cases t.contains id with
  | true => rfl
  | false => cases t.index[parent]? <;> rfl

theorem markInPlace_eq (id : NodeId) (m : Mark) : markInPlace id m =
    Change.atomic (fun t => t.mark id m) fun _ => () := by
  funext t
  change (markInPlace id m).run t = (Change.atomic _ _).run t
  simp only [markInPlace, mark, Change.run_atomic, EStateM.run_bind, EStateM.run_get]
  cases t.index[id]? <;> rfl

/-! ## Reading -/

def get? (t : SearchTree) (id : NodeId) : Option TreeNode := do t.nodes[← t.index[id]?]?

/-- None for the root and for ids that are not in the tree. -/
def parent? (t : SearchTree) (id : NodeId) : Option NodeId := do (← t.get? id).parent

def root? (t : SearchTree) : Option TreeNode := t.nodes[0]?

/-- A node is indented by its depth and followed by its mark. -/
def line (node : TreeNode) : String :=
  String.ofList (List.replicate node.depth ' ') ++ s!"-{node.id}{node.mark.suffix}\n"

/-- The lines of the slots on the stack and of all that hangs below them, children before
siblings. At most `count` nodes are listed. -/
def listing (t : SearchTree) : (count : Nat) → (stack : List Nat) → List String
  | 0, _ | _, [] => []
  | count + 1, slot :: stack =>
    match t.nodes[slot]? with
    | none => t.listing count stack
    | some node => line node :: t.listing count (node.children.filterMap (t.index[·]?) ++ stack)

def legend : String := "[I = Integral node, F = Infeasible node, B = Worse bound node]\n"

/-- The legend and the nodes in pre-order. Each node is listed once, so their number is enough. -/
def render (t : SearchTree) : String :=
  legend ++ String.join (t.listing t.size (if t.nodes.isEmpty then [] else [0]))

end SearchTree

end MixedInteger
