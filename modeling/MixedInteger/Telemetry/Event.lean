import MixedInteger.Json
import MixedInteger.Scalar.Binary64
import MixedInteger.Search.NodeId

/-!
# Events

What an observer of a search is told: which node, since when, and what happened to it. An event is
written as one JSON object on one line and can be read back from it.

* `Event.toJson`, `Event.ofJson?`: writing and reading;
* `Direction.ofNode`: the side on which an observer draws a node.
-/

namespace MixedInteger

inductive Direction where
  | left
  | middle
  | right
  deriving DecidableEq, Repr

/-- The root is in the middle; other nodes are right or left as their ids are even or odd. -/
def Direction.ofNode (id : NodeId) : Direction :=
  if id ≤ 1 then .middle else if id % 2 = 0 then .right else .left

inductive EventKind (α : Type) where
  /-- The relaxation has been solved; there is a bound if it has an optimum. -/
  | pregnant (lpBound : Option α)
  | integral (lpBound : α)
  | infeasible
  | fathomed
  | branched (lpBound sumOfFractionalParts : α) (violatedCount : Nat)
  /-- A child is about to wait in the pool; there is a bound if its relaxation has an optimum. -/
  | candidate (lpBound : Option α)
  deriving DecidableEq, Repr

structure Event (α : Type) where
  timestampMs : Nat
  node : NodeId
  parent : Option NodeId
  direction : Direction
  kind : EventKind α
  deriving DecidableEq, Repr

namespace Event

/-- An event about a node at a given time. -/
def new {α : Type} (timestampMs : Nat) (node : NodeId) (parent : Option NodeId)
    (kind : EventKind α) : Event α :=
  ⟨timestampMs, node, parent, Direction.ofNode node, kind⟩

end Event

/-! ## Writing -/

open Json

def Direction.letter : Direction → String
  | .left => "L"
  | .middle => "M"
  | .right => "R"

variable {α : Type} [Scalar α]

def EventKind.tag : EventKind α → String
  | .pregnant _ => "pregnant"
  | .integral _ => "integral"
  | .infeasible => "infeasible"
  | .fathomed => "fathomed"
  | .branched _ _ _ => "branched"
  | .candidate _ => "candidate"

def boundText : Option α → String
  | some b => Scalar.json b
  | none => "null"

/-- The fields that belong to one kind of event only. -/
def EventKind.payload : EventKind α → List (String × String)
  | .pregnant b | .candidate b => [("lp_bound", boundText b)]
  | .integral b => [("lp_bound", Scalar.json b)]
  | .infeasible | .fathomed => []
  | .branched b sum count =>
    [("lp_bound", Scalar.json b), ("sum_of_fractional_parts", Scalar.json sum),
      ("violated_count", toString count)]

def Event.toJson (e : Event α) : String :=
  objectText ([
    ("timestamp_ms", toString e.timestampMs),
    ("node_id", toString e.node),
    ("parent_id", match e.parent with
      | some p => toString p
      | none => "null"),
    ("direction", plainString e.direction.letter),
    ("event", plainString e.kind.tag)] ++ e.kind.payload)

/-! ## Reading -/

def Direction.read? (v : Json) : Option Direction := do
  match ← asVariant? v with
  | "L" => some .left
  | "M" => some .middle
  | "R" => some .right
  | _ => none

/-- The names of the kinds. In a document a kind may also be given by its position here. -/
def EventKind.tags : List String :=
  ["pregnant", "integral", "infeasible", "fathomed", "branched", "candidate"]

def EventKind.readTag? : Json → Option String
  | .string s => s
  | .number n => do tags[← n.toWord?]?
  | _ => none

/-- The kind with its payload. A bound that may be missing may also be null. -/
def EventKind.read? (fields : List (String × Json)) : Option (EventKind Float) := do
  match ← required? fields "event" EventKind.readTag? with
  | "pregnant" => return .pregnant (← field? fields "lp_bound" none (orNull? asFloat?))
  | "candidate" => return .candidate (← field? fields "lp_bound" none (orNull? asFloat?))
  | "integral" => return .integral (← required? fields "lp_bound" asFloat?)
  | "infeasible" => return .infeasible
  | "fathomed" => return .fathomed
  | "branched" =>
    return .branched (← required? fields "lp_bound" asFloat?)
      (← required? fields "sum_of_fractional_parts" asFloat?)
      (← required? fields "violated_count" asWord?)
  | _ => none

namespace Event

/-- The fields that every event has. -/
def headerNames : List String := ["timestamp_ms", "node_id", "parent_id", "direction"]

/-- Reads an object. The direction is taken as written, and fields that belong to no event, or to
another kind, are ignored as long as they could be kept until the kind is known. -/
def read? : Json → Option (Event Float)
  | .object ms => do
    let fields ← members? ms
    let rest := fields.filter fun f => !headerNames.contains f.1
    if rest.all fun f => f.2.isBuffered then
      return {
        timestampMs := ← required? fields "timestamp_ms" asWord?
        node := ← required? fields "node_id" asWord?
        parent := ← field? fields "parent_id" none (orNull? asWord?)
        direction := ← required? fields "direction" Direction.read?
        kind := ← EventKind.read? rest }
    else none
  | _ => none

def ofJson? (document : String) : Option (Event Float) := (parse? document).bind read?

end Event

end MixedInteger
