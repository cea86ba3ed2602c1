/-!
# Node ids

Ids are handed out in increasing order from one. The children of a branched node come in pairs, an
even id for the floor side and the odd one after it for the ceiling side; an id may be skipped to
keep that.
-/

namespace MixedInteger

abbrev NodeId := Nat

/-- The first id that is free. -/
structure NodeIds where
  next : Nat
  deriving DecidableEq, Repr

namespace NodeIds

def initial : NodeIds := ⟨1⟩

def nextId (ids : NodeIds) : NodeId × NodeIds := (ids.next, ⟨ids.next + 1⟩)

/-- The first even id that is free. -/
def nextEven (ids : NodeIds) : Nat := if ids.next % 2 = 1 then ids.next + 1 else ids.next

/-- An odd id that is free is skipped. -/
theorem nextEven_eq (ids : NodeIds) : ids.nextEven = ids.next + ids.next % 2 := by
  unfold nextEven
  split <;> omega

def nextPair (ids : NodeIds) : (NodeId × NodeId) × NodeIds :=
  let even := ids.nextEven
  ((even, even + 1), ⟨even + 2⟩)

/-- Ids used up so far, skipped ones included. -/
def issued (ids : NodeIds) : Nat := ids.next - 1

end NodeIds

end MixedInteger
