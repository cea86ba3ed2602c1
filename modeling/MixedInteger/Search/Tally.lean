import MixedInteger.Search.Tree

/-!
# Counters of a search
-/

namespace MixedInteger

structure Tally where
  iterations : Nat
  /-- The root included. -/
  nodesCreated : Nat
  prunedIntegral : Nat
  prunedInfeasible : Nat
  prunedByBound : Nat
  branched : Nat
  cutsGenerated : Nat
  cutsInjected : Nat
  incumbentUpdates : Nat
  deriving DecidableEq, Repr

namespace Tally

def zero : Tally := ⟨0, 0, 0, 0, 0, 0, 0, 0, 0⟩

/-- Counts the fate of one node. -/
def record (t : Tally) : Fate → Tally
  | .prunedIntegral => { t with prunedIntegral := t.prunedIntegral + 1 }
  | .prunedInfeasible => { t with prunedInfeasible := t.prunedInfeasible + 1 }
  | .prunedByBound => { t with prunedByBound := t.prunedByBound + 1 }
  | .branched => { t with branched := t.branched + 1 }

end Tally

end MixedInteger
