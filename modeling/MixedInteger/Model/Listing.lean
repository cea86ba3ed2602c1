import MixedInteger.Model

/-!
# The listing of a model

The objective, the rows and the column ranges, one a line.
-/

namespace MixedInteger.Model

variable {α : Type} [Scalar α]

open Scalar

def termText (t : Term α) : String := s!" {signedText t.2}*x[{t.1}]"

/-- The objective without its zero coefficients. -/
def objectiveText (m : Model α) : String :=
  let terms := m.objective.toList.mapIdx fun j c => if c == 0 then "" else termText (j, c)
  "max" ++ String.join terms

def rowText (m : Model α) (i : Nat) (terms : List (Term α)) : String :=
  let range := m.rowRange i
  s!"  {text range.1} <={String.join (terms.map termText)} <= {text range.2}"

def columnText (m : Model α) (j : Nat) : String :=
  let range := m.colRange j
  s!"  {text range.1} <= x[{j}] <= {text range.2} ({(m.kind j).text})"

/-- Every line of the listing ends in a newline. -/
def listing (m : Model α) : String :=
  let lines := m.objectiveText :: (m.matrix.lines.toList.mapIdx m.rowText
    ++ (List.range m.numCols).map m.columnText)
  String.join (lines.map (· ++ "\n"))

end MixedInteger.Model
