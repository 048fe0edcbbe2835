import LogicCalculator.Calculation
import LogicCalculator.Json

/-!
# Reports of calculations

A calculation is reported as a summary in plain lines or as one JSON object.
The summary has four lines and one more for every step.
-/

namespace LogicCalculator

def Bit.json (a : Bit) : Json := .number a.toNat

/-- A step as an object. The left operand is left out when there is none. -/
def Step.json (s : Step) : Json :=
  let left :=
    match s.left with
    | some bit => [("left", bit.json)]
    | none => []
  .object ([("operator", .string s.operator)] ++ left ++
    [("right", s.right.json), ("result", s.result.json), ("index", .number s.index)])

namespace Calculation

def json (c : Calculation) : Json :=
  .object
    [("parsed", .string c.parsed), ("expression", .string c.expression),
      ("result", c.result.json), ("processes", .array (c.steps.map Step.json))]

def summary (c : Calculation) : List String :=
  ["Parsed: " ++ c.parsed, "Expression: " ++ c.expression, "Result: " ++ c.result.text,
    "Processes:"] ++ c.steps.map fun step => "  " ++ step.text

@[simp] theorem length_summary (c : Calculation) : c.summary.length = 4 + c.steps.length := by
  simp [summary]; omega

end Calculation

end LogicCalculator
