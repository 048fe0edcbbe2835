import LogicCalculator.Bit

/-!
# Steps of a calculation

A step is one operator applied to bits. Steps are numbered in the order in
which the applications complete.
-/

namespace LogicCalculator

/-- One application. `left` is absent when the operator has one operand. -/
structure Step where
  operator : String
  left : Option Bit
  right : Bit
  result : Bit
  index : Nat
deriving DecidableEq, Repr

/-- The equation a step stands for, such as `1 AND 0 = 0` or `NOT 0 = 1`. -/
def Step.text (s : Step) : String :=
  let equation := s.operator ++ " " ++ s.right.text ++ " = " ++ s.result.text
  match s.left with
  | some left => left.text ++ " " ++ equation
  | none => equation

instance : ToString Step := ⟨Step.text⟩

structure UnboundVariable where
  name : String
deriving DecidableEq, Repr

def UnboundVariable.message (v : UnboundVariable) : String :=
  "Variable " ++ v.name ++ " not found"

end LogicCalculator
