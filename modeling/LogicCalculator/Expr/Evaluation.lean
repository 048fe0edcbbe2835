import LogicCalculator.Bindings
import LogicCalculator.Event
import LogicCalculator.Expr

/-!
# Evaluating expressions

Both operands of an operator are evaluated, the left one first, whatever their
bits are: every unbound variable is found, and every operator whose operands
have bits leaves a step. One evaluation can take several trees; its steps are
then numbered through.
-/

namespace LogicCalculator

structure Evaluation where
  steps : Array Step
  errors : Array UnboundVariable
  log : Array Event
deriving DecidableEq, Repr

namespace Evaluation

def empty : Evaluation := ⟨#[], #[], #[]⟩

def report (v : Evaluation) (error : UnboundVariable) : Evaluation :=
  { v with errors := v.errors.push error, log := v.log.push (.unboundVariable error) }

def record (v : Evaluation) (operator : String) (left : Option Bit) (right result : Bit) :
    Evaluation :=
  let step : Step := ⟨operator, left, right, result, v.steps.size⟩
  { v with steps := v.steps.push step, log := v.log.push (.step step) }

end Evaluation

namespace Expr

/-- The value of a tree, if all its variables are bound. -/
def evaluate (b : Bindings) : Expr → Evaluation → Option Bit × Evaluation
  | var name, v =>
    match b.get? name with
    | some bit => (some bit, v)
    | none => (none, v.report ⟨name⟩)
  | not operand, v =>
    match operand.evaluate b v with
    | (some right, v) => (some right.not, v.record notKeyword none right right.not)
    | (none, v) => (none, v)
  | binary operator left right, v =>
    -- both operands are evaluated, whether the first has a value or not
    let (x, v) := left.evaluate b v
    let (y, v) := right.evaluate b v
    match x, y with
    | some x, some y =>
      let result := operator.apply x y
      (some result, v.record operator.keyword (some x) y result)
    | _, _ => (none, v)

/-- Evaluates trees one after the other: the value of each, with what all of
them up to it have left behind. -/
def evaluateAll (b : Bindings) : List Expr → Evaluation → List (Option Bit × Evaluation)
  | [], _ => []
  | e :: rest, v => e.evaluate b v :: evaluateAll b rest (e.evaluate b v).2

end Expr

end LogicCalculator
