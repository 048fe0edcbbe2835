import LogicCalculator.Expr.Evaluation
import LogicCalculator.Expr.Parser
import LogicCalculator.Expr.Text

/-!
# Calculations

A calculation takes a text and bindings to the value of the expression, with
the expression as it was understood and every step on the way. It fails if the
text is no expression, and otherwise if a variable has no bit; it never fails
without a message.
-/

namespace LogicCalculator

/-- What a calculation has found: the fully parenthesised expression, the same
with bits for variables, the value, and the steps in order. -/
structure Calculation where
  parsed : String
  expression : String
  result : Bit
  steps : List Step
deriving DecidableEq, Repr

/-- Why a calculation has no value. An expression that cannot be read is never
evaluated. -/
inductive Failure where
  | unreadable (errors : List SyntaxError)
  | undetermined (errors : List UnboundVariable)
deriving DecidableEq, Repr

def Failure.messages : Failure → List String
  | unreadable errors => errors.map SyntaxError.message
  | undetermined errors => errors.map UnboundVariable.message

def Failure.message (f : Failure) : String := "\n".intercalate f.messages

def Expr.calculate (b : Bindings) (e : Expr) : Except Failure Calculation :=
  match e.evaluate b .empty with
  | (some result, v) => .ok ⟨e.text, e.textWith b, result, v.steps.toList⟩
  | (none, v) => .error (.undetermined v.errors.toList)

def calculate (source : String) (b : Bindings) : Except Failure Calculation :=
  match Expr.ofString source with
  | .error errors => .error (.unreadable errors)
  | .ok e => e.calculate b

def events (source : String) (b : Bindings) : List Event :=
  match (Parser.ofString source).parse with
  | (none, p) => p.log.toList
  | (some e, p) => p.log.toList ++ (e.evaluate b .empty).2.log.toList

end LogicCalculator
