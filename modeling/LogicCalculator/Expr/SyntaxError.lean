import LogicCalculator.Token

/-!
# Faults in the text of an expression

A fault has a cause and the position of the token that shows it. Its message
begins with that position.
-/

namespace LogicCalculator

/-- Why a text is no expression: another token was required, a token cannot
begin an operand, a token stands where an operator is needed, or the nesting
takes more levels than there are. -/
inductive SyntaxError.Cause where
  | unexpectedToken (expected found : Token.Kind)
  | unknownExpression (found : Token.Kind)
  | unknownOperator (found : Token.Kind)
  | nestingTooDeep (limit : Nat)
deriving DecidableEq, Repr

structure SyntaxError where
  cause : SyntaxError.Cause
  position : Position
deriving DecidableEq, Repr

namespace SyntaxError

def Cause.message : Cause → String
  | unexpectedToken expected found =>
    s!"expected next token to be {expected}, got {found} instead"
  | unknownExpression found => s!"unknown expression {found}"
  | unknownOperator found => s!"unknown operator {found}"
  | nestingTooDeep limit => s!"expression nested too deeply (limit {limit})"

def message (e : SyntaxError) : String :=
  "(" ++ e.position.text ++ ") " ++ e.cause.message

def Cause.found? : Cause → Option Token.Kind
  | unexpectedToken _ found => some found
  | unknownExpression found => some found
  | unknownOperator found => some found
  | nestingTooDeep _ => none

end SyntaxError

end LogicCalculator
