import LogicCalculator.Expr.SyntaxError
import LogicCalculator.Step

/-!
# Events

What a calculation reports while it runs, in the order in which it happens.
Events about single tokens are of the finest level; faults and steps are of the
next one.
-/

namespace LogicCalculator

inductive Event where
  | illegalCharacter (text : String) (position : Position)
  | scannedToken (kind : Token.Kind) (position : Position)
  | skippedOperator (operator : Token.Kind)
  | syntaxError (error : SyntaxError)
  | unboundVariable (error : UnboundVariable)
  | step (step : Step)
deriving DecidableEq, Repr

inductive Event.Level where
  | trace
  | debug
deriving DecidableEq, Repr

namespace Event

def Level.text : Level → String
  | trace => "TRACE"
  | debug => "DEBUG"

def level : Event → Level
  | illegalCharacter .. | scannedToken .. | skippedOperator .. => .trace
  | syntaxError .. | unboundVariable .. | step .. => .debug

def message : Event → String
  | illegalCharacter .. => "illegal character"
  | scannedToken .. => "scanned token"
  | skippedOperator .. => "skipping operator"
  | syntaxError .. => "syntax error"
  | unboundVariable .. => "evaluation error"
  | step .. => "calculation step"

/-- The events of taking a token from the text. The end of the text passes in
silence, and an illegal character is reported before its token. -/
def ofToken (t : Token) : List Event :=
  let scanned := scannedToken t.kind t.position
  match t.kind with
  | .endOfInput => []
  | .illegal => [illegalCharacter (t.text.getD "") t.position, scanned]
  | _ => [scanned]

end Event

end LogicCalculator
