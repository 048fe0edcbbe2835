import LogicCalculator.Bit
import LogicCalculator.Token

/-!
# Expressions

The tree of an expression. Parentheses and layout leave no trace in it; names
are arbitrary strings.
-/

namespace LogicCalculator

inductive BinaryOperator where
  | and
  | or
  | xor
deriving DecidableEq, Repr, Inhabited

inductive Expr where
  | var (name : String)
  | not (operand : Expr)
  | binary (operator : BinaryOperator) (left right : Expr)
deriving DecidableEq, Repr, Inhabited

namespace BinaryOperator

def keyword : BinaryOperator → String
  | and => "AND"
  | or => "OR"
  | xor => "XOR"

def ofKind? : Token.Kind → Option BinaryOperator
  | .and => some and
  | .or => some or
  | .xor => some xor
  | _ => none

def apply : BinaryOperator → Bit → Bit → Bit
  | and => Bit.and
  | or => Bit.or
  | xor => Bit.xor

end BinaryOperator

namespace Expr

def notKeyword : String := "NOT"

end Expr

end LogicCalculator
