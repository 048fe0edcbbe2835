import LogicCalculator.Bindings
import LogicCalculator.Expr

/-!
# The text of an expression

Every operator is written with its own pair of parentheses, so the text shows
the shape of the tree whatever binds tighter. Under bindings a bound variable
is written as its bit.
-/

namespace LogicCalculator

/-- How a variable is written under bindings: its bit if it is bound, else its
name. -/
def Bindings.display (b : Bindings) (name : String) : String :=
  match b.get? name with
  | some bit => bit.text
  | none => name

namespace Expr

/-- The fully parenthesised text, with bound variables replaced by their bits. -/
def textWith (b : Bindings) : Expr → String
  | var name => b.display name
  | not operand => "(" ++ notKeyword ++ " " ++ operand.textWith b ++ ")"
  | binary operator left right =>
    "(" ++ left.textWith b ++ " " ++ operator.keyword ++ " " ++ right.textWith b ++ ")"

def text (e : Expr) : String := e.textWith ∅

instance : ToString Expr := ⟨text⟩

theorem text_var (name : String) : (var name).text = name := rfl

theorem text_not (operand : Expr) :
    (not operand).text = "(" ++ notKeyword ++ " " ++ operand.text ++ ")" := rfl

theorem text_binary (operator : BinaryOperator) (left right : Expr) :
    (binary operator left right).text =
      "(" ++ left.text ++ " " ++ operator.keyword ++ " " ++ right.text ++ ")" := rfl

end Expr

end LogicCalculator
