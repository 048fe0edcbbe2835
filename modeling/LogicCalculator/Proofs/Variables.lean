import LogicCalculator.Expr
import LogicCalculator.Proofs.ScannerLaws

/-!
# Variables of an expression

The names that occur in a tree, and the names that a text can spell.
-/

namespace LogicCalculator

/-- The names of the variables from left to right, each as often as it occurs. -/
def Expr.names : Expr → List String
  | var name => [name]
  | not operand => operand.names
  | binary _ left right => left.names ++ right.names

/-- A word of ASCII letters that is no keyword in any casing. -/
def IsName (name : String) : Prop :=
  name ≠ "" ∧ name.toList.all Char.isAlpha ∧
    name.toUpper ∉ ["AND", "OR", "XOR", "NOT"]

instance (name : String) : Decidable (IsName name) := by
  unfold IsName
  infer_instance

theorem IsName.keyword?_eq_none {name : String} (h : IsName name) :
    Token.Kind.keyword? name.toList = none := by
  have hne : ∀ keyword ∈ ["AND", "OR", "XOR", "NOT"],
      name.toList.map Char.toUpper ≠ keyword.toList := by
    intro keyword hk he
    refine h.2.2 ?_
    have : name.toUpper = keyword := by
      rw [← String.toList_inj, ← he]
      exact String.toList_map
    rwa [this]
  unfold Token.Kind.keyword?
  split <;> simp_all

theorem IsName.ofWord {name : String} (h : IsName name) (position : Position) :
    Token.ofWord name.toList position = .identifier name position := by
  simp [Token.ofWord, h.keyword?_eq_none]

end LogicCalculator
