import LogicCalculator.Token

/-!
# How tightly tokens bind

A token continues an expression only if it binds tighter than the expression's
floor. Operators of one priority therefore group to the left.
-/

namespace LogicCalculator

/-- The priorities, from the loosest to the tightest. -/
inductive Priority where
  | lowest
  | or
  | xor
  | and
  | not
  | group
deriving DecidableEq, Repr, Inhabited

namespace Priority

def rank : Priority → Nat
  | lowest => 1
  | or => 2
  | xor => 3
  | and => 4
  | not => 5
  | group => 6

instance : LT Priority := ⟨fun a b => a.rank < b.rank⟩

instance (a b : Priority) : Decidable (a < b) := inferInstanceAs (Decidable (a.rank < b.rank))

theorem lt_iff_rank_lt {a b : Priority} : a < b ↔ a.rank < b.rank := Iff.rfl

end Priority

/-- The priority of a kind of token. Kinds that never continue an expression
bind as loosely as nothing at all. -/
def Token.Kind.priority : Kind → Priority
  | or => .or
  | xor => .xor
  | and => .and
  | not => .not
  | leftParen => .group
  | rightParen | identifier | endOfInput | illegal => .lowest

def Token.bindsAbove (floor : Priority) (t : Token) : Bool := decide (floor < t.kind.priority)

end LogicCalculator
