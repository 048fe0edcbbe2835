import LogicCalculator.Expr
import LogicCalculator.Expr.Priority

/-!
# The grammar of expressions

An expression is an OR-chain of XOR-chains of AND-chains of terms, and every
chain groups to the left. A phrase is the tree of a derivation: unlike an
expression it keeps its parentheses. Its levels are what its tokens take of
the nesting budget.
-/

namespace LogicCalculator

inductive Phrase where
  | ident (name : String)
  | not (operand : Phrase)
  | group (body : Phrase)
  | binary (operator : BinaryOperator) (left right : Phrase)
deriving DecidableEq, Repr

inductive Stratum where
  | chain (operator : BinaryOperator)
  | term
deriving DecidableEq, Repr

abbrev Stratum.expression : Stratum := .chain .or

def BinaryOperator.operands : BinaryOperator → Stratum
  | or => .chain .xor
  | xor => .chain .and
  | and => .term

/-- `Derives s w c`: the tokens `w` are a phrase of the stratum `s`, with the
concrete tree `c`. -/
inductive Derives : Stratum → List Token → Phrase → Prop
  | ident {t : Token} {name : String} : t.name? = some name → Derives .term [t] (.ident name)
  | not {t : Token} {w : List Token} {c : Phrase} :
      t.kind = .not → Derives .term w c → Derives .term (t :: w) (.not c)
  | group {t u : Token} {w : List Token} {c : Phrase} :
      t.kind = .leftParen → Derives .expression w c → u.kind = .rightParen →
      Derives .term (t :: (w ++ [u])) (.group c)
  | single {op : BinaryOperator} {w : List Token} {c : Phrase} :
      Derives op.operands w c → Derives (.chain op) w c
  | chain {op : BinaryOperator} {t : Token} {v w : List Token} {l r : Phrase} :
      Derives (.chain op) v l → BinaryOperator.ofKind? t.kind = some op →
      Derives op.operands w r → Derives (.chain op) (v ++ t :: w) (.binary op l r)

-- ---------------------------------------------------------------------------
-- Levels
-- ---------------------------------------------------------------------------

namespace Phrase

def erase : Phrase → Expr
  | ident name => .var name
  | not operand => .not operand.erase
  | group body => body.erase
  | binary operator left right => .binary operator left.erase right.erase

/-- The number of operators on the left spine, down to the first term. -/
def spine : Phrase → Nat
  | binary _ left _ => left.spine + 1
  | _ => 0

/-- The levels of a phrase that is entered with a base. Its first token takes
the level behind the base, and the operators of its spine the levels behind
that one, from left to right. -/
def levels (base : Nat) : Phrase → List Nat
  | ident _ => [base + 1]
  | not operand => (base + 1) :: operand.levels (base + 1)
  | group body => (base + 1) :: body.levels (base + 1)
  | binary _ left right =>
    let operator := base + 1 + (left.spine + 1)
    left.levels base ++ operator :: right.levels operator

/-- How many levels a phrase takes. -/
def demand : Phrase → Nat
  | ident _ => 1
  | not operand => operand.demand + 1
  | group body => body.demand + 1
  | binary _ left right => max left.demand (left.spine + 2 + right.demand)

theorem demand_pos (c : Phrase) : 0 < c.demand := by
  induction c with
  | ident | not | group => simp [demand]
  | binary op l r ihl _ => exact Nat.lt_of_lt_of_le ihl (Nat.le_max_left ..)

theorem forall_levels_le_iff {c : Phrase} {base n : Nat} :
    (∀ level ∈ c.levels base, level ≤ n) ↔ base + c.demand ≤ n := by
  induction c generalizing base with
  | ident name => simp [levels, demand]
  | not c ih | group c ih =>
    have := c.demand_pos
    simp only [levels, demand, List.forall_mem_cons, ih]
    omega
  | binary op l r ihl ihr =>
    have := r.demand_pos
    simp only [levels, demand, List.forall_mem_append, List.forall_mem_cons, ihl, ihr]
    omega

end Phrase

-- ---------------------------------------------------------------------------
-- Strata by how tightly they bind
-- ---------------------------------------------------------------------------

def BinaryOperator.priority : BinaryOperator → Priority
  | or => .or
  | xor => .xor
  | and => .and

def Stratum.rank : Stratum → Nat
  | chain op => op.priority.rank
  | term => Priority.not.rank

/-- All operators of the stratum's chains bind tighter than the floor. -/
def Stratum.Above (floor : Priority) : Stratum → Prop
  | chain op => floor < op.priority
  | term => True

instance (floor : Priority) (s : Stratum) : Decidable (s.Above floor) := by
  cases s <;> unfold Stratum.Above <;> infer_instance

theorem priority_of_ofKind? {kind : Token.Kind} {op : BinaryOperator}
    (h : BinaryOperator.ofKind? kind = some op) : kind.priority = op.priority := by
  cases kind <;> simp [BinaryOperator.ofKind?] at h <;> subst h <;> rfl

theorem BinaryOperator.rank_operands (op : BinaryOperator) :
    op.operands.rank = op.priority.rank + 1 := by
  cases op <;> rfl

theorem BinaryOperator.operands_above (op : BinaryOperator) :
    op.operands.Above op.priority := by
  cases op <;> decide

theorem Stratum.rank_le_term (s : Stratum) : s.rank ≤ term.rank := by
  rcases s with ⟨_ | _ | _⟩ | _ <;> decide

theorem Stratum.rank_expression_le (s : Stratum) : expression.rank ≤ s.rank := by
  rcases s with ⟨_ | _ | _⟩ | _ <;> decide

theorem Stratum.rank_injective {s s' : Stratum} (h : s.rank = s'.rank) : s = s' := by
  revert h
  rcases s with ⟨_ | _ | _⟩ | _ <;> rcases s' with ⟨_ | _ | _⟩ | _ <;> decide

theorem Stratum.Above.operands {floor : Priority} {op : BinaryOperator}
    (h : (Stratum.chain op).Above floor) : op.operands.Above floor := by
  have hr := op.rank_operands
  cases hs : op.operands with
  | term => trivial
  | chain inner =>
    rw [hs] at hr
    exact Nat.lt_trans h (by simp only [rank] at hr; omega)

theorem Stratum.Above.rank_operands_le {op : BinaryOperator} {s : Stratum}
    (h : s.Above op.priority) : op.operands.rank ≤ s.rank := by
  cases s with
  | term => exact op.operands.rank_le_term
  | chain inner => rw [op.rank_operands]; exact h

theorem Stratum.Above.eq_term {s : Stratum} (h : s.Above .not) : s = .term := by
  cases s with
  | term => rfl
  | chain op => exact absurd h (by cases op <;> decide)

-- ---------------------------------------------------------------------------
-- Derivations
-- ---------------------------------------------------------------------------

variable {w : List Token} {c : Phrase}

/-- A phrase of a stratum is one of every looser stratum. -/
theorem Derives.widen {s s' : Stratum} (d : Derives s w c) (h : s'.rank ≤ s.rank) :
    Derives s' w c := by
  -- one stratum at a time, from the looser one down
  obtain ⟨n, hn⟩ := Nat.exists_eq_add_of_le h
  clear h
  induction n generalizing s' with
  | zero => rwa [← Stratum.rank_injective hn]
  | succ n ih =>
    cases s' with
    | term =>
      have := s.rank_le_term
      omega
    | chain op =>
      refine .single (ih ?_)
      rw [hn, op.rank_operands, Stratum.rank]
      omega

theorem Derives.spine_eq_zero (d : Derives .term w c) : c.spine = 0 := by
  cases d <;> rfl

theorem Token.kind_of_name? {t : Token} {name : String} (h : t.name? = some name) :
    t.kind = .identifier := by
  simp only [Token.name?] at h
  split at h
  · assumption
  · cases h

theorem Derives.not_endOfInput {s : Stratum} (d : Derives s w c) :
    ∀ t ∈ w, t.kind ≠ .endOfInput := by
  induction d with
  | ident h => simp [Token.kind_of_name? h]
  | not h _ ih => simpa [h] using ih
  | group h _ h' ih =>
    simp only [List.forall_mem_cons, List.forall_mem_append]
    exact ⟨by simp [h], ih, by simp [h']⟩
  | single _ ih => exact ih
  | @chain op t _ _ _ _ _ h _ ihl ihr =>
    have : t.kind ≠ .endOfInput := fun e => by simp [e, BinaryOperator.ofKind?] at h
    simp only [List.forall_mem_append, List.forall_mem_cons]
    exact ⟨ihl, this, ihr⟩

end LogicCalculator
