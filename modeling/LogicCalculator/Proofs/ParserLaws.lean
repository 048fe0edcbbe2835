import LogicCalculator.Expr.Parser

/-!
# Steps of reading

What single steps do to the cursor, the faults and the levels, and one
equation for each way an expression or a chain goes on. A proof about all of
them goes by cases (`operand_case`, `chain_case`). Behind this module none
unfolds `expression` or `chain`.
-/

namespace LogicCalculator.Parser

variable {p : Parser} {t : Token} {ts : List Token} {floor : Priority}

/-- The tokens from the current one on. -/
def tokens (p : Parser) : List Token := p.cursor.current :: p.cursor.upcoming

theorem tokens_ofString (source : String) : (ofString source).tokens = tokenize source :=
  Scanner.current_cons_upcoming_cursor _

theorem current_mem_take_tokens (p : Parser) : p.current ∈ p.tokens.take 2 :=
  List.mem_cons_self ..

theorem lookahead_mem_take_tokens (p : Parser) : p.lookahead ∈ p.tokens.take 2 := by
  unfold tokens lookahead Cursor.lookahead
  cases p.cursor.upcoming <;> simp

-- ---------------------------------------------------------------------------
-- What a step leaves as it was
-- ---------------------------------------------------------------------------

@[simp] theorem errors_advance (p : Parser) : p.advance.errors = p.errors := rfl
@[simp] theorem tooDeep_advance (p : Parser) : p.advance.tooDeep = p.tooDeep := rfl

@[simp] theorem cursor_skip (p : Parser) (t : Token) : (p.skip t).cursor = p.advance.cursor := rfl

@[simp] theorem cursor_descend (p : Parser) : p.descend.cursor = p.cursor := rfl
@[simp] theorem errors_descend (p : Parser) : p.descend.errors = p.errors := rfl
@[simp] theorem tooDeep_descend (p : Parser) : p.descend.tooDeep = p.tooDeep := rfl

@[simp] theorem cursor_enter (p : Parser) : p.enter.cursor = p.cursor := rfl
@[simp] theorem errors_enter (p : Parser) : p.enter.errors = p.errors := rfl
@[simp] theorem tooDeep_enter (p : Parser) : p.enter.tooDeep = p.tooDeep := rfl

@[simp] theorem cursor_leave (p : Parser) (m : Meter) : (p.leave m).cursor = p.cursor := rfl
@[simp] theorem errors_leave (p : Parser) (m : Meter) : (p.leave m).errors = p.errors := rfl
@[simp] theorem tooDeep_leave (p : Parser) (m : Meter) : (p.leave m).tooDeep = p.tooDeep := rfl

theorem errors_foldl_skip (operators : List Token) (p : Parser) :
    (operators.foldl skip p).errors = p.errors := by
  induction operators generalizing p with
  | nil => rfl
  | cons t ts ih => exact ih _

theorem tooDeep_foldl_skip (operators : List Token) (p : Parser) :
    (operators.foldl skip p).tooDeep = p.tooDeep := by
  induction operators generalizing p with
  | nil => rfl
  | cons t ts ih => exact ih _

@[simp] theorem errors_skipOperators (floor : Priority) (p : Parser) :
    (p.skipOperators floor).errors = p.errors := errors_foldl_skip _ p

@[simp] theorem tooDeep_skipOperators (floor : Priority) (p : Parser) :
    (p.skipOperators floor).tooDeep = p.tooDeep := tooDeep_foldl_skip _ p

-- ---------------------------------------------------------------------------
-- What a step takes
-- ---------------------------------------------------------------------------

@[simp] theorem meter_advance (p : Parser) : p.advance.meter = p.meter.pull := rfl
@[simp] theorem meter_skip (p : Parser) (t : Token) : (p.skip t).meter = p.meter.pull := rfl
@[simp] theorem meter_descend (p : Parser) : p.descend.meter = p.meter.descend := rfl
@[simp] theorem meter_enter (p : Parser) : p.enter.meter = p.meter.enter := rfl
@[simp] theorem meter_leave (p : Parser) (m : Meter) : (p.leave m).meter = p.meter.leave m := rfl

@[simp] theorem meter_report (p : Parser) (cause : SyntaxError.Cause) (t : Token) :
    (p.report cause t).meter = p.meter := rfl

@[simp] theorem cursor_report (p : Parser) (cause : SyntaxError.Cause) (t : Token) :
    (p.report cause t).cursor = p.cursor := rfl

@[simp] theorem meter_refuse (p : Parser) : p.refuse.meter = p.meter := by
  unfold refuse
  split <;> rfl

@[simp] theorem cursor_refuse (p : Parser) : p.refuse.cursor = p.cursor := by
  unfold refuse
  split <;> rfl

-- ---------------------------------------------------------------------------
-- Moving on
-- ---------------------------------------------------------------------------

@[simp] theorem current_advance (p : Parser) : p.advance.current = p.lookahead :=
  p.cursor.current_advance

@[simp] theorem current_descend (p : Parser) : p.descend.current = p.current := rfl

theorem lookahead_of_upcoming (h : p.cursor.upcoming = t :: ts) : p.lookahead = t := by
  simp [lookahead, Cursor.lookahead, h]

theorem cursor_advance (h : p.cursor.upcoming = t :: ts) : p.advance.cursor = ⟨t, ts⟩ := by
  simp [advance, Cursor.advance, h]

theorem tokens_advance (h : p.cursor.upcoming = ts) (hne : ts ≠ []) : p.advance.tokens = ts := by
  cases ts with
  | nil => exact absurd rfl hne
  | cons t ts => simp [tokens, cursor_advance h]

theorem ne_lowest_of_bindsAbove (h : t.bindsAbove floor = true) : t.kind.priority ≠ .lowest := by
  intro hk
  have hlt : floor.rank < Priority.lowest.rank := by
    rw [← hk]
    exact of_decide_eq_true h
  cases floor <;> exact absurd hlt (by decide)

theorem kind_ne_endOfInput_of_bindsAbove (h : t.bindsAbove floor = true) :
    t.kind ≠ .endOfInput := by
  intro hk
  exact ne_lowest_of_bindsAbove h (by rw [hk]; rfl)

/-- Operators are skipped one by one, up to a token that does not bind. -/
theorem skipOperators_of_bindsAbove (hts : p.cursor.upcoming = t :: ts)
    (h : t.bindsAbove floor = true) :
    p.skipOperators floor = (p.skip t).skipOperators floor := by
  simp [skipOperators, hts, h, cursor_advance hts]

theorem skipOperators_of_not_bindsAbove (h : p.lookahead.bindsAbove floor = false) :
    p.skipOperators floor = p := by
  unfold skipOperators
  cases hts : p.cursor.upcoming with
  | nil => rfl
  | cons t ts =>
    rw [lookahead_of_upcoming hts] at h
    simp [h]

-- ---------------------------------------------------------------------------
-- One equation for each way to go on
-- ---------------------------------------------------------------------------

/-- Goes on behind an operand, unless it has failed. -/
def extend (levels : Nat) (floor : Priority) : Option Expr × Parser → Option Expr × Parser
  | (none, p) => (none, p)
  | (some left, p) => chain levels floor left p

theorem expression_zero (floor : Priority) (p : Parser) :
    expression 0 floor p = (none, p.refuse) := by
  rw [expression]

theorem expression_succ (levels : Nat) (floor : Priority) (p : Parser) :
    expression (levels + 1) floor p =
      Prod.map id (leave · p.meter)
        (extend levels floor (operand (expression levels) p.enter)) := by
  rw [expression]
  rcases operand (expression levels) p.enter with ⟨_ | left, q⟩ <;> rfl

theorem chain_of_not_bindsAbove {levels : Nat} {left : Expr}
    (h : p.lookahead.bindsAbove floor = false) :
    chain levels floor left p = (some left, p) := by
  cases levels <;> simp [chain, h]

theorem chain_zero_of_bindsAbove {left : Expr} (h : p.lookahead.bindsAbove floor = true) :
    chain 0 floor left p = (none, p.advance.refuse) := by
  simp [chain, h]

theorem operand_of_name {nested : Nested} {name : String} (h : p.current.name? = some name) :
    operand nested p = (some (.var name), p) := by
  simp [operand, h]

theorem name?_eq_none (h : t.kind ≠ .identifier) : t.name? = none := by
  simp [Token.name?, h]

theorem operand_of_not {nested : Nested} (h : p.current.kind = .not) :
    operand nested p = Prod.map (Option.map .not) id (nested .not p.advance) := by
  simp [operand, name?_eq_none (t := p.current) (by simp [h]), h]
  rfl

theorem operand_of_leftParen {nested : Nested} (h : p.current.kind = .leftParen) :
    operand nested p = group nested p := by
  simp [operand, name?_eq_none (t := p.current) (by simp [h]), h]

theorem operand_of_other {nested : Nested} (hname : p.current.name? = none)
    (hnot : p.current.kind ≠ .not) (hparen : p.current.kind ≠ .leftParen) :
    operand nested p = (none, p.report (.unknownExpression p.current.kind) p.current) := by
  rw [operand, hname]
  cases h : p.current.kind <;> simp_all

-- ---------------------------------------------------------------------------
-- Ends of groups, operators and inputs
-- ---------------------------------------------------------------------------

/-- What a closing parenthesis makes of the inside of a group. -/
def close : Option Expr × Parser → Option Expr × Parser
  | (inner, p) =>
    if p.tooDeep then (none, p)
    else if p.lookahead.kind = .rightParen then (inner, p.advance)
    else (none, p.report (.unexpectedToken .rightParen p.lookahead.kind) p.lookahead)

theorem group_eq_close (nested : Nested) (p : Parser) :
    group nested p = close (nested .lowest p.advance) := by
  rcases hr : nested .lowest p.advance with ⟨inner, q⟩
  simp only [group, hr, close, expect]
  by_cases hk : q.lookahead.kind = .rightParen <;> simp [hk]

/-- What an operator makes of the expression before it and the operand behind it. -/
def fold (levels : Nat) (floor : Priority) (operator : BinaryOperator) (left : Expr) :
    Option Expr × Parser → Option Expr × Parser
  | (some right, p) => chain levels floor (.binary operator left right) p
  | (none, p) => (none, p.skipOperators floor)

theorem chain_succ_of_operator {levels : Nat} {left : Expr} {op : BinaryOperator}
    (h : p.lookahead.bindsAbove floor = true)
    (hop : BinaryOperator.ofKind? p.lookahead.kind = some op) :
    chain (levels + 1) floor left p =
      fold levels floor op left
        (expression levels p.lookahead.kind.priority p.advance.descend.advance) := by
  rw [chain]
  simp only [h, current_descend, current_advance, hop, if_true]
  rcases expression levels _ p.advance.descend.advance with ⟨_ | right, q⟩ <;> rfl

theorem chain_succ_of_not_operator {levels : Nat} {left : Expr}
    (h : p.lookahead.bindsAbove floor = true)
    (hop : BinaryOperator.ofKind? p.lookahead.kind = none) :
    chain (levels + 1) floor left p =
      (none, (p.advance.descend.report (.unknownOperator p.lookahead.kind)
        p.lookahead).skipOperators floor) := by
  rw [chain]
  simp only [h, current_descend, current_advance, hop, if_true]

/-- What the end of the input makes of a whole expression. -/
def finish : Option Expr × Parser → Option Expr × Parser
  | (none, p) => (none, p)
  | (some e, p) =>
    if p.lookahead.kind = .endOfInput then (some e, p.advance)
    else (none, p.report (.unexpectedToken .endOfInput p.lookahead.kind) p.lookahead)

theorem parse_eq_finish (p : Parser) : p.parse = finish (expression nestingLimit .lowest p) := by
  rcases hr : expression nestingLimit .lowest p with ⟨_ | e, q⟩
  · simp [parse, hr, finish]
  · by_cases hk : q.lookahead.kind = .endOfInput <;> simp [parse, hr, finish, expect, hk]

theorem finish_fst_eq_some_iff {e : Expr} {r : Option Expr × Parser} :
    (finish r).1 = some e ↔ r.1 = some e ∧ r.2.lookahead.kind = .endOfInput := by
  rcases r with ⟨_ | e', q⟩
  · simp [finish]
  · by_cases hk : q.lookahead.kind = .endOfInput <;> simp [finish, hk]

-- ---------------------------------------------------------------------------
-- All ways to go on
-- ---------------------------------------------------------------------------

/-- What reading an operand gives, by the token that it begins with. -/
inductive OperandCase (nested : Nested) (p : Parser) : Option Expr × Parser → Prop
  | name {name : String} : p.current.name? = some name →
      OperandCase nested p (some (.var name), p)
  | not : p.current.kind = .not →
      OperandCase nested p (Prod.map (Option.map .not) id (nested .not p.advance))
  | group : p.current.kind = .leftParen →
      OperandCase nested p (close (nested .lowest p.advance))
  | other : p.current.name? = none → p.current.kind ≠ .not → p.current.kind ≠ .leftParen →
      OperandCase nested p (none, p.report (.unknownExpression p.current.kind) p.current)

theorem operand_case (nested : Nested) (p : Parser) :
    OperandCase nested p (operand nested p) := by
  cases hname : p.current.name? with
  | some name =>
    rw [operand_of_name hname]
    exact .name hname
  | none =>
    by_cases hnot : p.current.kind = .not
    · rw [operand_of_not hnot]
      exact .not hnot
    · by_cases hparen : p.current.kind = .leftParen
      · rw [operand_of_leftParen hparen, group_eq_close]
        exact .group hparen
      · rw [operand_of_other hname hnot hparen]
        exact .other hname hnot hparen

/-- What going on with a chain gives, by the token behind it and the levels left. -/
inductive ChainCase (floor : Priority) (left : Expr) (p : Parser) :
    Nat → Option Expr × Parser → Prop
  | stop {levels : Nat} : p.lookahead.bindsAbove floor = false →
      ChainCase floor left p levels (some left, p)
  | exhausted : p.lookahead.bindsAbove floor = true →
      ChainCase floor left p 0 (none, p.advance.refuse)
  | unknownOperator {levels : Nat} : p.lookahead.bindsAbove floor = true →
      BinaryOperator.ofKind? p.lookahead.kind = none →
      ChainCase floor left p (levels + 1)
        (none, (p.advance.descend.report (.unknownOperator p.lookahead.kind)
          p.lookahead).skipOperators floor)
  | operator {levels : Nat} {op : BinaryOperator} : p.lookahead.bindsAbove floor = true →
      BinaryOperator.ofKind? p.lookahead.kind = some op →
      ChainCase floor left p (levels + 1) (fold levels floor op left
        (expression levels p.lookahead.kind.priority p.advance.descend.advance))

theorem chain_case (levels : Nat) (floor : Priority) (left : Expr) (p : Parser) :
    ChainCase floor left p levels (chain levels floor left p) := by
  cases hb : p.lookahead.bindsAbove floor with
  | false =>
    rw [chain_of_not_bindsAbove hb]
    exact .stop hb
  | true =>
    cases levels with
    | zero =>
      rw [chain_zero_of_bindsAbove hb]
      exact .exhausted hb
    | succ levels =>
      cases hop : BinaryOperator.ofKind? p.lookahead.kind with
      | none =>
        rw [chain_succ_of_not_operator hb hop]
        exact .unknownOperator hb hop
      | some op =>
        rw [chain_succ_of_operator hb hop]
        exact .operator hb hop

end LogicCalculator.Parser
