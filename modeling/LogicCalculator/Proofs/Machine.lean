import LogicCalculator.Proofs.ParserLaws

/-!
# Reading without recursion

Reading can be done in small steps. The expressions that have begun stand on a
stack, each with its reason to wait for the one nested in it, and whether a
level is left is told by the meter and not by a recursion. Every step before the
end follows one rule (`Reading.isDone_or_rule_step`). What all rules preserve
therefore holds at each moment of a reading.
-/

namespace LogicCalculator

/-- An expression that has begun: the floor of its operators, and what was in
use before it. -/
structure Activation where
  floor : Priority
  outer : Meter

/-- What an expression does with the one that is nested in it. -/
inductive Purpose where
  | not
  | group
  | operator (operator : BinaryOperator) (left : Expr)

/-- The expressions that wait for a nested one, the innermost first. -/
abbrev Stack := List (Purpose × Activation)

/-- What happens next. An expression is to begin, or the innermost one reads its
operand, goes on behind the tree that it has read, or skips operators because it
has failed. Or an expression has ended, or the whole reading. -/
inductive Phase where
  | enter (floor : Priority)
  | operand (a : Activation)
  | chain (a : Activation) (left : Expr)
  | skip (a : Activation)
  | ended (result : Option Expr)
  | done (result : Option Expr)

/-- A reading on its way. -/
structure Reading where
  phase : Phase
  waiting : Stack
  parser : Parser

namespace Reading

def start (p : Parser) : Reading := ⟨.enter .lowest, [], p⟩

def ofResult (r : Option Expr × Parser) : Reading := ⟨.done r.1, [], r.2⟩

/-- The end of an expression, whose levels are free again. -/
def leave (a : Activation) (waiting : Stack) (r : Option Expr × Parser) : Reading :=
  ⟨.ended r.1, waiting, r.2.leave a.outer⟩

/-- Goes on behind an operand, unless it has failed. -/
def resume (a : Activation) (waiting : Stack) : Option Expr × Parser → Reading
  | (some left, p) => ⟨.chain a left, waiting, p⟩
  | (none, p) => leave a waiting (none, p)

def step : Reading → Reading
  | ⟨.enter floor, waiting, p⟩ =>
    if p.meter.depth < nestingLimit then ⟨.operand ⟨floor, p.meter⟩, waiting, p.enter⟩
    else ⟨.ended none, waiting, p.refuse⟩
  | ⟨.operand a, waiting, p⟩ =>
    match p.current.name? with
    | some name => ⟨.chain a (.var name), waiting, p⟩
    | none =>
      match p.current.kind with
      | .not => ⟨.enter .not, (.not, a) :: waiting, p.advance⟩
      | .leftParen => ⟨.enter .lowest, (.group, a) :: waiting, p.advance⟩
      | found => leave a waiting (none, p.report (.unknownExpression found) p.current)
  | ⟨.chain a left, waiting, p⟩ =>
    if p.lookahead.bindsAbove a.floor then
      let p := p.advance
      if p.meter.depth < nestingLimit then
        let p := p.descend
        match BinaryOperator.ofKind? p.current.kind with
        | some operator =>
          ⟨.enter p.current.kind.priority, (.operator operator left, a) :: waiting, p.advance⟩
        | none => ⟨.skip a, waiting, p.report (.unknownOperator p.current.kind) p.current⟩
      else leave a waiting (none, p.refuse)
    else leave a waiting (some left, p)
  | ⟨.skip a, waiting, p⟩ =>
    if p.lookahead.bindsAbove a.floor then ⟨.skip a, waiting, p.skip p.lookahead⟩
    else leave a waiting (none, p)
  | ⟨.ended result, [], p⟩ => ofResult (Parser.finish (result, p))
  | ⟨.ended result, (.not, a) :: waiting, p⟩ => resume a waiting (result.map .not, p)
  | ⟨.ended result, (.group, a) :: waiting, p⟩ => resume a waiting (Parser.close (result, p))
  | ⟨.ended (some right), (.operator operator left, a) :: waiting, p⟩ =>
    ⟨.chain a (.binary operator left right), waiting, p⟩
  | ⟨.ended none, (.operator .., a) :: waiting, p⟩ => ⟨.skip a, waiting, p⟩
  | ⟨.done result, waiting, p⟩ => ⟨.done result, waiting, p⟩

-- ---------------------------------------------------------------------------
-- What a step can do
-- ---------------------------------------------------------------------------

/-- The steps before the end, each under the condition that it is taken. -/
inductive Rule : Reading → Reading → Prop
  | enter {floor : Priority} {waiting : Stack} {p : Parser} : p.meter.depth < nestingLimit →
      Rule ⟨.enter floor, waiting, p⟩ ⟨.operand ⟨floor, p.meter⟩, waiting, p.enter⟩
  | refuse {floor : Priority} {waiting : Stack} {p : Parser} : ¬ p.meter.depth < nestingLimit →
      Rule ⟨.enter floor, waiting, p⟩ ⟨.ended none, waiting, p.refuse⟩
  | name {a : Activation} {waiting : Stack} {p : Parser} {name : String} :
      p.current.name? = some name →
      Rule ⟨.operand a, waiting, p⟩ ⟨.chain a (.var name), waiting, p⟩
  | not {a : Activation} {waiting : Stack} {p : Parser} : p.current.kind = .not →
      Rule ⟨.operand a, waiting, p⟩ ⟨.enter .not, (.not, a) :: waiting, p.advance⟩
  | group {a : Activation} {waiting : Stack} {p : Parser} : p.current.kind = .leftParen →
      Rule ⟨.operand a, waiting, p⟩ ⟨.enter .lowest, (.group, a) :: waiting, p.advance⟩
  | unknownExpression {a : Activation} {waiting : Stack} {p : Parser} :
      p.current.name? = none → p.current.kind ≠ .not → p.current.kind ≠ .leftParen →
      Rule ⟨.operand a, waiting, p⟩
        (leave a waiting (none, p.report (.unknownExpression p.current.kind) p.current))
  | stop {a : Activation} {left : Expr} {waiting : Stack} {p : Parser} :
      p.lookahead.bindsAbove a.floor = false →
      Rule ⟨.chain a left, waiting, p⟩ (leave a waiting (some left, p))
  | exhausted {a : Activation} {left : Expr} {waiting : Stack} {p : Parser} :
      p.lookahead.bindsAbove a.floor = true → ¬ p.meter.depth < nestingLimit →
      Rule ⟨.chain a left, waiting, p⟩ (leave a waiting (none, p.advance.refuse))
  | operator {a : Activation} {left : Expr} {waiting : Stack} {p : Parser} {op : BinaryOperator} :
      p.lookahead.bindsAbove a.floor = true → p.meter.depth < nestingLimit →
      BinaryOperator.ofKind? p.lookahead.kind = some op →
      Rule ⟨.chain a left, waiting, p⟩ ⟨.enter p.lookahead.kind.priority,
        (.operator op left, a) :: waiting, p.advance.descend.advance⟩
  | unknownOperator {a : Activation} {left : Expr} {waiting : Stack} {p : Parser} :
      p.lookahead.bindsAbove a.floor = true → p.meter.depth < nestingLimit →
      BinaryOperator.ofKind? p.lookahead.kind = none →
      Rule ⟨.chain a left, waiting, p⟩ ⟨.skip a, waiting,
        p.advance.descend.report (.unknownOperator p.lookahead.kind) p.lookahead⟩
  | skip {a : Activation} {waiting : Stack} {p : Parser} :
      p.lookahead.bindsAbove a.floor = true →
      Rule ⟨.skip a, waiting, p⟩ ⟨.skip a, waiting, p.skip p.lookahead⟩
  | skipped {a : Activation} {waiting : Stack} {p : Parser} :
      p.lookahead.bindsAbove a.floor = false →
      Rule ⟨.skip a, waiting, p⟩ (leave a waiting (none, p))
  | finish {result : Option Expr} {p : Parser} :
      Rule ⟨.ended result, [], p⟩ (ofResult (Parser.finish (result, p)))
  | negate {result : Option Expr} {a : Activation} {waiting : Stack} {p : Parser} :
      Rule ⟨.ended result, (.not, a) :: waiting, p⟩ (resume a waiting (result.map .not, p))
  | close {result : Option Expr} {a : Activation} {waiting : Stack} {p : Parser} :
      Rule ⟨.ended result, (.group, a) :: waiting, p⟩
        (resume a waiting (Parser.close (result, p)))
  | combine {right left : Expr} {op : BinaryOperator} {a : Activation} {waiting : Stack}
      {p : Parser} :
      Rule ⟨.ended (some right), (.operator op left, a) :: waiting, p⟩
        ⟨.chain a (.binary op left right), waiting, p⟩
  | fail {left : Expr} {op : BinaryOperator} {a : Activation} {waiting : Stack} {p : Parser} :
      Rule ⟨.ended none, (.operator op left, a) :: waiting, p⟩ ⟨.skip a, waiting, p⟩

def IsDone (r : Reading) : Prop := ∃ result, r.phase = .done result

variable {r r' : Reading}

theorem IsDone.step_eq (h : r.IsDone) : r.step = r := by
  obtain ⟨result, h⟩ := h
  obtain ⟨phase, waiting, p⟩ := r
  obtain rfl := h
  rfl

theorem Rule.step_eq (h : Rule r r') : r.step = r' := by
  cases h with
  | enter hd => simp [step, hd]
  | refuse hd => simp [step, hd]
  | name hname => simp [step, hname]
  | @not a waiting p hk | @group a waiting p hk =>
    have hname : p.current.name? = none := Parser.name?_eq_none (by simp [hk])
    simp [step, hname, hk]
  | @unknownExpression a waiting p hname hnot hparen =>
    rw [step, hname]
    cases hk : p.current.kind <;> simp_all
  | stop hb => simp [step, hb]
  | exhausted hb hd => simp [step, hb, hd, Meter.pull]
  | operator hb hd hop => simp [step, hb, hd, hop, Meter.pull]
  | unknownOperator hb hd hop => simp [step, hb, hd, hop, Meter.pull]
  | skip hb => simp [step, hb]
  | skipped hb => simp [step, hb]
  | finish => rfl
  | negate => rfl
  | close => rfl
  | combine => rfl
  | fail => rfl

/-- A step follows a rule, unless the reading is done. -/
theorem isDone_or_rule_step (r : Reading) : r.IsDone ∨ Rule r r.step := by
  suffices r.IsDone ∨ ∃ r', Rule r r' by
    obtain h | ⟨r', h⟩ := this
    · exact .inl h
    · exact .inr (h.step_eq ▸ h)
  obtain ⟨phase, waiting, p⟩ := r
  cases phase with
  | enter floor =>
    by_cases hd : p.meter.depth < nestingLimit
    · exact .inr ⟨_, .enter hd⟩
    · exact .inr ⟨_, .refuse hd⟩
  | operand a =>
    cases hname : p.current.name? with
    | some name => exact .inr ⟨_, .name hname⟩
    | none =>
      by_cases hnot : p.current.kind = .not
      · exact .inr ⟨_, .not hnot⟩
      · by_cases hparen : p.current.kind = .leftParen
        · exact .inr ⟨_, .group hparen⟩
        · exact .inr ⟨_, .unknownExpression hname hnot hparen⟩
  | chain a left =>
    cases hb : p.lookahead.bindsAbove a.floor with
    | false => exact .inr ⟨_, .stop hb⟩
    | true =>
      by_cases hd : p.meter.depth < nestingLimit
      · cases hop : BinaryOperator.ofKind? p.lookahead.kind with
        | some op => exact .inr ⟨_, .operator hb hd hop⟩
        | none => exact .inr ⟨_, .unknownOperator hb hd hop⟩
      · exact .inr ⟨_, .exhausted hb hd⟩
  | skip a =>
    cases hb : p.lookahead.bindsAbove a.floor with
    | true => exact .inr ⟨_, .skip hb⟩
    | false => exact .inr ⟨_, .skipped hb⟩
  | ended result =>
    rcases waiting with _ | ⟨⟨_ | _ | ⟨op, left⟩, a⟩, waiting⟩
    · exact .inr ⟨_, .finish⟩
    · exact .inr ⟨_, .negate⟩
    · exact .inr ⟨_, .close⟩
    · cases result with
      | some right => exact .inr ⟨_, .combine⟩
      | none => exact .inr ⟨_, .fail⟩
  | done result => exact .inl ⟨result, rfl⟩

end Reading
end LogicCalculator
