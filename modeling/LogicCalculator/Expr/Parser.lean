import LogicCalculator.Event
import LogicCalculator.Expr
import LogicCalculator.Expr.Priority
import LogicCalculator.Token.Cursor

/-!
# From tokens to expressions

An expression is an operand followed by operators with their right operands, as
far as they bind tighter than the floor. Reading one uses up levels of nesting:
the expression itself takes one, each operator of its chain takes another, and
right operands, groups and operands of `NOT` get what is left. Where no level
is left, reading stops with a single fault. All recursion is on the levels
left, so it ends whatever the tokens are.
-/

namespace LogicCalculator

/-- The levels of nesting that one expression may use. -/
def nestingLimit : Nat := 256

/-- What reading has used: the tokens taken from the text, the levels in use
and the expressions begun but not finished, and the peaks of both. -/
structure Meter where
  pulls : Nat
  depth : Nat
  deepest : Nat
  active : Nat
  mostActive : Nat
deriving DecidableEq, Repr

namespace Meter

def zero : Meter := ⟨0, 0, 0, 0, 0⟩

def pull (m : Meter) : Meter := { m with pulls := m.pulls + 1 }

def descend (m : Meter) : Meter :=
  { m with depth := m.depth + 1, deepest := max m.deepest (m.depth + 1) }

def enter (m : Meter) : Meter :=
  { m.descend with active := m.active + 1, mostActive := max m.mostActive (m.active + 1) }

/-- Ends an expression that began at the reading `outer`; its levels are free
again. -/
def leave (m outer : Meter) : Meter := { m with depth := outer.depth, active := outer.active }

end Meter

/-- A cursor in the tokens with all that has been found out on the way. -/
structure Parser where
  cursor : Cursor
  errors : Array SyntaxError
  /-- Whether the levels of nesting have once run out. -/
  tooDeep : Bool
  log : Array Event
  meter : Meter
deriving DecidableEq, Repr

namespace Parser

/-- A parser that begins at a cursor. The token under the cursor and the one
behind it have been taken from the text. -/
def ofCursor (c : Cursor) : Parser where
  cursor := c
  errors := #[]
  tooDeep := false
  log := (Event.ofToken c.current ++ Event.ofToken c.lookahead).toArray
  meter := Meter.zero.pull.pull

def ofString (source : String) : Parser := ofCursor (Scanner.ofString source).cursor

def current (p : Parser) : Token := p.cursor.current

def lookahead (p : Parser) : Token := p.cursor.lookahead

def advance (p : Parser) : Parser :=
  let cursor := p.cursor.advance
  { p with
    cursor
    log := p.log ++ Event.ofToken cursor.lookahead
    meter := p.meter.pull }

def report (p : Parser) (cause : SyntaxError.Cause) (t : Token) : Parser :=
  let error : SyntaxError := ⟨cause, t.position⟩
  { p with errors := p.errors.push error, log := p.log.push (.syntaxError error) }

/-- Records that the levels have run out, unless that is known already. -/
def refuse (p : Parser) : Parser :=
  if p.tooDeep then p
  else { p.report (.nestingTooDeep nestingLimit) p.current with tooDeep := true }

def descend (p : Parser) : Parser := { p with meter := p.meter.descend }

def enter (p : Parser) : Parser := { p with meter := p.meter.enter }

def leave (p : Parser) (outer : Meter) : Parser := { p with meter := p.meter.leave outer }

-- ---------------------------------------------------------------------------
-- Single steps
-- ---------------------------------------------------------------------------

/-- Moves past the token behind the current one if it has the kind, and
otherwise records a fault there. -/
def expect (p : Parser) (kind : Token.Kind) : Bool × Parser :=
  if p.lookahead.kind = kind then (true, p.advance)
  else (false, p.report (.unexpectedToken kind p.lookahead.kind) p.lookahead)

def skip (p : Parser) (operator : Token) : Parser :=
  { p.advance with log := p.advance.log.push (.skippedOperator operator.kind) }

/-- Moves past the tokens that would continue a failed expression. -/
def skipOperators (floor : Priority) (p : Parser) : Parser :=
  (p.cursor.upcoming.takeWhile (Token.bindsAbove floor)).foldl skip p

-- ---------------------------------------------------------------------------
-- Reading
-- ---------------------------------------------------------------------------

/-- How a nested expression is read, by the floor of its operators. -/
abbrev Nested := Priority → Parser → Option Expr × Parser

/-- Reads a group from its opening parenthesis to its closing one. -/
def group (nested : Nested) (p : Parser) : Option Expr × Parser :=
  let (inner, p) := nested .lowest p.advance
  -- an unclosed group is reported even if its inside has failed, but not once
  -- the levels have run out
  if p.tooDeep then (none, p)
  else
    match p.expect .rightParen with
    | (true, p) => (inner, p)
    | (false, p) => (none, p)

def operand (nested : Nested) (p : Parser) : Option Expr × Parser :=
  match p.current.name? with
  | some name => (some (.var name), p)
  | none =>
    match p.current.kind with
    | .not =>
      let (inner, p) := nested .not p.advance
      (inner.map .not, p)
    | .leftParen => group nested p
    | found => (none, p.report (.unknownExpression found) p.current)

mutual

/-- Reads an expression whose operators all bind tighter than the floor. The
levels that it takes are free again when it ends. -/
def expression : Nat → Nested
  | 0, _, p => (none, p.refuse)
  | levels + 1, floor, p =>
    let outer := p.meter
    let (result, q) :=
      match operand (expression levels) p.enter with
      | (none, q) => (none, q)
      | (some left, q) => chain levels floor left q
    (result, q.leave outer)

/-- Extends the expression read so far by the operators that bind tighter than
the floor. -/
def chain : Nat → Priority → Expr → Parser → Option Expr × Parser
  -- the operator is passed before its level is missed
  | 0, floor, left, p =>
    if p.lookahead.bindsAbove floor then (none, p.advance.refuse) else (some left, p)
  | levels + 1, floor, left, p =>
    if p.lookahead.bindsAbove floor then
      let q := p.advance.descend
      match BinaryOperator.ofKind? q.current.kind with
      | none =>
        (none, (q.report (.unknownOperator q.current.kind) q.current).skipOperators floor)
      | some operator =>
        match expression levels q.current.kind.priority q.advance with
        | (some right, q) => chain levels floor (.binary operator left right) q
        -- the rest of the chain is skipped, so that the caller goes on behind it
        | (none, q) => (none, q.skipOperators floor)
    else (some left, p)

end

/-- Reads one whole input: an expression and the end of the input behind it. -/
def parse (p : Parser) : Option Expr × Parser :=
  match expression nestingLimit .lowest p with
  | (none, p) => (none, p)
  | (some e, p) =>
    match p.expect .endOfInput with
    | (true, p) => (some e, p)
    | (false, p) => (none, p)

/-- What `n` readings in a row give, each going on where the one before it
stopped: the tree if there is one, and the parser afterwards. -/
def session : Nat → Parser → List (Option Expr × Parser)
  | 0, _ => []
  | n + 1, p => p.parse :: session n p.parse.2

end Parser

def Expr.ofString (source : String) : Except (List SyntaxError) Expr :=
  match (Parser.ofString source).parse with
  | (some e, _) => .ok e
  | (none, p) => .error p.errors.toList

end LogicCalculator
