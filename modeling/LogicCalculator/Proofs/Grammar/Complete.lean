import LogicCalculator.Proofs.Grammar
import LogicCalculator.Proofs.ParserLaws

/-!
# Every phrase is read

Whatever stands before a phrase and behind it, reading the phrase gives its
tree if it takes no more levels than are left, and otherwise no tree and the
one fault that the levels have run out (`Derives.read`). A chain is read from
its leftmost term on, so the induction on the derivation speaks of what
remains to be done behind a left operand (`Extends`).
-/

namespace LogicCalculator

namespace Parser

/-- `q` stands in front of `rest` and knows of the same faults as `p`. -/
structure ReadsTo (p q : Parser) (rest : List Token) : Prop where
  upcoming : q.cursor.upcoming = rest
  errors : q.errors = p.errors
  tooDeep : q.tooDeep = p.tooDeep

/-- The one fault that `q` has in addition is that the levels have run out. -/
structure Exhausts (p q : Parser) : Prop where
  tooDeep : q.tooDeep = true
  errors : ∃ position, q.errors = p.errors.push ⟨.nestingTooDeep nestingLimit, position⟩

/-- What reading a phrase ends with, by whether the levels suffice. -/
inductive Outcome (fits : Prop) (e : Expr) (rest : List Token) (p : Parser) :
    Option Expr × Parser → Prop
  | read {q : Parser} : fits → p.ReadsTo q rest → Outcome fits e rest p (some e, q)
  | exhausted {q : Parser} : ¬ fits → p.Exhausts q → Outcome fits e rest p (none, q)

theorem exhausts_refuse {p q : Parser} (he : q.errors = p.errors) (hd : q.tooDeep = false) :
    p.Exhausts q.refuse := by
  simp only [refuse, hd, Bool.false_eq_true, if_false]
  exact ⟨rfl, _, by rw [← he]; rfl⟩

section
variable {fits fits' : Prop} {e : Expr} {rest : List Token} {p p' q : Parser}
  {r : Option Expr × Parser}

theorem Outcome.of_start (h : Outcome fits' e rest p' r) (hf : fits' ↔ fits)
    (he : p'.errors = p.errors) (hd : p'.tooDeep = p.tooDeep) : Outcome fits e rest p r := by
  cases h with
  | read h hq => exact .read (hf.mp h) ⟨hq.upcoming, hq.errors.trans he, hq.tooDeep.trans hd⟩
  | exhausted h hq => exact .exhausted (mt hf.mpr h) ⟨hq.tooDeep, by rw [← he]; exact hq.errors⟩

theorem Outcome.leave (h : Outcome fits e rest p r) (m : Meter) :
    Outcome fits e rest p (Prod.map id (Parser.leave · m) r) := by
  cases h with
  | read h hq => exact .read h ⟨hq.upcoming, hq.errors, hq.tooDeep⟩
  | exhausted h hq => exact .exhausted h ⟨hq.tooDeep, hq.errors⟩

theorem Outcome.not (h : Outcome fits e rest p r) :
    Outcome fits (.not e) rest p (Prod.map (Option.map .not) id r) := by
  cases h with
  | read h hq => exact .read h hq
  | exhausted h hq => exact .exhausted h hq

theorem Outcome.close {t : Token} (h : Outcome fits e (t :: rest) p r)
    (hp : p.tooDeep = false) (ht : t.kind = .rightParen) :
    Outcome fits e rest p (Parser.close r) := by
  cases h with
  | @read q h hq =>
    have hk : q.lookahead.kind = .rightParen := by rw [lookahead_of_upcoming hq.upcoming, ht]
    simp only [Parser.close, hq.tooDeep, hp, hk, Bool.false_eq_true, if_false, if_true]
    exact .read h ⟨by rw [cursor_advance hq.upcoming], hq.errors, hq.tooDeep⟩
  | exhausted h hq =>
    simp only [Parser.close, hq.tooDeep, if_true]
    exact .exhausted h hq

end

-- ---------------------------------------------------------------------------
-- One way to build a phrase after the other
-- ---------------------------------------------------------------------------

/-- Reading the tokens `w` as the leftmost phrase of an expression comes down
to going on behind the tree of `c`. -/
def Extends (s : Stratum) (w : List Token) (c : Phrase) : Prop :=
  ∀ (levels : Nat) (floor : Priority) (p : Parser) (next : Token) (rest : List Token),
    p.tokens = w ++ next :: rest → p.tooDeep = false → s.Above floor →
    next.kind.priority.rank ≤ s.rank →
    ∃ r, Outcome (c.demand ≤ levels + 1) c.erase (next :: rest) p r ∧
      extend levels floor (operand (expression levels) p) = extend (levels - c.spine) floor r

section
variable {s : Stratum} {w : List Token} {c : Phrase} {p : Parser}
  {t next : Token} {rest : List Token}

theorem bindsAbove_eq_false {floor : Priority} (h : t.kind.priority.rank ≤ floor.rank) :
    t.bindsAbove floor = false := by
  simpa [Token.bindsAbove, Priority.lt_iff_rank_lt] using h

/-- A phrase with nothing behind it that its expression would go on with. -/
theorem Extends.expression (h : Extends s w c) (levels : Nat) (floor : Priority)
    (hp : p.tokens = w ++ next :: rest) (hd : p.tooDeep = false) (hs : s.Above floor)
    (hn : next.kind.priority.rank ≤ s.rank) (hstop : next.kind.priority.rank ≤ floor.rank) :
    Outcome (c.demand ≤ levels) c.erase (next :: rest) p (expression levels floor p) := by
  cases levels with
  | zero =>
    rw [expression_zero]
    have := c.demand_pos
    exact .exhausted (by omega) (exhausts_refuse rfl hd)
  | succ levels =>
    obtain ⟨r, hr, he⟩ := h levels floor p.enter next rest hp hd hs hn
    rw [expression_succ, he]
    have hr : Outcome (c.demand ≤ levels + 1) c.erase (next :: rest) p r :=
      hr.of_start Iff.rfl rfl rfl
    cases hr with
    | exhausted h hq => exact (Outcome.exhausted h hq).leave _
    | @read q h hq =>
      have hb : q.lookahead.bindsAbove floor = false := by
        rw [lookahead_of_upcoming hq.upcoming]
        exact bindsAbove_eq_false hstop
      rw [extend, chain_of_not_bindsAbove hb]
      exact (Outcome.read h hq).leave _

theorem extends_ident {name : String} (h : t.name? = some name) :
    Extends .term [t] (.ident name) := by
  intro levels floor p next rest hp _ _ _
  obtain ⟨hc, hu⟩ := List.cons.inj hp
  refine ⟨_, .read ?_ ⟨hu, rfl, rfl⟩, ?_⟩
  · simp [Phrase.demand]
  · rw [operand_of_name (p := p) (by rw [← h, ← hc]; rfl)]
    rfl

theorem extends_not (ht : t.kind = .not) (h : Extends .term w c) :
    Extends .term (t :: w) (.not c) := by
  intro levels floor p next rest hp hd _ hn
  obtain ⟨hc, hu⟩ := List.cons.inj hp
  have ha : p.advance.tokens = w ++ next :: rest := tokens_advance hu (by simp)
  have hr := h.expression levels .not ha hd trivial hn hn
  refine ⟨_, hr.not.of_start ?_ rfl rfl, ?_⟩
  · simp [Phrase.demand]
  · rw [operand_of_not (p := p) (by rw [← ht, ← hc]; rfl)]
    rfl

theorem extends_group {u : Token} (ht : t.kind = .leftParen) (h : Extends .expression w c)
    (hu : u.kind = .rightParen) : Extends .term (t :: (w ++ [u])) (.group c) := by
  intro levels floor p next rest hp hd _ _
  obtain ⟨hc, hup⟩ := List.cons.inj hp
  have ha : p.advance.tokens = w ++ u :: next :: rest := by
    rw [tokens_advance hup] <;> simp
  have hr := h.expression levels .lowest ha hd (by decide) (by rw [hu]; decide)
    (by rw [hu]; decide)
  refine ⟨_, (hr.close hd hu).of_start ?_ rfl rfl, ?_⟩
  · simp [Phrase.demand]
  · rw [operand_of_leftParen (p := p) (by rw [← ht, ← hc]; rfl), group_eq_close]
    rfl

/-- An operator takes the next level, and its right operand what is left behind
that one. -/
theorem operator_outcome {op : BinaryOperator} {r : Phrase} {floor : Priority}
    (ht : BinaryOperator.ofKind? t.kind = some op) (hr : Extends op.operands w r)
    (hu : p.cursor.upcoming = t :: (w ++ next :: rest)) (hd : p.tooDeep = false)
    (hs : floor < op.priority) (hn : next.kind.priority.rank ≤ op.priority.rank)
    (levels : Nat) (left : Expr) :
    ∃ y, Outcome (r.demand + 1 ≤ levels) (.binary op left r.erase) (next :: rest) p y ∧
      chain levels floor left p = extend (levels - 1) floor y := by
  have hla : p.lookahead = t := lookahead_of_upcoming hu
  have hprio : t.kind.priority = op.priority := priority_of_ofKind? ht
  have hb : p.lookahead.bindsAbove floor = true := by
    rw [hla, Token.bindsAbove, hprio]
    exact decide_eq_true hs
  cases levels with
  | zero =>
    rw [chain_zero_of_bindsAbove hb]
    have hrefuse : p.Exhausts p.advance.refuse := exhausts_refuse rfl hd
    exact ⟨_, .exhausted (Nat.not_succ_le_zero _) hrefuse, rfl⟩
  | succ k =>
    rw [chain_succ_of_operator hb (by rw [hla, ht]), hla, hprio]
    have ha : p.advance.descend.advance.tokens = w ++ next :: rest :=
      tokens_advance (by rw [cursor_descend, cursor_advance hu]) (by simp)
    have hy := hr.expression k op.priority ha hd op.operands_above
      (Nat.le_trans hn (by rw [op.rank_operands]; exact Nat.le_succ _)) hn
    generalize expression k op.priority p.advance.descend.advance = y at hy
    cases hy with
    | read h hq =>
      exact ⟨_, .read (Nat.succ_le_succ h) ⟨hq.upcoming, hq.errors, hq.tooDeep⟩, rfl⟩
    | @exhausted q h hq =>
      -- skipping the rest of the chain adds no fault
      refine ⟨(none, q.skipOperators floor), .exhausted (mt Nat.le_of_succ_le_succ h) ⟨?_, ?_⟩, rfl⟩
      · rw [tooDeep_skipOperators, hq.tooDeep]
      · rw [errors_skipOperators]
        exact hq.errors

theorem extends_chain {op : BinaryOperator} {v : List Token} {l r : Phrase}
    (hl : Extends (.chain op) v l) (ht : BinaryOperator.ofKind? t.kind = some op)
    (hr : Extends op.operands w r) : Extends (.chain op) (v ++ t :: w) (.binary op l r) := by
  intro levels floor p next rest hp hd hs hn
  have hprio : t.kind.priority = op.priority := priority_of_ofKind? ht
  obtain ⟨x, hx, he⟩ := hl levels floor p t (w ++ next :: rest) (by simpa using hp) hd hs
    (by rw [hprio]; exact Nat.le_refl _)
  rw [he]
  cases hx with
  | exhausted h hq =>
    -- a left operand that takes too many levels ends the chain
    refine ⟨_, .exhausted ?_ hq, rfl⟩
    simp only [Phrase.demand]
    omega
  | @read q h hq =>
    obtain ⟨y, hy, hchain⟩ := operator_outcome ht hr hq.upcoming (hq.tooDeep.trans hd) hs hn
      (levels - l.spine) l.erase
    have hfits : r.demand + 1 ≤ levels - l.spine ↔ (Phrase.binary op l r).demand ≤ levels + 1 := by
      simp only [Phrase.demand]
      omega
    refine ⟨y, hy.of_start hfits hq.errors hq.tooDeep, ?_⟩
    rw [extend, hchain, Phrase.spine, Nat.sub_sub]

theorem Extends.single {op : BinaryOperator} (h : Extends op.operands w c) :
    Extends (.chain op) w c := by
  intro levels floor p next rest hp hd hs hn
  refine h levels floor p next rest hp hd hs.operands (Nat.le_trans hn ?_)
  rw [op.rank_operands]
  exact Nat.le_succ _

end

end Parser

-- ---------------------------------------------------------------------------
-- All phrases
-- ---------------------------------------------------------------------------

variable {s : Stratum} {w : List Token} {c : Phrase}

theorem Derives.extends (d : Derives s w c) : Parser.Extends s w c := by
  induction d with
  | ident h => exact Parser.extends_ident h
  | not h _ ih => exact Parser.extends_not h ih
  | group h _ h' ih => exact Parser.extends_group h ih h'
  | single _ ih => exact ih.single
  | chain _ h _ ihl ihr => exact Parser.extends_chain ihl h ihr

/-- A phrase in front of a token that does not go on with it. -/
theorem Derives.read {p : Parser} {next : Token} {rest : List Token}
    (d : Derives s w c) (levels : Nat) (floor : Priority) (hp : p.tokens = w ++ next :: rest)
    (hd : p.tooDeep = false) (hs : s.Above floor) (hn : next.kind.priority.rank ≤ s.rank)
    (hstop : next.kind.priority.rank ≤ floor.rank) :
    p.Outcome (c.demand ≤ levels) c.erase (next :: rest) (Parser.expression levels floor p) :=
  d.extends.expression levels floor hp hd hs hn hstop

end LogicCalculator
