import Mathlib.Logic.Relation
import LogicCalculator.Proofs.ParserLaws

/-!
# Reading, move by move

Reading is a sequence of moves, each made under a condition (`Move`). What all
moves preserve therefore holds at the end of every reading (`parse_goes`). A
reading that has no tree has found a fault, and until then it has found none,
so faults about operands, operators and levels are only found by the first
move that finds any.
-/

namespace LogicCalculator.Parser

/-- No fault has been found, and levels have not run out. -/
structure Fresh (p : Parser) : Prop where
  errors : p.errors = #[]
  tooDeep : p.tooDeep = false

theorem fresh_ofString (source : String) : (ofString source).Fresh := ⟨rfl, rfl⟩

/-- One move of a reading that began without a fault. -/
inductive Move : Parser → Parser → Prop
  | advance (p : Parser) : Move p p.advance
  | descend (p : Parser) : Move p p.descend
  | enter (p : Parser) : Move p p.enter
  | leave (p : Parser) (outer : Meter) : Move p (p.leave outer)
  | refuse {p : Parser} : p.Fresh → Move p p.refuse
  | unknownExpression {p : Parser} : p.Fresh → p.current.name? = none →
      p.current.kind ≠ .not → p.current.kind ≠ .leftParen →
      Move p (p.report (.unknownExpression p.current.kind) p.current)
  | unknownOperator {p : Parser} {t : Token} {floor : Priority} : p.Fresh → p.current = t →
      t.bindsAbove floor = true → BinaryOperator.ofKind? t.kind = none →
      Move p (p.report (.unknownOperator t.kind) t)
  | unclosed {p : Parser} : p.tooDeep = false → p.lookahead.kind ≠ .rightParen →
      Move p (p.report (.unexpectedToken .rightParen p.lookahead.kind) p.lookahead)
  | trailing {p : Parser} : p.Fresh → p.lookahead.kind ≠ .endOfInput →
      Move p (p.report (.unexpectedToken .endOfInput p.lookahead.kind) p.lookahead)
  | skip {p : Parser} {t : Token} {floor : Priority} : p.errors ≠ #[] → p.lookahead = t →
      t.bindsAbove floor = true → Move p (p.skip t)

abbrev Moves : Parser → Parser → Prop := Relation.ReflTransGen Move

/-- Moves lead from `p` to the end of a reading: one with a tree and no fault, or
one without a tree and with a fault. -/
inductive Goes (p : Parser) : Option Expr × Parser → Prop
  | read {e : Expr} {q : Parser} : Moves p q → q.Fresh → Goes p (some e, q)
  | failed {q : Parser} : Moves p q → q.errors ≠ #[] → Goes p (none, q)

/-- Nested expressions are read by moves. -/
def Roams (nested : Nested) : Prop :=
  ∀ {floor : Priority} {p : Parser}, p.Fresh → Goes p (nested floor p)

section
variable {p q : Parser} {r : Option Expr × Parser} {levels : Nat} {floor : Priority}
  {nested : Nested}

theorem Goes.moves (h : Goes p r) : Moves p r.2 := by
  cases h with
  | read h _ => exact h
  | failed h _ => exact h

theorem Goes.of_moves (hq : Moves p q) (h : Goes q r) : Goes p r := by
  cases h with
  | read h hr => exact .read (hq.trans h) hr
  | failed h hr => exact .failed (hq.trans h) hr

theorem Goes.of_move (hq : Move p q) (h : Goes q r) : Goes p r := h.of_moves (.single hq)

theorem Goes.report {cause : SyntaxError.Cause} {t : Token} (h : Moves p q)
    (hm : Move q (q.report cause t)) : Goes p (none, q.report cause t) :=
  .failed (h.tail hm) (by simp [Parser.report])

theorem Goes.refuse (h : Moves p q) (hq : q.Fresh) : Goes p (none, q.refuse) :=
  .failed (h.tail (.refuse hq)) (by simp [Parser.refuse, hq.tooDeep, Parser.report])

-- ---------------------------------------------------------------------------
-- Skipping
-- ---------------------------------------------------------------------------

theorem moves_foldl_skip {operators : List Token} (hw : operators <+: p.cursor.upcoming)
    (hb : ∀ t ∈ operators, t.bindsAbove floor = true) (he : p.errors ≠ #[]) :
    Moves p (operators.foldl Parser.skip p) := by
  induction operators generalizing p with
  | nil => exact .refl
  | cons t ts ih =>
    obtain ⟨rest, hrest⟩ := hw
    obtain ⟨ht, hts⟩ := List.forall_mem_cons.mp hb
    have hla : p.lookahead = t := lookahead_of_upcoming hrest.symm
    have hcursor : (p.skip t).cursor = ⟨t, ts ++ rest⟩ := cursor_advance hrest.symm
    refine .head (.skip he hla ht) (ih ?_ hts he)
    rw [hcursor]
    exact List.prefix_append ts rest

theorem moves_skipOperators (floor : Priority) (he : p.errors ≠ #[]) :
    Moves p (p.skipOperators floor) :=
  moves_foldl_skip (List.takeWhile_prefix _) (List.all_eq_true.mp List.all_takeWhile) he

theorem Goes.skipOperators (h : Goes p (none, q)) (floor : Priority) :
    Goes p (none, q.skipOperators floor) := by
  cases h with
  | failed h hq => exact .failed (h.trans (moves_skipOperators floor hq)) (by simpa using hq)

-- ---------------------------------------------------------------------------
-- Operands
-- ---------------------------------------------------------------------------

theorem Goes.not (h : Goes p r) : Goes p (Prod.map (Option.map .not) id r) := by
  cases h with
  | read h hr => exact .read h hr
  | failed h hr => exact .failed h hr

theorem Goes.leave (h : Goes p r) (outer : Meter) :
    Goes p (Prod.map id (Parser.leave · outer) r) := by
  cases h with
  | read h hr => exact .read (h.tail (.leave _ outer)) ⟨hr.errors, hr.tooDeep⟩
  | failed h hr => exact .failed (h.tail (.leave _ outer)) hr

theorem Goes.close (h : Goes p r) : Goes p (Parser.close r) := by
  cases h with
  | @read e q h hr =>
    simp only [Parser.close, hr.tooDeep, Bool.false_eq_true, if_false]
    split
    · exact .read (h.tail (.advance q)) ⟨hr.errors, hr.tooDeep⟩
    · next hk => exact .report h (.unclosed hr.tooDeep hk)
  | @failed q h hr =>
    simp only [Parser.close]
    split
    · exact .failed h hr
    · next hd =>
      split
      · exact .failed (h.tail (.advance q)) hr
      · next hk => exact .report h (.unclosed (Bool.eq_false_iff.mpr hd) hk)

theorem operand_goes (hn : Roams nested) (hp : p.Fresh) : Goes p (operand nested p) := by
  have ha : p.advance.Fresh := ⟨hp.errors, hp.tooDeep⟩
  have h := operand_case nested p
  generalize operand nested p = r at h ⊢
  cases h with
  | name => exact .read .refl hp
  | not => exact (hn ha).not.of_move (.advance p)
  | group => exact (hn ha).close.of_move (.advance p)
  | other hname hnot hparen => exact .report .refl (.unknownExpression hp hname hnot hparen)

-- ---------------------------------------------------------------------------
-- Chains
-- ---------------------------------------------------------------------------

theorem Goes.fold {op : BinaryOperator} {left : Expr} (h : Goes p r)
    (hchain : ∀ {e : Expr} {q : Parser}, q.Fresh → Goes q (chain levels floor e q)) :
    Goes p (Parser.fold levels floor op left r) := by
  cases h with
  | read h hr => exact (hchain hr).of_moves h
  | failed h hr => exact (Goes.failed h hr).skipOperators floor

theorem chain_goes {levels : Nat} (hn : ∀ k < levels, Roams (expression k)) {left : Expr}
    {p : Parser} (hp : p.Fresh) : Goes p (chain levels floor left p) := by
  have hd : p.advance.descend.Fresh := ⟨hp.errors, hp.tooDeep⟩
  have hmoves : Moves p p.advance.descend := .head (.advance p) (.single (.descend _))
  have h := chain_case levels floor left p
  generalize chain levels floor left p = r at h ⊢
  cases h with
  | stop => exact .read .refl hp
  | exhausted => exact .refuse (.single (.advance p)) ⟨hp.errors, hp.tooDeep⟩
  | unknownOperator hb hop =>
    have hreport := Goes.report hmoves (.unknownOperator hd p.current_advance hb hop)
    exact hreport.skipOperators floor
  | @operator k op hb hop =>
    have hda : p.advance.descend.advance.Fresh := ⟨hp.errors, hp.tooDeep⟩
    refine ((hn k (Nat.lt_succ_self k) hda).fold fun hq => ?_).of_moves
      (hmoves.tail (.advance _))
    exact chain_goes (fun n hlt => hn n (Nat.lt_succ_of_lt hlt)) hq
termination_by levels

-- ---------------------------------------------------------------------------
-- Expressions and inputs
-- ---------------------------------------------------------------------------

theorem Goes.extend (h : Goes p r)
    (hchain : ∀ {e : Expr} {q : Parser}, q.Fresh → Goes q (chain levels floor e q)) :
    Goes p (Parser.extend levels floor r) := by
  cases h with
  | read h hr => exact (hchain hr).of_moves h
  | failed h hr => exact .failed h hr

theorem expression_roams (levels : Nat) : Roams (expression levels) := by
  induction levels using Nat.strongRecOn with
  | _ levels ih =>
    intro floor p hp
    cases levels with
    | zero =>
      rw [expression_zero]
      exact .refuse .refl hp
    | succ k =>
      have he : p.enter.Fresh := ⟨hp.errors, hp.tooDeep⟩
      have hoperand : Goes p (operand (expression k) p.enter) :=
        (operand_goes (ih k (Nat.lt_succ_self k)) he).of_moves (.single (.enter p))
      rw [expression_succ]
      refine (hoperand.extend fun hq => ?_).leave _
      exact chain_goes (fun n hlt => ih n (Nat.lt_succ_of_lt hlt)) hq

theorem Goes.finish (h : Goes p r) : Goes p (Parser.finish r) := by
  cases h with
  | @read e q h hr =>
    simp only [Parser.finish]
    split
    · exact .read (h.tail (.advance q)) ⟨hr.errors, hr.tooDeep⟩
    · next hk => exact .report h (.trailing hr hk)
  | failed h hr => exact .failed h hr

theorem parse_goes (hp : p.Fresh) : Goes p p.parse := by
  rw [parse_eq_finish]
  exact (expression_roams nestingLimit hp).finish

/-- The end of the input is the last token that a whole reading takes. -/
theorem kind_current_parse {e : Expr} (h : p.parse.1 = some e) :
    p.parse.2.current.kind = .endOfInput := by
  rw [parse_eq_finish] at h ⊢
  generalize expression nestingLimit .lowest p = r at h ⊢
  obtain ⟨hr, hk⟩ := finish_fst_eq_some_iff.mp h
  obtain ⟨_, q⟩ := r
  obtain rfl := hr
  have hq : finish (some e, q) = (some e, q.advance) := if_pos hk
  rw [hq, current_advance, hk]

end

end LogicCalculator.Parser
