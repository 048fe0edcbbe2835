import Mathlib.Data.List.Forall2
import LogicCalculator.Proofs.Boundary
import LogicCalculator.Proofs.ParserLaws

/-!
# Readings side by side

Of a token, reading looks at nothing but its kind and its name. So two readings
of matching tokens go the same way: both give the same tree or none, and they
record faults of the same causes at corresponding tokens (`parse_agree`).
What was recorded before makes no difference to what is recorded next.
-/

namespace LogicCalculator

/-- The faults are of one cause and blame tokens that correspond. -/
def SyntaxError.Parallel (R : Token → Token → Prop) (e f : SyntaxError) : Prop :=
  f.cause = e.cause ∧ ∃ t u, R t u ∧ e.position = t.position ∧ f.position = u.position

theorem Token.Matches.bindsAbove {t u : Token} (h : t.Matches u) (floor : Priority) :
    u.bindsAbove floor = t.bindsAbove floor := by
  unfold Token.bindsAbove
  rw [h.kind]

namespace Parser

/-- The parsers stand in front of corresponding tokens and know of parallel
faults, apart from those that the first one has recorded earlier. -/
structure Parallel (R : Token → Token → Prop) (earlier : List SyntaxError) (p q : Parser) :
    Prop where
  tokens : List.Forall₂ R p.tokens q.tokens
  errors : ∃ faults, p.errors.toList = earlier ++ faults ∧
    List.Forall₂ (SyntaxError.Parallel R) faults q.errors.toList
  tooDeep : q.tooDeep = p.tooDeep

/-- The readings have ended with the same tree, or both without one. -/
inductive Agree (R : Token → Token → Prop) (earlier : List SyntaxError) :
    Option Expr × Parser → Option Expr × Parser → Prop where
  | mk {tree : Option Expr} {p q : Parser} (parser : Parallel R earlier p q) :
      Agree R earlier (tree, p) (tree, q)

section
variable {R : Token → Token → Prop} {earlier : List SyntaxError} {p q : Parser} {t u : Token}
  {r s : Option Expr × Parser}

-- ---------------------------------------------------------------------------
-- Single steps
-- ---------------------------------------------------------------------------

namespace Parallel

theorem current (h : Parallel R earlier p q) : R p.current q.current :=
  (List.forall₂_cons.mp h.tokens).1

theorem upcoming (h : Parallel R earlier p q) :
    List.Forall₂ R p.cursor.upcoming q.cursor.upcoming :=
  (List.forall₂_cons.mp h.tokens).2

theorem lookahead (h : Parallel R earlier p q) : R p.lookahead q.lookahead := by
  have hup := h.upcoming
  unfold Parser.lookahead Cursor.lookahead
  generalize p.cursor.upcoming = ts, q.cursor.upcoming = us at hup
  cases hup with
  | nil => exact h.current
  | cons ht _ => exact ht

theorem advance (h : Parallel R earlier p q) : Parallel R earlier p.advance q.advance := by
  refine ⟨?_, h.errors, h.tooDeep⟩
  obtain ⟨⟨t, ts⟩, perrors, pdeep, plog, pmeter⟩ := p
  obtain ⟨⟨u, us⟩, qerrors, qdeep, qlog, qmeter⟩ := q
  have hup : List.Forall₂ R ts us := h.upcoming
  cases hup with
  | nil => exact h.tokens
  | cons hd hds => exact .cons hd hds

theorem descend (h : Parallel R earlier p q) : Parallel R earlier p.descend q.descend :=
  ⟨h.tokens, h.errors, h.tooDeep⟩

theorem enter (h : Parallel R earlier p q) : Parallel R earlier p.enter q.enter :=
  ⟨h.tokens, h.errors, h.tooDeep⟩

theorem report (h : Parallel R earlier p q) (cause : SyntaxError.Cause) (ht : R t u) :
    Parallel R earlier (p.report cause t) (q.report cause u) := by
  refine ⟨h.tokens, ?_, h.tooDeep⟩
  obtain ⟨faults, hp, hq⟩ := h.errors
  refine ⟨faults ++ [⟨cause, t.position⟩], ?_, ?_⟩
  · simp [Parser.report, hp]
  · rw [Parser.report, Array.toList_push]
    exact List.rel_append hq (.cons ⟨rfl, t, u, ht, rfl, rfl⟩ .nil)

theorem refuse (h : Parallel R earlier p q) : Parallel R earlier p.refuse q.refuse := by
  unfold Parser.refuse
  rw [h.tooDeep]
  split
  · exact h
  · have hr := h.report (.nestingTooDeep nestingLimit) h.current
    exact ⟨hr.tokens, hr.errors, rfl⟩

theorem skip (h : Parallel R earlier p q) (t u : Token) :
    Parallel R earlier (p.skip t) (q.skip u) :=
  ⟨h.advance.tokens, h.errors, h.tooDeep⟩

theorem foldl_skip {ts us : List Token} (hts : List.Forall₂ R ts us)
    (h : Parallel R earlier p q) :
    Parallel R earlier (ts.foldl Parser.skip p) (us.foldl Parser.skip q) := by
  induction hts generalizing p q with
  | nil => exact h
  | cons _ _ ih => exact ih (h.skip _ _)

end Parallel

theorem Agree.tree (h : Agree R earlier r s) : s.1 = r.1 := by
  cases h
  rfl

theorem Agree.parser (h : Agree R earlier r s) : Parallel R earlier r.2 s.2 := by
  cases h with
  | mk hpq => exact hpq

end

-- ---------------------------------------------------------------------------
-- Tokens that match
-- ---------------------------------------------------------------------------

section
variable {R : Token → Token → Prop} (hR : ∀ t u, R t u → t.Matches u)
include hR

theorem forall₂_takeWhile_bindsAbove (floor : Priority) {ts us : List Token}
    (h : List.Forall₂ R ts us) :
    List.Forall₂ R (ts.takeWhile (Token.bindsAbove floor))
      (us.takeWhile (Token.bindsAbove floor)) := by
  induction h with
  | nil => exact .nil
  | @cons t u ts us ht _ ih =>
    rw [List.takeWhile_cons, List.takeWhile_cons, (hR t u ht).bindsAbove]
    split
    · exact .cons ht ih
    · exact .nil

variable {earlier : List SyntaxError} {p q : Parser} {r s : Option Expr × Parser}
  {floor : Priority} {levels : Nat} {nested : Nested}

theorem Parallel.skipOperators (h : Parallel R earlier p q) (floor : Priority) :
    Parallel R earlier (p.skipOperators floor) (q.skipOperators floor) :=
  h.foldl_skip (forall₂_takeWhile_bindsAbove hR floor h.upcoming)

theorem Parallel.kind_current (h : Parallel R earlier p q) : q.current.kind = p.current.kind :=
  (hR _ _ h.current).kind

theorem Parallel.kind_lookahead (h : Parallel R earlier p q) :
    q.lookahead.kind = p.lookahead.kind :=
  (hR _ _ h.lookahead).kind

-- ---------------------------------------------------------------------------
-- Operands
-- ---------------------------------------------------------------------------

omit hR in
theorem Agree.not (h : Agree R earlier r s) :
    Agree R earlier (Prod.map (Option.map .not) id r) (Prod.map (Option.map .not) id s) := by
  cases h with
  | mk hpq => exact .mk hpq

omit hR in
theorem Agree.leave (h : Agree R earlier r s) (m n : Meter) :
    Agree R earlier (Prod.map id (Parser.leave · m) r) (Prod.map id (Parser.leave · n) s) := by
  cases h with
  | mk hpq => exact .mk ⟨hpq.tokens, hpq.errors, hpq.tooDeep⟩

theorem Agree.close (h : Agree R earlier r s) :
    Agree R earlier (Parser.close r) (Parser.close s) := by
  cases h with
  | mk hpq =>
    unfold Parser.close
    dsimp only
    rw [hpq.tooDeep, hpq.kind_lookahead hR]
    split
    · exact .mk hpq
    · split
      · exact .mk hpq.advance
      · exact .mk (hpq.report _ hpq.lookahead)

/-- Nested expressions are read in the same way by parallel parsers. -/
def Follows (R : Token → Token → Prop) (earlier : List SyntaxError) (nested : Nested) : Prop :=
  ∀ {floor : Priority} {p q : Parser}, Parallel R earlier p q →
    Agree R earlier (nested floor p) (nested floor q)

theorem operand_agree (hn : Follows R earlier nested) (h : Parallel R earlier p q) :
    Agree R earlier (operand nested p) (operand nested q) := by
  have hkind := h.kind_current hR
  have hname := (hR _ _ h.current).name?
  cases hp : p.current.name? with
  | some name =>
    rw [operand_of_name hp, operand_of_name (hname.trans hp)]
    exact .mk h
  | none =>
    by_cases hnot : p.current.kind = .not
    · rw [operand_of_not hnot, operand_of_not (hkind.trans hnot)]
      exact (hn h.advance).not
    · by_cases hparen : p.current.kind = .leftParen
      · rw [operand_of_leftParen hparen, operand_of_leftParen (hkind.trans hparen),
          group_eq_close, group_eq_close]
        exact (hn h.advance).close hR
      · rw [operand_of_other hp hnot hparen,
          operand_of_other (hname.trans hp) (hkind ▸ hnot) (hkind ▸ hparen), hkind]
        exact .mk (h.report _ h.current)

-- ---------------------------------------------------------------------------
-- Chains
-- ---------------------------------------------------------------------------

theorem Agree.fold {op : BinaryOperator} {left : Expr} (h : Agree R earlier r s)
    (hchain : ∀ {e : Expr} {p q : Parser}, Parallel R earlier p q →
      Agree R earlier (chain levels floor e p) (chain levels floor e q)) :
    Agree R earlier (Parser.fold levels floor op left r) (Parser.fold levels floor op left s) := by
  cases h with
  | @mk right _ _ hpq =>
    cases right with
    | none => exact .mk (hpq.skipOperators hR floor)
    | some right => exact hchain hpq

theorem chain_agree {levels : Nat} (hn : ∀ k < levels, Follows R earlier (expression k))
    {left : Expr} {p q : Parser} (h : Parallel R earlier p q) :
    Agree R earlier (chain levels floor left p) (chain levels floor left q) := by
  have hbinds := (hR _ _ h.lookahead).bindsAbove floor
  have hkind := h.kind_lookahead hR
  cases hb : p.lookahead.bindsAbove floor with
  | false =>
    rw [chain_of_not_bindsAbove hb, chain_of_not_bindsAbove (hbinds.trans hb)]
    exact .mk h
  | true =>
    cases levels with
    | zero =>
      rw [chain_zero_of_bindsAbove hb, chain_zero_of_bindsAbove (hbinds.trans hb)]
      exact .mk h.advance.refuse
    | succ k =>
      cases hop : BinaryOperator.ofKind? p.lookahead.kind with
      | none =>
        rw [chain_succ_of_not_operator hb hop,
          chain_succ_of_not_operator (hbinds.trans hb) (hkind ▸ hop), hkind]
        exact .mk ((h.advance.descend.report _ h.lookahead).skipOperators hR floor)
      | some op =>
        rw [chain_succ_of_operator hb hop,
          chain_succ_of_operator (hbinds.trans hb) (hkind ▸ hop), hkind]
        refine Agree.fold hR (hn k (Nat.lt_succ_self k) h.advance.descend.advance) ?_
        exact chain_agree fun n hlt => hn n (Nat.lt_succ_of_lt hlt)
termination_by levels

omit hR in
theorem Agree.extend (h : Agree R earlier r s)
    (hchain : ∀ {e : Expr} {p q : Parser}, Parallel R earlier p q →
      Agree R earlier (chain levels floor e p) (chain levels floor e q)) :
    Agree R earlier (Parser.extend levels floor r) (Parser.extend levels floor s) := by
  cases h with
  | @mk left _ _ hpq =>
    cases left with
    | none => exact .mk hpq
    | some left => exact hchain hpq

-- ---------------------------------------------------------------------------
-- Expressions and inputs
-- ---------------------------------------------------------------------------

theorem expression_follows (earlier : List SyntaxError) (levels : Nat) :
    Follows R earlier (expression levels) := by
  induction levels using Nat.strongRecOn with
  | _ levels ih =>
    intro floor p q h
    cases levels with
    | zero =>
      rw [expression_zero, expression_zero]
      exact .mk h.refuse
    | succ k =>
      rw [expression_succ, expression_succ]
      have hoperand : Agree R earlier (operand (expression k) p.enter)
          (operand (expression k) q.enter) :=
        operand_agree hR (ih k (Nat.lt_succ_self k)) h.enter
      refine Agree.leave (hoperand.extend fun hpq => ?_) _ _
      exact chain_agree hR (fun n hlt => ih n (Nat.lt_succ_of_lt hlt)) hpq

theorem Agree.finish (h : Agree R earlier r s) :
    Agree R earlier (Parser.finish r) (Parser.finish s) := by
  cases h with
  | @mk tree _ _ hpq =>
    cases tree with
    | none => exact .mk hpq
    | some e =>
      unfold Parser.finish
      dsimp only
      rw [hpq.kind_lookahead hR]
      split
      · exact .mk hpq.advance
      · exact .mk (hpq.report _ hpq.lookahead)

/-- Whole readings of matching tokens. -/
theorem parse_agree (h : Parallel R earlier p q) : Agree R earlier p.parse q.parse := by
  rw [parse_eq_finish, parse_eq_finish]
  exact (expression_follows hR earlier nestingLimit h).finish hR

end

end Parser

end LogicCalculator
