import Mathlib.Logic.Relation
import LogicCalculator.Proofs.Grammar.Sound
import LogicCalculator.Proofs.Machine

/-!
# The steps follow the recursion

The steps of a reading lead to what the recursion gives (`run_start`). The
recursion counts the levels that are left and the steps those that are in use,
and the two always make up the limit. Both stop skipping operators at
the same token, since the tokens end in the end of the input (`Proper`).
-/

namespace LogicCalculator

/-- Whether a tree has just been read. -/
def Phase.HasTree : Phase → Prop
  | .chain .. => True
  | .ended result => result.isSome
  | _ => False

namespace Parser

/-- `q` stands as far behind `p` as tokens were taken between them. -/
def Reads (p q : Parser) : Prop :=
  ∃ ts, p.tokens = ts ++ q.tokens ∧ q.meter.pulls = p.meter.pulls + ts.length

namespace Reads

variable {p q r : Parser}

theorem of_eq (hc : q.cursor = p.cursor) (hm : q.meter.pulls = p.meter.pulls) : p.Reads q :=
  ⟨[], by simp [tokens, hc], hm⟩

theorem trans (hpq : p.Reads q) (hqr : q.Reads r) : p.Reads r := by
  obtain ⟨ts, hts, hpulls⟩ := hpq
  obtain ⟨us, hus, hpulls'⟩ := hqr
  refine ⟨ts ++ us, by rw [hts, hus, List.append_assoc], ?_⟩
  rw [hpulls', hpulls, List.length_append, Nat.add_assoc]

theorem advance (h : p.cursor.upcoming ≠ []) : p.Reads p.advance :=
  ⟨[p.current], by rw [tokens_advance rfl h]; rfl, rfl⟩

theorem ended (h : p.Reads q) (hp : Ended p.tokens) : Ended q.tokens := by
  obtain ⟨ts, hts, -⟩ := h
  rw [hts] at hp
  simpa [Ended, tokens] using hp

end Reads
end Parser

namespace Reading

variable {r r' : Reading} {a : Activation} {waiting : Stack} {p : Parser}

-- ---------------------------------------------------------------------------
-- What steps read
-- ---------------------------------------------------------------------------

/-- Steps that follow rules. -/
abbrev Run : Reading → Reading → Prop := Relation.ReflTransGen Rule

/-- The tokens end in the end of the input, and no tree has reached it. -/
structure Proper (r : Reading) : Prop where
  ended : Ended r.parser.tokens
  tree : r.phase.HasTree → r.parser.current.kind ≠ .endOfInput

theorem reads_resume (a : Activation) (waiting : Stack) (result : Option Expr × Parser) :
    result.2.Reads (resume a waiting result).parser := by
  obtain ⟨_ | left, p⟩ := result <;> exact .of_eq rfl rfl

theorem reads_close (hp : Ended p.tokens) (inner : Option Expr) :
    p.Reads (Parser.close (inner, p)).2 := by
  simp only [Parser.close]
  split
  · exact .of_eq rfl rfl
  · split
    · next hk => exact .advance (hp.upcoming_ne_nil p.lookahead_mem_take_tokens (by simp [hk]))
    · exact .of_eq rfl rfl

theorem reads_finish {result : Option Expr} (hp : Ended p.tokens)
    (ht : result.isSome → p.current.kind ≠ .endOfInput) :
    p.Reads (Parser.finish (result, p)).2 := by
  cases result with
  | none => exact .of_eq rfl rfl
  | some e =>
    simp only [Parser.finish]
    split
    · exact .advance (hp.upcoming_ne_nil p.current_mem_take_tokens (ht rfl))
    · exact .of_eq rfl rfl

theorem reads_advance {floor : Priority} (hp : Ended p.tokens)
    (hb : p.lookahead.bindsAbove floor = true) : p.Reads p.advance :=
  .advance (hp.upcoming_ne_nil_of_bindsAbove hb)

theorem upcoming_advance {floor : Priority} (hp : Ended p.tokens)
    (hb : p.lookahead.bindsAbove floor = true) : p.advance.cursor.upcoming ≠ [] := by
  refine hp.advance.upcoming_ne_nil p.advance.current_mem_take_tokens ?_
  rw [Parser.current_advance]
  exact Parser.kind_ne_endOfInput_of_bindsAbove hb

theorem kind_current_close (inner : Option Expr) (p : Parser)
    (h : (Parser.close (inner, p)).1.isSome) :
    (Parser.close (inner, p)).2.current.kind = .rightParen := by
  simp only [Parser.close] at h ⊢
  split at h
  · simp at h
  · split at h
    · next hd hk => simp [hd, hk]
    · simp at h

/-- A step only ever takes a token that is there. -/
theorem Rule.reads (h : Rule r r') (hr : r.Proper) : r.parser.Reads r'.parser := by
  cases h with
  | enter | name | unknownExpression | stop | skipped | combine | fail => exact .of_eq rfl rfl
  | refuse => exact .of_eq (by simp) (by simp)
  | not hk | group hk =>
    exact .advance (hr.ended.upcoming_ne_nil (Parser.current_mem_take_tokens _) (by simp [hk]))
  | exhausted hb =>
    exact (reads_advance hr.ended hb).trans
      (.of_eq (by simp [leave]) (by simp [leave, Meter.leave]))
  | operator hb =>
    exact (reads_advance hr.ended hb).trans (.advance (upcoming_advance hr.ended hb))
  | unknownOperator hb | skip hb => exact reads_advance hr.ended hb
  | finish => exact reads_finish hr.ended hr.tree
  | @negate result a waiting p => exact reads_resume a waiting (result.map .not, p)
  | close => exact (reads_close hr.ended _).trans (reads_resume ..)

theorem Rule.proper (h : Rule r r') (hr : r.Proper) : r'.Proper := by
  refine ⟨(h.reads hr).ended hr.ended, fun ht => ?_⟩
  cases h with
  | enter | refuse | not | group | unknownExpression | exhausted | operator | unknownOperator
    | skip | skipped | finish | fail => simp [Phase.HasTree, leave, ofResult] at ht
  | name hname => simp [Token.kind_of_name? hname]
  | stop => exact hr.tree trivial
  | combine => exact hr.tree rfl
  | @negate result a waiting p =>
    cases result with
    | none => simp [Phase.HasTree, resume, leave] at ht
    | some e => exact hr.tree rfl
  | @close result a waiting p =>
    have hk := kind_current_close result p
    generalize Parser.close (result, p) = c at ht hk ⊢
    obtain ⟨_ | e, q⟩ := c
    · simp [Phase.HasTree, resume, leave] at ht
    · simp [resume, hk]

theorem Run.proper (h : Run r r') (hr : r.Proper) : r'.Proper := by
  induction h with
  | refl => exact hr
  | tail _ hstep ih => exact hstep.proper ih

theorem Run.reads (h : Run r r') (hr : r.Proper) : r.parser.Reads r'.parser := by
  induction h with
  | refl => exact .of_eq rfl rfl
  | tail hrun hstep ih => exact ih.trans (hstep.reads (Run.proper hrun hr))

-- ---------------------------------------------------------------------------
-- The recursion, step by step
-- ---------------------------------------------------------------------------

/-- A nested expression that finds so many levels left is read by steps, whatever
waits for it. -/
def Stepwise (levels : Nat) (nested : Parser.Nested) : Prop :=
  ∀ {floor : Priority} {waiting : Stack} {p : Parser},
    p.meter.depth + levels = nestingLimit → Ended p.tokens →
      Run ⟨.enter floor, waiting, p⟩ ⟨.ended (nested floor p).1, waiting, (nested floor p).2⟩

theorem run_skipOperators {p : Parser} (hp : Ended p.tokens) :
    Run ⟨.skip a, waiting, p⟩ (leave a waiting (none, p.skipOperators a.floor)) := by
  cases hb : p.lookahead.bindsAbove a.floor with
  | false =>
    rw [Parser.skipOperators_of_not_bindsAbove hb]
    exact .single (.skipped hb)
  | true =>
    obtain ⟨t, ts, hts⟩ := List.exists_cons_of_ne_nil (hp.upcoming_ne_nil_of_bindsAbove hb)
    obtain rfl : p.lookahead = t := Parser.lookahead_of_upcoming hts
    have hskip : Run ⟨.skip a, waiting, p.skip p.lookahead⟩ _ := run_skipOperators hp.advance
    rw [Parser.skipOperators_of_bindsAbove hts hb]
    exact .head (.skip hb) hskip
termination_by p.cursor.upcoming.length
decreasing_by simp [Parser.cursor_advance hts, hts]

theorem run_operand {levels : Nat} {nested : Parser.Nested} (hn : Stepwise levels nested)
    (hd : p.meter.depth + levels = nestingLimit) (hp : Ended p.tokens) :
    Run ⟨.operand a, waiting, p⟩ (resume a waiting (Parser.operand nested p)) := by
  have h := Parser.operand_case nested p
  generalize Parser.operand nested p = r at h ⊢
  cases h with
  | name hname => exact .single (.name hname)
  | not hk => exact .head (.not hk) ((hn (p := p.advance) hd hp.advance).tail .negate)
  | group hk => exact .head (.group hk) ((hn (p := p.advance) hd hp.advance).tail .close)
  | other hname hnot hparen => exact .single (.unknownExpression hname hnot hparen)

theorem depth_expression (levels : Nat) (floor : Priority) (p : Parser) :
    (Parser.expression levels floor p).2.meter.depth = p.meter.depth := by
  cases levels with
  | zero => simp [Parser.expression_zero]
  | succ k => simp [Parser.expression_succ, Meter.leave]

theorem depth_close (result : Option Expr × Parser) :
    (Parser.close result).2.meter.depth = result.2.meter.depth := by
  simp only [Parser.close]
  split
  · rfl
  · split <;> rfl

theorem depth_operand (levels : Nat) (p : Parser) :
    (Parser.operand (Parser.expression levels) p).2.meter.depth = p.meter.depth := by
  have h := Parser.operand_case (Parser.expression levels) p
  generalize Parser.operand (Parser.expression levels) p = r at h ⊢
  cases h with
  | name | other => rfl
  | not => exact depth_expression levels .not p.advance
  | group => exact (depth_close _).trans (depth_expression levels .lowest p.advance)

theorem run_chain {levels : Nat} {left : Expr} {p : Parser}
    (hn : ∀ k < levels, Stepwise k (Parser.expression k))
    (hd : p.meter.depth + levels = nestingLimit) (hr : Proper ⟨.chain a left, waiting, p⟩) :
    Run ⟨.chain a left, waiting, p⟩
      (leave a waiting (Parser.chain levels a.floor left p)) := by
  have h := Parser.chain_case levels a.floor left p
  generalize Parser.chain levels a.floor left p = r at h ⊢
  cases h with
  | stop hb => exact .single (.stop hb)
  | exhausted hb => exact .single (.exhausted hb (by omega))
  | unknownOperator hb hop =>
    exact .head (.unknownOperator hb (by omega) hop) (run_skipOperators hr.ended.advance)
  | @operator k op hb hop =>
    let q := p.advance.descend.advance
    have hq : q.meter.depth + k = nestingLimit := by
      rw [← hd]
      exact Nat.succ_add_eq_add_succ ..
    have hright : Run ⟨.chain a left, waiting, p⟩ _ := .head (.operator hb (by omega) hop)
      (hn k k.lt_succ_self hq hr.ended.advance.advance)
    -- the right operand gives its levels back, but the operator keeps its own
    rw [← depth_expression k p.lookahead.kind.priority q] at hq
    generalize Parser.expression k p.lookahead.kind.priority q = r at hright hq ⊢
    obtain ⟨_ | right, q'⟩ := r
    · exact (hright.tail .fail).trans (run_skipOperators (Run.proper hright hr).ended)
    · have hcombine := hright.tail .combine
      exact hcombine.trans (run_chain (fun n hlt => hn n (Nat.lt_succ_of_lt hlt)) hq
        (Run.proper hcombine hr))
termination_by levels

theorem run_extend {levels : Nat} {result : Option Expr × Parser}
    (hn : ∀ k < levels, Stepwise k (Parser.expression k))
    (hd : result.2.meter.depth + levels = nestingLimit) (hr : (resume a waiting result).Proper) :
    Run (resume a waiting result) (leave a waiting (Parser.extend levels a.floor result)) := by
  obtain ⟨_ | left, p⟩ := result
  · exact .refl
  · exact run_chain hn hd hr

theorem expression_stepwise (levels : Nat) : Stepwise levels (Parser.expression levels) := by
  induction levels using Nat.strongRecOn with
  | _ levels ih =>
    intro floor waiting p hd hp
    cases levels with
    | zero =>
      rw [Parser.expression_zero]
      exact .single (.refuse (by omega))
    | succ k =>
      have he : p.enter.meter.depth + k = nestingLimit := by
        rw [← hd]
        exact Nat.succ_add_eq_add_succ ..
      have hoperand : Run ⟨.enter floor, waiting, p⟩ _ := .head (.enter (by omega))
        (run_operand (a := ⟨floor, p.meter⟩) (ih k k.lt_succ_self) he hp)
      rw [← depth_operand k] at he
      have hproper : Proper _ := Run.proper hoperand ⟨hp, nofun⟩
      rw [Parser.expression_succ]
      exact hoperand.trans (run_extend (fun n hlt => ih n (Nat.lt_succ_of_lt hlt)) he hproper)

theorem run_start (hd : p.meter.depth = 0) (hp : Ended p.tokens) :
    Run (start p) (ofResult p.parse) := by
  have hlevels : p.meter.depth + nestingLimit = nestingLimit := by rw [hd, Nat.zero_add]
  have hexpression : Run (start p) _ := expression_stepwise nestingLimit hlevels hp
  rw [Parser.parse_eq_finish]
  exact hexpression.tail .finish

end Reading
end LogicCalculator
