import LogicCalculator.Proofs.Grammar.Complete
import LogicCalculator.Proofs.Grammar.Outlook
import LogicCalculator.Proofs.Grammar.Sound

/-!
# What a failed reading records

Reading follows the outlook of its tokens. Where it fails it blames the first
token that may not come next, or the one at which the levels have run out. On
the way out it passes the groups that are open there, and each of them adds at
most one fault (`parse_verdict`).
-/

namespace LogicCalculator

/-- The kind of token that a fault asks for, if it asks for one. -/
@[simp] def SyntaxError.Cause.expected? : Cause → Option Token.Kind
  | unexpectedToken expected _ => some expected
  | unknownExpression _ | unknownOperator _ | nestingTooDeep _ => none

def SyntaxError.Cause.IsTooDeep (cause : Cause) : Prop := ∃ limit, cause = .nestingTooDeep limit

instance : DecidablePred SyntaxError.Cause.IsTooDeep
  | .nestingTooDeep limit => .isTrue ⟨limit, rfl⟩
  | .unexpectedToken .. | .unknownExpression _ | .unknownOperator _ => .isFalse nofun

theorem SyntaxError.Cause.not_isTooDeep {cause : Cause} {found : Token.Kind}
    (h : cause.found? = some found) : ¬ cause.IsTooDeep := by
  rintro ⟨limit, rfl⟩
  cases h

/-- Nothing is recorded behind such a fault. -/
def SyntaxError.Cause.IsFinal (cause : Cause) : Prop :=
  cause.IsTooDeep ∨ cause.expected? = some .endOfInput

/-- The fault is that a group is not closed. -/
def SyntaxError.isUnclosed (f : SyntaxError) : Bool := f.cause.expected? = some .rightParen

@[simp] theorem SyntaxError.isUnclosed_mk (cause : Cause) (position : Position) :
    isUnclosed ⟨cause, position⟩ = decide (cause.expected? = some .rightParen) := rfl

theorem SyntaxError.isUnclosed_iff {f : SyntaxError} :
    f.isUnclosed ↔ ∃ found, f.cause = .unexpectedToken .rightParen found := by
  obtain ⟨cause, position⟩ := f
  cases cause <;> simp

namespace Outlook

/-- The cause fits a token in front of which the outlook is this one. Unless the
levels have run out, it is a token that may not come next. -/
inductive Blames : Outlook → Token → SyntaxError.Cause → Prop
  | operand {n : Nat} {t : Token} :
      (operand n).next t = none → Blames (operand n) t (.unknownExpression t.kind)
  | operator {n : Nat} {t : Token} :
      (operator n).next t = none → Blames (operator n) t (.unknownOperator t.kind)
  | unclosed {n : Nat} {t : Token} :
      (operator (n + 1)).next t = none →
      Blames (operator (n + 1)) t (.unexpectedToken .rightParen t.kind)
  | trailing {t : Token} :
      (operator 0).next t = none → Blames (operator 0) t (.unexpectedToken .endOfInput t.kind)
  | exhausted {o : Outlook} {t : Token} :
      o ≠ ended → Blames o t (.nestingTooDeep nestingLimit)

variable {o : Outlook} {t : Token} {cause : SyntaxError.Cause}

theorem Blames.ne_ended (h : o.Blames t cause) : o ≠ ended := by
  cases h with
  | exhausted h => exact h
  | _ => nofun

theorem Blames.next_eq_none (h : o.Blames t cause) (hc : ¬ cause.IsTooDeep) :
    o.next t = none := by
  cases h with
  | operand h | operator h | unclosed h | trailing h => exact h
  | exhausted => exact absurd ⟨_, rfl⟩ hc

end Outlook

/-- The faults of a reading that began in front of the tokens `ts`, within `n`
groups. The first one blames a token behind others that may all come. Those
behind it are of groups that are open there and were not open at the start. -/
structure Diagnosis (n : Nat) (ts : List Token) where
  before : List Token
  blamed : Token
  after : List Token
  outlook : Outlook
  cause : SyntaxError.Cause
  later : List SyntaxError
  tokens_eq : ts = before ++ blamed :: after
  run_eq : (Outlook.operand n).run before = some outlook
  blames : outlook.Blames blamed cause
  unclosed_later : ∀ f ∈ later, f.isUnclosed
  groups_le : (⟨cause, blamed.position⟩ :: later).countP SyntaxError.isUnclosed + n ≤ outlook.groups
  later_eq_nil : cause.IsFinal → later = []

namespace Diagnosis

variable {m n : Nat} {t : Token} {v ts : List Token}

def first (d : Diagnosis n ts) : SyntaxError := ⟨d.cause, d.blamed.position⟩

def faults (d : Diagnosis n ts) : List SyntaxError := d.first :: d.later

/-- A diagnosis with a single fault. -/
def single {before after : List Token} {outlook : Outlook} {cause : SyntaxError.Cause}
    (hts : ts = before ++ t :: after) (hrun : (Outlook.operand n).run before = some outlook)
    (hblames : outlook.Blames t cause)
    (hn : [⟨cause, t.position⟩].countP SyntaxError.isUnclosed + n ≤ outlook.groups) :
    Diagnosis n ts where
  before := before
  blamed := t
  after := after
  outlook := outlook
  cause := cause
  later := []
  tokens_eq := hts
  run_eq := hrun
  blames := hblames
  unclosed_later := by simp
  groups_le := hn
  later_eq_nil := fun _ => rfl

/-- The same faults, seen from tokens further in front. -/
def behind (d : Diagnosis n ts) (hv : (Outlook.operand m).run v = some (.operand n))
    (hmn : m ≤ n) : Diagnosis m (v ++ ts) where
  before := v ++ d.before
  blamed := d.blamed
  after := d.after
  outlook := d.outlook
  cause := d.cause
  later := d.later
  tokens_eq := (congrArg (v ++ ·) d.tokens_eq).trans (List.append_assoc ..).symm
  run_eq := by
    rw [Outlook.run_append, hv]
    exact d.run_eq
  blames := d.blames
  unclosed_later := d.unclosed_later
  groups_le := Nat.le_trans (Nat.add_le_add_left hmn _) d.groups_le
  later_eq_nil := d.later_eq_nil

/-- One more fault, of the group that begins in front of the others and should
have ended with the token `u`. -/
def addUnclosed (d : Diagnosis (n + 1) ts) (ht : t.kind = .leftParen) (u : Token)
    (hd : ¬ d.cause.IsTooDeep) : Diagnosis n (t :: ts) where
  before := t :: d.before
  blamed := d.blamed
  after := d.after
  outlook := d.outlook
  cause := d.cause
  later := d.later ++ [⟨.unexpectedToken .rightParen u.kind, u.position⟩]
  tokens_eq := congrArg (t :: ·) d.tokens_eq
  run_eq := by
    rw [Outlook.run_cons, Outlook.next_leftParen ht]
    exact d.run_eq
  blames := d.blames
  unclosed_later := by
    rw [List.forall_mem_append]
    exact ⟨d.unclosed_later, by simp [SyntaxError.isUnclosed_iff]⟩
  groups_le := by
    have h := d.groups_le
    have hu : (⟨.unexpectedToken .rightParen u.kind, u.position⟩ : SyntaxError).isUnclosed :=
      SyntaxError.isUnclosed_iff.mpr ⟨_, rfl⟩
    rw [← List.cons_append, List.countP_append, List.countP_singleton, if_pos hu]
    omega
  later_eq_nil := by
    rintro (h | h)
    · exact absurd h hd
    · -- the end of the input is asked for behind all groups only
      have hg := d.groups_le
      have hb := d.blames
      generalize d.outlook = o, d.cause = cause, d.blamed = k at h hg hb
      cases hb with
      | trailing => exact absurd hg (by simp [Outlook.groups])
      | _ => cases h

end Diagnosis

namespace Parser

/-- Between `p` and `q` a reading has failed. -/
def Fails (n : Nat) (ts : List Token) (p q : Parser) : Prop :=
  ∃ d : Diagnosis n ts, q.errors.toList = p.errors.toList ++ d.faults ∧
    (q.tooDeep = true ↔ d.cause.IsTooDeep)

/-- What reading can end with: it has gone over tokens that leave an operator to
come, or it has failed. -/
inductive Verdict (n : Nat) (ts : List Token) (p : Parser) : Option Expr × Parser → Prop
  | read {e : Expr} {q : Parser} {w rest : List Token} : ts = w ++ rest →
      (Outlook.operand n).run w = some (.operator n) → p.ReadsTo q rest →
      Verdict n ts p (some e, q)
  | failed {q : Parser} : p.Fails n ts q → Verdict n ts p (none, q)

section
variable {m n : Nat} {v ts : List Token} {p p' q q' : Parser} {r : Option Expr × Parser}

theorem Fails.behind (h : p.Fails n ts q) (hv : (Outlook.operand m).run v = some (.operand n))
    (hmn : m ≤ n) : p.Fails m (v ++ ts) q := by
  obtain ⟨d, he, hd⟩ := h
  exact ⟨d.behind hv hmn, he, hd⟩

theorem Fails.of_start (h : p'.Fails n ts q) (he : p'.errors = p.errors) : p.Fails n ts q := by
  obtain ⟨d, he', hd⟩ := h
  exact ⟨d, by rw [← he, he'], hd⟩

theorem Fails.of_end (h : p.Fails n ts q') (he : q.errors = q'.errors)
    (hd : q.tooDeep = q'.tooDeep) : p.Fails n ts q := by
  obtain ⟨d, he', hd'⟩ := h
  exact ⟨d, by rw [he, he'], by rw [hd, hd']⟩

theorem Verdict.of_start (h : Verdict n ts p' r) (he : p'.errors = p.errors)
    (hd : p'.tooDeep = p.tooDeep) : Verdict n ts p r := by
  cases h with
  | read hts hw hq => exact .read hts hw ⟨hq.upcoming, hq.errors.trans he, hq.tooDeep.trans hd⟩
  | failed h => exact .failed (h.of_start he)

theorem Verdict.behind (h : Verdict n ts p r) (hv : (Outlook.operand n).run v = some (.operand n)) :
    Verdict n (v ++ ts) p r := by
  cases h with
  | @read e q w rest hts hw hq =>
    refine .read (w := v ++ w) (by rw [hts, List.append_assoc]) ?_ hq
    rw [Outlook.run_append, hv]
    exact hw
  | failed h => exact .failed (h.behind hv (Nat.le_refl n))

theorem Verdict.not (h : Verdict n ts p r) :
    Verdict n ts p (Prod.map (Option.map .not) id r) := by
  cases h with
  | read hts hw hq => exact .read hts hw hq
  | failed h => exact .failed h

theorem Verdict.leave (h : Verdict n ts p r) (m : Meter) :
    Verdict n ts p (Prod.map id (Parser.leave · m) r) := by
  cases h with
  | read hts hw hq => exact .read hts hw ⟨hq.upcoming, hq.errors, hq.tooDeep⟩
  | failed h => exact .failed (h.of_end rfl rfl)

end

-- ---------------------------------------------------------------------------
-- Faults of single steps
-- ---------------------------------------------------------------------------

section
variable {n : Nat} {o : Outlook} {ts before after : List Token} {t : Token} {p q : Parser}
  {cause : SyntaxError.Cause} {levels : Nat} {floor : Priority} {nested : Nested}

/-- A fault at the first token that may not come next. -/
theorem fails_report (hts : ts = before ++ t :: after)
    (hrun : (Outlook.operand n).run before = some o) (hblames : o.Blames t cause)
    (hn : [⟨cause, t.position⟩].countP SyntaxError.isUnclosed + n ≤ o.groups)
    (hcause : ¬ cause.IsTooDeep) (he : q.errors = p.errors) (hd : q.tooDeep = false) :
    p.Fails n ts (q.report cause t) := by
  have hreport : (q.report cause t).tooDeep = q.tooDeep := rfl
  refine ⟨.single hts hrun hblames hn, ?_, iff_of_false (by simp [hreport, hd]) hcause⟩
  rw [report, he, Array.toList_push]
  rfl

/-- A fault at the first token for which no level is left. -/
theorem fails_refuse (hts : ts = before ++ t :: after)
    (hrun : (Outlook.operand n).run before = some o) (ho : o ≠ .ended) (hn : n ≤ o.groups)
    (ht : q.current = t) (he : q.errors = p.errors) (hd : q.tooDeep = false) :
    p.Fails n ts q.refuse := by
  subst ht
  have hq : q.refuse =
      { q.report (.nestingTooDeep nestingLimit) q.current with tooDeep := true } := by
    simp [refuse, hd]
  refine ⟨.single hts hrun (.exhausted ho) (by simpa using hn), ?_, ?_⟩
  · rw [hq, report, he, Array.toList_push]
    rfl
  · rw [hq]
    exact iff_of_true rfl ⟨_, rfl⟩

theorem next_operator_eq_none (hop : BinaryOperator.ofKind? t.kind = none)
    (hclose : n ≠ 0 → t.kind ≠ .rightParen) (hend : n = 0 → t.kind ≠ .endOfInput) :
    (Outlook.operator n).next t = none := by
  rw [Option.eq_none_iff_forall_ne_some]
  intro o h
  rcases Outlook.next_operator_cases h with ⟨op, hop', -⟩ | ⟨m, rfl, hk, -⟩ | ⟨rfl, hk, -⟩
  · rw [hop] at hop'
    cases hop'
  · exact hclose (Nat.succ_ne_zero m) hk
  · exact hend rfl hk

theorem next_operand_eq_none (hname : t.name? = none) (hnot : t.kind ≠ .not)
    (hparen : t.kind ≠ .leftParen) : (Outlook.operand n).next t = none := by
  rw [Option.eq_none_iff_forall_ne_some]
  intro o h
  rcases Outlook.next_operand_cases h with ⟨name, hname', -⟩ | ⟨hk, -⟩ | ⟨hk, -⟩
  · rw [hname] at hname'
    cases hname'
  · exact hnot hk
  · exact hparen hk

theorem ofKind?_eq_none (h : t.bindsAbove .lowest = false) :
    BinaryOperator.ofKind? t.kind = none := by
  revert h
  unfold Token.bindsAbove
  cases t.kind <;> decide

-- ---------------------------------------------------------------------------
-- Operands
-- ---------------------------------------------------------------------------

/-- Where reading ends with a tree, the next token does not go on with it. -/
def Stops (floor : Priority) (r : Option Expr × Parser) : Prop :=
  ∀ e q, r = (some e, q) → q.lookahead.bindsAbove floor = false

/-- Nested expressions are read up to a token that does not go on with them, or
fail with a diagnosis, within any number of groups. -/
def Judged (nested : Nested) : Prop :=
  ∀ {n : Nat} {floor : Priority} {ts : List Token} {p : Parser}, p.tokens = ts → Ended ts →
    p.tooDeep = false → Verdict n ts p (nested floor p) ∧ Stops floor (nested floor p)

theorem Verdict.close {r : Option Expr × Parser} (h : Verdict (n + 1) ts p r)
    (hstop : Stops .lowest r) (ht : t.kind = .leftParen) (hts : Ended ts)
    (hp : p.tooDeep = false) : Verdict n (t :: ts) p (Parser.close r) := by
  have hopen : (Outlook.operand n).run [t] = some (.operand (n + 1)) := by
    simp [Outlook.next_leftParen ht]
  cases h with
  | @read e q w rest hw hrun hq =>
    subst hw
    have hended := hts.of_append (Outlook.not_endOfInput_of_run hrun (Outlook.operator_ne_ended _))
    obtain ⟨u, us, rfl⟩ := hended.exists_cons
    have hla : q.lookahead = u := lookahead_of_upcoming hq.upcoming
    have hrun : (Outlook.operand n).run (t :: w) = some (.operator (n + 1)) := by
      simp [Outlook.next_leftParen ht, hrun]
    simp only [Parser.close, hq.tooDeep, hp, hla, Bool.false_eq_true, if_false]
    split
    · rename_i hu
      have happend : t :: (w ++ u :: us) = (t :: (w ++ [u])) ++ us := by simp
      refine .read happend ?_ ⟨?_, hq.errors, ?_⟩
      · rw [← List.cons_append, Outlook.run_append, hrun]
        simp [Outlook.next_rightParen hu]
      · rw [cursor_advance hq.upcoming]
      · exact hq.tooDeep
    · rename_i hu
      have hnext : (Outlook.operator (n + 1)).next u = none :=
        next_operator_eq_none (ofKind?_eq_none (hla ▸ hstop e q rfl)) (fun _ => hu)
          (absurd · (Nat.succ_ne_zero n))
      exact .failed (fails_report (List.cons_append ..).symm hrun (.unclosed hnext)
        (by simp [Nat.add_comm]) (SyntaxError.Cause.not_isTooDeep rfl) hq.errors
        (hq.tooDeep.trans hp))
  | @failed q h =>
    simp only [Parser.close]
    split
    · exact .failed (h.behind hopen (Nat.le_succ n))
    · rename_i hdeep
      split
      · exact .failed ((h.behind hopen (Nat.le_succ n)).of_end rfl rfl)
      · -- the group adds its own fault to those inside it
        obtain ⟨d, he, hd⟩ := h
        refine .failed ⟨d.addUnclosed ht q.lookahead (mt hd.mpr hdeep), ?_, hd⟩
        simp [report, he, Diagnosis.faults, Diagnosis.addUnclosed, Diagnosis.first]

theorem operand_verdict (hn : Judged nested) (hp : Ended p.tokens) (hd : p.tooDeep = false) :
    Verdict n p.tokens p (operand nested p) := by
  have hcase := operand_case nested p
  generalize operand nested p = r at hcase ⊢
  cases hcase with
  | name hname =>
    exact .read (w := [p.current]) rfl (by simp [Outlook.next_of_name hname]) ⟨rfl, rfl, rfl⟩
  | not hnot =>
    obtain ⟨hts, ha⟩ := tokens_advance_of_ended hp (by simp [hnot])
    have h : Verdict n p.advance.tokens p (nested .not p.advance) :=
      (hn rfl ha hd).1.of_start rfl rfl
    rw [hts]
    exact h.not.behind (v := [p.current]) (by simp [Outlook.next_not hnot])
  | group hparen =>
    obtain ⟨hts, ha⟩ := tokens_advance_of_ended hp (by simp [hparen])
    obtain ⟨h, hstop⟩ : Verdict (n + 1) p.advance.tokens p.advance (nested .lowest p.advance) ∧
      Stops .lowest (nested .lowest p.advance) := hn rfl ha hd
    rw [hts]
    exact (h.close hstop hparen ha hd).of_start rfl rfl
  | other hname hnot hparen =>
    have hnext : (Outlook.operand n).next p.current = none :=
      next_operand_eq_none hname hnot hparen
    exact .failed (fails_report (List.nil_append _).symm rfl (.operand hnext) (by simp)
      (SyntaxError.Cause.not_isTooDeep rfl) rfl hd)

-- ---------------------------------------------------------------------------
-- Chains
-- ---------------------------------------------------------------------------

theorem chain_stops {e : Expr} {q : Parser} {levels : Nat} {left : Expr} {p : Parser}
    (h : chain levels floor left p = (some e, q)) : q.lookahead.bindsAbove floor = false := by
  have hcase := chain_case levels floor left p
  generalize chain levels floor left p = r at hcase h
  cases hcase with
  | stop hbind =>
    obtain ⟨-, rfl⟩ := Prod.mk.inj h
    exact hbind
  | exhausted | unknownOperator => simp at h
  | operator =>
    obtain ⟨right, q', -, h⟩ := fold_eq_some h
    exact chain_stops h
termination_by levels

section
variable {w us : List Token} {left : Expr}

/-- A token that binds like an operator and is none. -/
theorem unknown_operator_fails (hla : q.lookahead = t) (hbind : t.bindsAbove floor = true)
    (hkind : BinaryOperator.ofKind? t.kind = none)
    (hrun : (Outlook.operand n).run w = some (.operator n)) (hq : p.ReadsTo q (t :: us))
    (hd : p.tooDeep = false) :
    Verdict n (w ++ t :: us) p (chain (levels + 1) floor left q) := by
  subst hla
  have hlow := ne_lowest_of_bindsAbove hbind
  have hnext : (Outlook.operator n).next q.lookahead = none :=
    next_operator_eq_none hkind (fun _ h => by simp [h, Token.Kind.priority] at hlow)
      (fun _ h => by simp [h, Token.Kind.priority] at hlow)
  rw [chain_succ_of_not_operator hbind hkind]
  have hfails : p.Fails n (w ++ q.lookahead :: us)
      (q.advance.descend.report (.unknownOperator q.lookahead.kind) q.lookahead) :=
    fails_report rfl hrun (.operator hnext) (by simp) (SyntaxError.Cause.not_isTooDeep rfl)
      hq.errors (hq.tooDeep.trans hd)
  exact .failed (hfails.of_end (errors_skipOperators _ _) (tooDeep_skipOperators _ _))

/-- What an operator makes of the verdict on its right operand. The two lead
back to the same outlook, so the open groups do not change along a chain. -/
theorem Verdict.fold {op : BinaryOperator} {r : Option Expr × Parser} (h : Verdict n us q r)
    (hop : BinaryOperator.ofKind? t.kind = some op)
    (hrun : (Outlook.operand n).run w = some (.operator n)) (he : q.errors = p.errors)
    (hd : q.tooDeep = p.tooDeep)
    (hchain : ∀ {w' rest : List Token} {left : Expr} {q' : Parser}, w ++ t :: us = w' ++ rest →
      (Outlook.operand n).run w' = some (.operator n) → p.ReadsTo q' rest →
      Verdict n (w ++ t :: us) p (chain levels floor left q')) :
    Verdict n (w ++ t :: us) p (Parser.fold levels floor op left r) := by
  have hoperator : (Outlook.operand n).run (w ++ [t]) = some (.operand n) := by
    simp [hrun, Outlook.next_of_ofKind? hop]
  have happend : w ++ t :: us = (w ++ [t]) ++ us := by simp
  cases h with
  | @read right q' w' rest hw hrun' hq' =>
    have hts : w ++ t :: us = ((w ++ [t]) ++ w') ++ rest := by
      rw [happend, hw, List.append_assoc (w ++ [t])]
    refine hchain hts ?_ ⟨hq'.upcoming, hq'.errors.trans he, hq'.tooDeep.trans hd⟩
    rw [Outlook.run_append, hoperator]
    exact hrun'
  | failed h =>
    rw [happend]
    exact .failed (((h.of_start he).behind hoperator (Nat.le_refl n)).of_end
      (errors_skipOperators _ _) (tooDeep_skipOperators _ _))

end

theorem chain_verdict {levels : Nat} (hn : ∀ k < levels, Judged (expression k)) {left : Expr}
    {ts w rest : List Token} {q : Parser} (hts : ts = w ++ rest) (hended : Ended ts)
    (hrun : (Outlook.operand n).run w = some (.operator n)) (hq : p.ReadsTo q rest)
    (hd : p.tooDeep = false) : Verdict n ts p (chain levels floor left q) := by
  subst hts
  have hrest := hended.of_append (Outlook.not_endOfInput_of_run hrun (Outlook.operator_ne_ended _))
  obtain ⟨t, us, rfl⟩ := hrest.exists_cons
  have hla : q.lookahead = t := lookahead_of_upcoming hq.upcoming
  have hcursor : q.advance.cursor = ⟨t, us⟩ := cursor_advance hq.upcoming
  have hdeep : q.tooDeep = false := hq.tooDeep.trans hd
  cases hbind : t.bindsAbove floor with
  | false =>
    rw [chain_of_not_bindsAbove (by rw [hla, hbind])]
    exact .read rfl hrun hq
  | true =>
    cases levels with
    | zero =>
      rw [chain_zero_of_bindsAbove (by rw [hla, hbind])]
      exact .failed (fails_refuse rfl hrun (Outlook.operator_ne_ended n) (Nat.le_refl n)
        (by rw [current, hcursor]) hq.errors hdeep)
    | succ k =>
      cases hkind : BinaryOperator.ofKind? t.kind with
      | none => exact unknown_operator_fails hla hbind hkind hrun hq hd
      | some op =>
        have hus : Ended us := hrest.tail fun h => by simp [h, BinaryOperator.ofKind?] at hkind
        have htokens : q.advance.descend.advance.tokens = us := by
          obtain ⟨u, rest, rfl⟩ := hus.exists_cons
          exact tokens_advance (by rw [cursor_descend, hcursor]) (by simp)
        rw [chain_succ_of_operator (by rw [hla, hbind]) (by rw [hla, hkind])]
        refine (hn k (Nat.lt_succ_self k) htokens hus hdeep).1.fold hkind hrun hq.errors
          hq.tooDeep ?_
        intro w' rest left q' hts hrun' hq'
        exact chain_verdict (fun k' hlt => hn k' (Nat.lt_succ_of_lt hlt)) hts hended hrun' hq' hd
termination_by levels

-- ---------------------------------------------------------------------------
-- Expressions and inputs
-- ---------------------------------------------------------------------------

theorem expression_judged (levels : Nat) : Judged (expression levels) := by
  induction levels using Nat.strongRecOn with
  | _ levels ih =>
    intro n floor ts p hts hended hd
    subst hts
    cases levels with
    | zero =>
      rw [expression_zero]
      exact ⟨.failed (fails_refuse (List.nil_append _).symm rfl nofun (Nat.le_refl n) rfl rfl hd),
        nofun⟩
    | succ k =>
      rw [expression_succ]
      have henter : Verdict n p.tokens p.enter (operand (expression k) p.enter) :=
        operand_verdict (p := p.enter) (ih k (Nat.lt_succ_self k)) hended hd
      have hoperand : Verdict n p.tokens p (operand (expression k) p.enter) :=
        henter.of_start rfl rfl
      generalize operand (expression k) p.enter = r at hoperand
      cases hoperand with
      | failed h => exact ⟨(Verdict.failed h).leave _, nofun⟩
      | @read left q w rest hts hrun hq =>
        have hchain : Verdict n p.tokens p (chain k floor left q) :=
          chain_verdict (fun n hlt => ih n (Nat.lt_succ_of_lt hlt)) hts hended hrun hq hd
        refine ⟨hchain.leave _, ?_⟩
        intro e q' h
        rcases hx : chain k floor left q with ⟨e', q''⟩
        obtain ⟨rfl, rfl⟩ : e' = some e ∧ q''.leave p.meter = q' := by simpa [extend, hx] using h
        have hlast : q''.lookahead.bindsAbove floor = false := chain_stops hx
        exact hlast

/-- A whole reading gives a tree and leaves the faults as they were, or it fails
with a diagnosis. -/
theorem parse_verdict {p : Parser} (hp : Ended p.tokens) (hd : p.tooDeep = false) :
    (∃ e q, p.parse = (some e, q) ∧ q.errors = p.errors) ∨
      ∃ q, p.parse = (none, q) ∧ p.Fails 0 p.tokens q := by
  obtain ⟨h, hstop⟩ : Verdict 0 p.tokens p (expression nestingLimit .lowest p) ∧
    Stops .lowest (expression nestingLimit .lowest p) := expression_judged nestingLimit rfl hp hd
  rw [parse_eq_finish]
  generalize expression nestingLimit .lowest p = r at h hstop
  cases h with
  | @failed q h => exact .inr ⟨q, rfl, h⟩
  | @read e q w rest hw hrun hq =>
    obtain ⟨t, us, rfl⟩ :=
      ((hw ▸ hp).of_append
        (Outlook.not_endOfInput_of_run hrun (Outlook.operator_ne_ended 0))).exists_cons
    have hla : q.lookahead = t := lookahead_of_upcoming hq.upcoming
    simp only [finish, hla]
    split
    · exact .inl ⟨e, _, rfl, hq.errors⟩
    · rename_i ht
      have hnext : (Outlook.operator 0).next t = none :=
        next_operator_eq_none (ofKind?_eq_none (hla ▸ hstop e q rfl)) (absurd rfl) fun _ => ht
      exact .inr ⟨_, rfl, fails_report hw hrun (.trailing hnext) (by simp)
        (SyntaxError.Cause.not_isTooDeep rfl) hq.errors (hq.tooDeep.trans hd)⟩

end

end Parser

end LogicCalculator
