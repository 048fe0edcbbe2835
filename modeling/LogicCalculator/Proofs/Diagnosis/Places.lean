import LogicCalculator.Proofs.Boundary
import LogicCalculator.Proofs.Diagnosis
import LogicCalculator.Proofs.Moves
import LogicCalculator.Proofs.TokenOrder

/-!
# Where faults point

Every fault is about a token of the text, and the faults come in the order of
their tokens (`faults_in_order`). A move reports at the current token or at the
one behind it. Only the first fault can be at the current one, so none is found
in front of another that is known.
-/

namespace LogicCalculator

/-- The kinds of tokens that a cause can name. A token that is required is not
found, one that can begin an operand is no unknown expression, and an unknown
operator is one of the two that bind without being binary. -/
def SyntaxError.Cause.Apt : Cause → Prop
  | unexpectedToken expected found => found ≠ expected
  | unknownExpression found => found ≠ .identifier ∧ found ≠ .not ∧ found ≠ .leftParen
  | unknownOperator found => found = .not ∨ found = .leftParen
  | nestingTooDeep _ => True

/-- The fault has the position of the token, and its kind if it names one. -/
def SyntaxError.IsAbout (e : SyntaxError) (t : Token) : Prop :=
  e.position = t.position ∧ ∀ found ∈ e.cause.found?, found = t.kind

namespace Parser

-- ---------------------------------------------------------------------------
-- Single moves
-- ---------------------------------------------------------------------------

/-- The parser stands in the text, and its faults are about tokens up to the one
behind the current one, in the order of the text. -/
structure InOrder (ts : List Token) (p : Parser) : Prop where
  suffix : p.tokens <:+ ts
  about : ∀ e ∈ p.errors.toList, e.cause.Apt ∧ ∃ t ∈ ts, e.IsAbout t
  sorted : p.errors.toList.Pairwise fun e f => e.position ≤ f.position
  passed : ∀ e ∈ p.errors.toList, e.position ≤ p.lookahead.position

section
variable {ts : List Token} {p q : Parser} {t : Token} {cause : SyntaxError.Cause}

theorem suffix_advance (p : Parser) : p.advance.tokens <:+ p.tokens := by
  obtain ⟨⟨t, us⟩, errors, tooDeep, log, meter⟩ := p
  cases us with
  | nil => exact List.suffix_rfl
  | cons u us => exact List.suffix_cons t (u :: us)

theorem lookahead_mem_tokens (p : Parser) : p.lookahead ∈ p.tokens :=
  List.mem_of_mem_take (lookahead_mem_take_tokens p)

/-- The token behind the current one is the current one only at the end. -/
theorem position_current_le (h : p.tokens.Pairwise fun t u => t.position < u.position) :
    p.current.position ≤ p.lookahead.position := by
  obtain ⟨⟨t, us⟩, errors, tooDeep, log, meter⟩ := p
  cases us with
  | nil => exact Position.le_refl _
  | cons u us => exact Position.le_of_lt ((List.pairwise_cons.mp h).1 u (List.mem_cons_self ..))

theorem position_lookahead_le_advance
    (h : p.tokens.Pairwise fun t u => t.position < u.position) :
    p.lookahead.position ≤ p.advance.lookahead.position := by
  rw [← current_advance]
  exact position_current_le (h.sublist (suffix_advance p).sublist)

namespace InOrder

theorem advance (hts : ts.Pairwise fun t u => t.position < u.position) (h : p.InOrder ts) :
    p.advance.InOrder ts := by
  have hle := position_lookahead_le_advance (hts.sublist h.suffix.sublist)
  exact ⟨(suffix_advance p).trans h.suffix, h.about, h.sorted,
    fun e he => Position.le_trans (h.passed e he) hle⟩

theorem report (h : p.InOrder ts) (ht : t ∈ ts) (hcause : cause.Apt)
    (hfound : ∀ found ∈ cause.found?, found = t.kind)
    (hlast : ∀ e ∈ p.errors.toList, e.position ≤ t.position)
    (hnext : t.position ≤ p.lookahead.position) : (p.report cause t).InOrder ts := by
  have hlookahead : (p.report cause t).lookahead = p.lookahead := rfl
  refine ⟨h.suffix, ?_, ?_, ?_⟩
  · simp only [Parser.report, Array.toList_push, List.forall_mem_append, List.forall_mem_singleton]
    exact ⟨h.about, hcause, t, ht, rfl, hfound⟩
  · simp only [Parser.report, Array.toList_push, List.pairwise_append, List.forall_mem_singleton]
    exact ⟨h.sorted, List.pairwise_singleton _ _, hlast⟩
  · rw [hlookahead]
    simp only [Parser.report, Array.toList_push, List.forall_mem_append, List.forall_mem_singleton]
    exact ⟨h.passed, hnext⟩

/-- Nothing is known when a fault at the current token is found. -/
theorem report_current (hts : ts.Pairwise fun t u => t.position < u.position)
    (h : p.InOrder ts) (hp : p.Fresh) (hcause : cause.Apt)
    (hfound : ∀ found ∈ cause.found?, found = p.current.kind) :
    (p.report cause p.current).InOrder ts :=
  h.report (h.suffix.mem (List.mem_cons_self ..)) hcause hfound (by simp [hp.errors])
    (position_current_le (hts.sublist h.suffix.sublist))

theorem report_lookahead (h : p.InOrder ts) {expected : Token.Kind}
    (hk : p.lookahead.kind ≠ expected) :
    (p.report (.unexpectedToken expected p.lookahead.kind) p.lookahead).InOrder ts :=
  h.report (h.suffix.mem (lookahead_mem_tokens p)) hk (by simp [SyntaxError.Cause.found?])
    h.passed (Position.le_refl _)

theorem refuse (hts : ts.Pairwise fun t u => t.position < u.position) (h : p.InOrder ts)
    (hp : p.Fresh) : p.refuse.InOrder ts := by
  unfold Parser.refuse
  split
  · exact h
  · have hreport : (p.report (.nestingTooDeep nestingLimit) p.current).InOrder ts :=
      h.report_current hts hp trivial nofun
    exact ⟨hreport.suffix, hreport.about, hreport.sorted, hreport.passed⟩

theorem eq_not_or_eq_leftParen {floor : Priority} (hb : t.bindsAbove floor = true)
    (hop : BinaryOperator.ofKind? t.kind = none) : t.kind = .not ∨ t.kind = .leftParen := by
  have hne := ne_lowest_of_bindsAbove hb
  cases hk : t.kind <;> simp_all [BinaryOperator.ofKind?, Token.Kind.priority]

theorem move (hts : ts.Pairwise fun t u => t.position < u.position)
    (hnames : ∀ t ∈ ts, t.name? = none → t.kind ≠ .identifier) (h : p.InOrder ts)
    (hm : Move p q) : q.InOrder ts := by
  cases hm with
  | advance => exact h.advance hts
  | descend | enter | leave => exact ⟨h.suffix, h.about, h.sorted, h.passed⟩
  | refuse hp => exact h.refuse hts hp
  | unknownExpression hp hname hnot hparen =>
    have hk := hnames _ (h.suffix.mem (List.mem_cons_self ..)) hname
    exact h.report_current hts hp ⟨hk, hnot, hparen⟩ (by simp [SyntaxError.Cause.found?])
  | unknownOperator hp hc hb hop =>
    subst hc
    exact h.report_current hts hp (eq_not_or_eq_leftParen hb hop)
      (by simp [SyntaxError.Cause.found?])
  | unclosed _ hk | trailing _ hk => exact h.report_lookahead hk
  | skip =>
    have hadvance := h.advance hts
    exact ⟨hadvance.suffix, hadvance.about, hadvance.sorted, hadvance.passed⟩

-- ---------------------------------------------------------------------------
-- Whole readings
-- ---------------------------------------------------------------------------

theorem moves (hts : ts.Pairwise fun t u => t.position < u.position)
    (hnames : ∀ t ∈ ts, t.name? = none → t.kind ≠ .identifier) (h : p.InOrder ts)
    (hm : Moves p q) : q.InOrder ts := by
  induction hm with
  | refl => exact h
  | tail _ hmove ih => exact ih.move hts hnames hmove

end InOrder

end

theorem inOrder_parse (source : String) :
    (ofString source).parse.2.InOrder (tokenize source) := by
  have hstart : (ofString source).InOrder (tokenize source) := by
    exact ⟨⟨[], tokens_ofString source⟩, by simp [ofString, ofCursor],
      by simp [ofString, ofCursor], by simp [ofString, ofCursor]⟩
  exact hstart.moves (tokenize_pairwise source)
    (fun _ ht => Scanner.kind_ne_identifier_of_name? ht) (parse_goes (fresh_ofString source)).moves

end Parser

/-- Every fault is about a token of the text, of a kind that it can be about,
and no fault stands in front of one that was recorded before it. -/
theorem faults_in_order (source : String) :
    let errors := (Parser.ofString source).parse.2.errors.toList
    (∀ e ∈ errors, e.cause.Apt ∧ ∃ t ∈ tokenize source, e.IsAbout t) ∧
      errors.Pairwise fun e f => e.position ≤ f.position := by
  have h := Parser.inOrder_parse source
  exact ⟨h.about, h.sorted⟩

end LogicCalculator
